import KlarAudit.Grammar.Enumeration
import KlarAudit.Grammar.Function
import KlarAudit.Grammar.Structure

/-!
# Declarations as they open

The keyword of a declaration decides how it is read. Most declarations are read whole here; of a
module, a trait or an implementation only what stands before its members is read, and the members
are left for the reader of declaration trees.

## Main definitions

* `Block`: a declaration whose members follow
* `Parser.trait`, `Parser.impl`, `Parser.module`: up to the brace that opens the members
* `Introducer`: the keywords that introduce a declaration
* `opening`: any declaration, whole or up to its members

## Main results

* `opening_shorter`: a declaration takes at least one lexeme
-/

namespace KlarAudit

/-- A declaration with members: its heading, and what its members need to know. -/
structure Block where
  /-- The declaration without its extent. -/
  heading : Heading
  /-- The first token of the declaration. -/
  first : Token
  /-- The members are public whether marked or not. -/
  publicMembers : Bool
deriving DecidableEq, Repr

/-- **What a declaration turns out to be**: complete, or opened by a brace. Imports, type aliases
and modules kept in another file are read and leave no declaration. -/
inductive Opening where
  /-- The declaration has been read. -/
  | complete (d : Option Declaration)
  /-- The members follow. -/
  | block (b : Block)
deriving DecidableEq, Repr

namespace Parser

/-! ## Declarations with members -/

/-- **A trait**, up to its members, which are public if the trait is. -/
def trait (pre : Preamble) : Parser Block := do
  let _ ← expect "trait"
  let name ← expectName "trait name"
  let generics ← generics
  let supertraits ← typeAfter ":" ["where", "\x7b"]
  let bounds ← whereBounds
  let _ ← expect "\x7b"
  pure
    { heading :=
        { shape := .trait (generics.bounding (supertraits.toList ++ bounds))
          name := name.text
          pos := name.pos
          isPublic := pre.isPublic
          doc := pre.doc }
      first := pre.first
      publicMembers := pre.isPublic }

/-- The generic parameters of an implementation, whose bracket must touch the keyword; elsewhere a
bracket belongs to the type. -/
def implGenerics (keyword : Token) : Parser Generics := do
  let next ← peek?
  if next.any fun l => l.token.start == keyword.stop && ["<", "["].contains l.token.text then
    generics
  else pure {}

/-- The name of an implementation. -/
def implName (trait? : Option String) (target : String) : String :=
  match trait? with
  | some trait => if trait.isEmpty then target else trait ++ " for " ++ target
  | none => target

/-- The trait and the target of an implementation: `subject` is the type after the keyword, and
`target?` the one after `for`. -/
def implParts (subject : String) : (target? : Option String) → Option String × String
  | none => (none, subject)
  | some target => (some subject, target)

/-- The trait and the target of an implementation introduced by the given keyword. -/
def implTarget (keyword : Token) : Parser (Option String × String) := do
  let run ← collect ["for", "where", "\x7b"] true
  let target? ← typeAfter "for" ["where", "\x7b"]
  if (implParts (Run.render run) target?).2.isEmpty then fail (.at .noTarget keyword)
  else pure (implParts (Run.render run) target?)

/-- **An implementation**, up to its members. -/
def impl (pre : Preamble) : Parser Block := do
  let keyword ← expect "impl"
  let generics ← implGenerics keyword
  let (trait?, target) ← implTarget keyword
  let bounds ← whereBounds
  let _ ← expect "\x7b"
  pure
    { heading :=
        { shape := .impl (generics.bounding bounds) target trait?
          name := implName trait? target
          pos := keyword.pos
          isPublic := false
          doc := none }
      first := pre.first
      publicMembers := false }

/-- **A module** introduced by the given keyword, up to its members; none if a semicolon stands in
their place. -/
def module (keyword : String) (pre : Preamble) : Parser Opening := do
  let _ ← expect keyword
  let name ← expectName "module name"
  match ← accept ";" with
  | some _ => pure (.complete none)
  | none => do
    let _ ← expect "\x7b"
    pure <| .block
      { heading :=
          { shape := .module
            name := name.text
            pos := name.pos
            isPublic := pre.isPublic
            doc := pre.doc }
        first := pre.first
        publicMembers := false }

theorem advances_trait (pre : Preamble) : Advances (trait pre) :=
  (advances_expect _).bind_left fun _ => (advances_expectName _).shortens.bind fun _ =>
    shortens_generics.bind fun _ => (shortens_typeAfter _ _).bind fun _ =>
      shortens_whereBounds.bind fun _ => (advances_expect _).shortens.bind fun _ =>
        shortens_pure _

theorem shortens_implGenerics (keyword : Token) : Shortens (implGenerics keyword) := by
  refine shortens_peek?.bind fun next => ?_
  split
  · exact shortens_generics
  · exact shortens_pure _

theorem shortens_implTarget (keyword : Token) : Shortens (implTarget keyword) := by
  refine (shortens_collect _ _).bind fun run => (shortens_typeAfter _ _).bind fun target? => ?_
  split
  · exact (advances_fail _).shortens
  · exact shortens_pure _

theorem advances_impl (pre : Preamble) : Advances (impl pre) :=
  (advances_expect _).bind_left fun _ => (shortens_implGenerics _).bind fun _ =>
    (shortens_implTarget _).bind fun _ => shortens_whereBounds.bind fun _ =>
      (advances_expect _).shortens.bind fun _ => shortens_pure _

theorem advances_module (keyword : String) (pre : Preamble) : Advances (module keyword pre) := by
  refine (advances_expect _).bind_left fun _ => (advances_expectName _).shortens.bind fun _ =>
    (shortens_accept _).bind fun t => ?_
  cases t with
  | some _ => exact shortens_pure _
  | none => exact (advances_expect _).shortens.bind fun _ => shortens_pure _

/-! ## Imports and aliases -/

/-- The rest of an import that starts on the given line, inside the brackets `stack`: up to a
semicolon or, outside brackets, to the end of the line. -/
def importFrom (line : Nat) (stack : List Token) : Parser Unit
  | [] => .ok ((), [])
  | l :: ls =>
    if stack.isEmpty && l.token.is ";" then .ok ((), ls)
    else if stack.isEmpty && l.token.line != line then .ok ((), l :: ls)
    else
      match nest stack l.token with
      | none => .error (.at (.mismatched l.token.text) l.token)
      | some stack => importFrom line stack ls

/-- **An import** introduced by the given keyword. -/
def importItem (keyword : String) : Parser Unit := do
  let head ← expect keyword
  importFrom head.line []

/-- **A type alias.** -/
def typeAlias : Parser Unit := do
  let _ ← expect "type"
  let _ ← collect [";"] true
  let _ ← expect ";"
  pure ()

theorem shortens_importFrom (line : Nat) (stack : List Token) :
    Shortens (importFrom line stack) := by
  intro ls a rest h
  induction ls generalizing stack with
  | nil => cases h; exact Nat.le_refl _
  | cons l ls ih =>
    simp only [importFrom] at h
    split at h
    · cases h; simp
    · split at h
      · cases h; simp
      · split at h
        · cases h
        · have := ih _ h
          simp only [List.length_cons]; omega

theorem advances_importItem (keyword : String) : Advances (importItem keyword) :=
  (advances_expect _).bind_left fun _ => shortens_importFrom _ _

theorem advances_typeAlias : Advances typeAlias :=
  (advances_expect _).bind_left fun _ => (shortens_collect _ _).bind fun _ =>
    (advances_expect _).shortens.bind fun _ => shortens_pure _

end Parser

/-! ## Any declaration -/

/-- **What a keyword introduces.** -/
inductive Introducer where
  /-- A function. -/
  | function
  /-- A structure. -/
  | struct
  /-- An enumeration. -/
  | enumeration
  /-- A trait. -/
  | trait
  /-- An implementation. -/
  | impl
  /-- A constant or a static variable. -/
  | constant
  /-- A module. -/
  | module
  /-- An import. -/
  | importItem
  /-- A type alias. -/
  | typeAlias
deriving DecidableEq, Repr

/-- The keywords that introduce a declaration. -/
def Introducer.keywords : List (String × Introducer) :=
  [("fn", .function), ("struct", .struct), ("enum", .enumeration), ("trait", .trait),
   ("impl", .impl), ("const", .constant), ("static", .constant), ("mod", .module),
   ("module", .module), ("use", .importItem), ("import", .importItem), ("type", .typeAlias)]

/-- What the token introduces. -/
def Token.introduces? (t : Token) : Option Introducer :=
  if t.kind = .keyword then Introducer.keywords.lookup t.text else none

/-- The declaration that the keyword `t` introduces, from that keyword on. -/
def Introducer.open (i : Introducer) (t : Token) (pre : Preamble) (ls : List Lexeme) :
    Attempt (Opening × List Lexeme) :=
  let whole (p : Parser Declaration) := Attempt.ofParser ((Opening.complete ∘ some) <$> p) ls
  let nothing (p : Parser Unit) := Attempt.ofParser ((fun _ => Opening.complete none) <$> p) ls
  let upToMembers (p : Parser Block) := Attempt.ofParser (Opening.block <$> p) ls
  match i with
  | .function => whole (Parser.function pre)
  | .struct => (fun (d, rest) => (.complete (some d), rest)) <$> structItem pre ls
  | .enumeration => whole (Parser.enumeration pre)
  | .trait => upToMembers (Parser.trait pre)
  | .impl => upToMembers (Parser.impl pre)
  | .constant => whole (Parser.constant t.text pre)
  | .module => Attempt.ofParser (Parser.module t.text pre) ls
  | .importItem => nothing (Parser.importItem t.text)
  | .typeAlias => nothing Parser.typeAlias

/-- The declaration after its preamble. -/
def openAfter (pre : Preamble) (ls : List Lexeme) : Attempt (Opening × List Lexeme) :=
  match ls with
  | [] => .fail (.atEnd .noDeclaration)
  | l :: _ =>
    match l.token.introduces? with
    | none => .fail (.at (.unexpected l.token.text) l.token)
    | some i => i.open l.token pre ls

/-- **Any declaration**, whole or up to its members; `byPlace` is the visibility of a declaration
that is not marked. -/
def opening (byPlace : Bool) (ls : List Lexeme) : Attempt (Opening × List Lexeme) :=
  match ls with
  | [] => .fail (.atEnd .noDeclaration)
  | l :: _ => do
    let (pre, rest) ← .ofParser (Parser.preamble byPlace l) ls
    openAfter pre rest

theorem Introducer.open_shorter {i : Introducer} {t : Token} {pre : Preamble}
    {ls rest : List Lexeme} {o : Opening} (h : (i.open t pre ls).outcome = .ok (o, rest)) :
    rest.length < ls.length := by
  have lift {α : Type} {f : α → Opening} {p : Parser α} (hp : Parser.Advances p)
      (h : (Attempt.ofParser (f <$> p) ls).outcome = .ok (o, rest)) : rest.length < ls.length := by
    obtain ⟨a, ha, _⟩ := Parser.map_eq_ok.mp h
    exact hp _ _ _ ha
  cases i with
  | function => exact lift (Parser.advances_function pre) h
  | struct =>
    obtain ⟨⟨d, r⟩, hd, he⟩ := Attempt.outcome_map_eq_ok.mp h
    cases he
    exact structItem_shorter hd
  | enumeration => exact lift (Parser.advances_enumeration pre) h
  | trait => exact lift (Parser.advances_trait pre) h
  | impl => exact lift (Parser.advances_impl pre) h
  | constant => exact lift (Parser.advances_constant _ pre) h
  | module => exact Parser.advances_module _ pre _ _ _ h
  | importItem => exact lift (Parser.advances_importItem _) h
  | typeAlias => exact lift Parser.advances_typeAlias h

/-- A declaration takes at least one lexeme. -/
theorem opening_shorter {byPlace : Bool} {ls rest : List Lexeme} {o : Opening}
    (h : (opening byPlace ls).outcome = .ok (o, rest)) : rest.length < ls.length := by
  cases ls with
  | nil => cases h
  | cons l tail =>
    obtain ⟨⟨pre, mid⟩, h₁, h₂⟩ := Attempt.outcome_bind_eq_ok.mp h
    have hm := Parser.shortens_preamble _ _ _ _ _ h₁
    cases mid with
    | nil => cases h₂
    | cons m tail' =>
      simp only [openAfter] at h₂
      split at h₂
      · cases h₂
      · exact Nat.lt_of_lt_of_le (Introducer.open_shorter h₂) hm

end KlarAudit

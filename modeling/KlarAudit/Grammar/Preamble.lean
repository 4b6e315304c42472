import KlarAudit.Grammar.Parser

/-!
# The preamble of a declaration

Attributes, the visibility mark and the unsafe mark, which may stand before any declaration.

## Main definitions

* `Parser.attributes`: all attributes in front of something
* `Preamble`, `Parser.preamble`: what stands before the keyword of a declaration

## Main results

* `shortens_attributes`, `shortens_preamble`: what is left is no longer than the input
-/

namespace KlarAudit

/-- **What may stand before any declaration.** -/
structure Preamble where
  /-- The first token of the declaration. -/
  first : Token
  /-- The documentation above the first token or, failing that, above the first token after the
  attributes. -/
  doc : Option DocComment
  /-- The declaration is public, by its own mark or by its place. -/
  isPublic : Bool
  /-- The declaration carries an unsafe mark. -/
  isUnsafe : Bool
deriving DecidableEq, Repr

namespace Parser

/-- The bracket group of an attribute. -/
def attributeGroup : Parser Bool := do
  match ← group "[" with
  | some _ => pure true
  | none => fun ls => .error ⟨.bareAttribute, (ls.head?.map (.token ·.token)).getD .last⟩

/-- One attribute, `#[…]`, `#![…]`, `@name` or `@name(…)`; the result tells whether there was
one. -/
def oneAttribute : Parser Bool := do
  match ← accept "#" with
  | some _ => do
    let _ ← accept "!"
    attributeGroup
  | none =>
    match ← accept "@" with
    | some _ => do
      let _ ← expectName "attribute name"
      let _ ← group "("
      pure true
    | none => pure false

theorem accept_eq_ok_some {s : String} {ls rest : List Lexeme} {t : Token}
    (h : accept s ls = .ok (some t, rest)) : rest.length < ls.length := by
  cases ls with
  | nil => cases h
  | cons l ls =>
    simp only [accept] at h
    split at h <;> cases h; simp

theorem shortens_attributeGroup : Shortens attributeGroup := by
  refine (shortens_group _).bind fun g => ?_
  cases g with
  | some _ => exact shortens_pure _
  | none => exact fun _ _ _ h => nomatch h

theorem oneAttribute_eq_ok_true {ls rest : List Lexeme} (h : oneAttribute ls = .ok (true, rest)) :
    rest.length < ls.length := by
  obtain ⟨t, mid, h₁, h₂⟩ := bind_eq_ok.mp h
  cases t with
  | some t =>
    have hs : Shortens (accept "!" >>= fun _ => attributeGroup) :=
      (shortens_accept _).bind fun _ => shortens_attributeGroup
    exact Nat.lt_of_le_of_lt (hs _ _ _ h₂) (accept_eq_ok_some h₁)
  | none =>
    obtain ⟨t, mid', h₃, h₄⟩ := bind_eq_ok.mp h₂
    have := shortens_accept _ _ _ _ h₁
    cases t with
    | some t =>
      have hs : Shortens
          (expectName "attribute name" >>= fun _ => group "(" >>= fun _ => pure true) :=
        (advances_expectName _).shortens.bind fun _ => (shortens_group _).bind fun _ =>
          shortens_pure _
      have := hs _ _ _ h₄
      have := accept_eq_ok_some h₃
      omega
    | none => cases h₄

theorem shortens_oneAttribute : Shortens oneAttribute := by
  refine (shortens_accept _).bind fun t => ?_
  cases t with
  | some _ => exact (shortens_accept _).bind fun _ => shortens_attributeGroup
  | none =>
    refine (shortens_accept _).bind fun t => ?_
    cases t with
    | some _ =>
      exact (advances_expectName _).shortens.bind fun _ => (shortens_group _).bind fun _ =>
        shortens_pure _
    | none => exact shortens_pure _

/-- **All attributes** in front of a declaration, a field or a variant. -/
def attributes (ls : List Lexeme) : Except SyntaxError (Unit × List Lexeme) :=
  match _h : oneAttribute ls with
  | .error e => .error e
  | .ok (false, rest) => .ok ((), rest)
  | .ok (true, rest) => attributes rest
termination_by ls.length
decreasing_by exact oneAttribute_eq_ok_true _h

theorem shortens_attributes : Shortens attributes := by
  intro ls a rest h
  fun_induction attributes ls with
  | case1 ls e he => cases h
  | case2 ls rest' he =>
    cases h
    exact shortens_oneAttribute _ _ _ he
  | case3 ls rest' he ih =>
    exact Nat.le_trans (ih h) (Nat.le_of_lt (oneAttribute_eq_ok_true he))

/-- The visibility mark; `byPlace` is the visibility of a declaration without one. -/
def visibility (byPlace : Bool) : Parser Bool := do
  match ← accept "pub" with
  | none => pure byPlace
  | some _ => do
    let _ ← group "("
    pure true

/-- **The preamble of a declaration**, whose first lexeme is `l`. -/
def preamble (byPlace : Bool) (l : Lexeme) : Parser Preamble := do
  let _ ← attributes
  let next ← peek?
  let isPublic ← visibility byPlace
  let mark ← accept "unsafe"
  pure ⟨l.token, l.doc?.or (next.bind (·.doc?)), isPublic, mark.isSome⟩

theorem shortens_visibility (byPlace : Bool) : Shortens (visibility byPlace) := by
  refine (shortens_accept _).bind fun t => ?_
  cases t with
  | none => exact shortens_pure _
  | some _ => exact (shortens_group _).bind fun _ => shortens_pure _

theorem shortens_preamble (byPlace : Bool) (l : Lexeme) : Shortens (preamble byPlace l) :=
  shortens_attributes.bind fun _ => shortens_peek?.bind fun _ =>
    (shortens_visibility _).bind fun _ => (shortens_accept _).bind fun _ => shortens_pure _

end Parser

end KlarAudit

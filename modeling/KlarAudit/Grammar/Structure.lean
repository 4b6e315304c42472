import KlarAudit.Grammar.Attempt
import KlarAudit.Grammar.Generic
import KlarAudit.Grammar.Preamble

/-!
# Structures

A structure has named fields in braces, unnamed ones in round brackets, or none. A comma that is
missing between two named fields is recorded as an issue and read over, so that no field is lost.

## Main definitions

* `Parser.field`: a named field, and whether a comma is missing after it
* `Parser.tupleFields`: the fields of a structure without field names
* `fields`: the named fields of a structure
* `structItem`: a structure

## Main results

* `advances_field`: a field takes at least one lexeme
* `fields_induction`: what holds of every way to read the fields
* `structItem_shorter`: a structure takes at least one lexeme
-/

namespace KlarAudit

namespace Parser

/-- The field of the given name whose type is the run `t :: ts`. -/
def namedField (name : Token) (isPublic : Bool) (t : Token) (ts : List Token) : Field :=
  { name := name.text
    type := Run.render (t :: ts)
    isPublic
    pos := name.pos
    span := ⟨name.start, ((t :: ts).getLastD t).stop⟩ }

/-- **The type of a field**, up to a comma or the end of the fields. A colon within shows that the
comma before the next field is missing: the type ends two tokens before it, and the first token of
the next field is returned as well. -/
def fieldType (name : Token) (isPublic : Bool) (ls : List Lexeme) :
    Except SyntaxError ((Field × Option Token) × List Lexeme) := do
  let (run, rest) ← collect [",", "\x7d"] true ls
  match run, Run.colon? run with
  | [], _ => .error (.at (.noType name.text) name)
  | t :: ts, none => .ok ((namedField name isPublic t ts, none), rest)
  | t :: ts, some (k + 2) =>
    match ts[k]? with
    | none => .error (.at (.noType name.text) name)
    | some following =>
      .ok ((namedField name isPublic t (ts.take k), some following), ls.drop (k + 1))
  | _ :: _, some _ => .error (.at (.noType name.text) name)

/-- **A field**, and the first token of the next field when the comma between the two is missing. -/
def field : Parser (Field × Option Token) := do
  let _ ← attributes
  let mark ← accept "pub"
  let name ← expectName "field name"
  let _ ← expect ":"
  fieldType name mark.isSome

/-- **What the type of a field is made of**: the whole run up to the end of the field or, where a
colon in the run shows the next field, what stands before the name of that one. -/
theorem fieldType_eq_ok {name : Token} {isPublic : Bool} {ls rest : List Lexeme} {f : Field}
    {following : Option Token} (h : fieldType name isPublic ls = .ok ((f, following), rest)) :
    ∃ t ts left, collect [",", "\x7d"] true ls = .ok (t :: ts, left) ∧
      ((Run.colon? (t :: ts) = none ∧ f = namedField name isPublic t ts ∧ following = none ∧
          rest = left) ∨
        ∃ k next, Run.colon? (t :: ts) = some (k + 2) ∧ ts[k]? = some next ∧
          f = namedField name isPublic t (ts.take k) ∧ following = some next ∧
          rest = ls.drop (k + 1)) := by
  unfold fieldType at h
  cases hrun : collect [",", "\x7d"] true ls with
  | error e => rw [hrun] at h; cases h
  | ok r =>
    obtain ⟨run, left⟩ := r
    rw [hrun] at h
    simp only [bind, Except.bind] at h
    split at h
    · cases h
    · rename_i t ts hcolon
      cases h
      exact ⟨t, ts, _, rfl, .inl ⟨hcolon, rfl, rfl, rfl⟩⟩
    · rename_i t ts k hcolon
      split at h
      · cases h
      · rename_i next hnext
        cases h
        exact ⟨t, ts, left, rfl, .inr ⟨k, next, hcolon, hnext, rfl, rfl, rfl⟩⟩
    · cases h

section FieldType

variable {name t next : Token} {isPublic : Bool} {ls left : List Lexeme} {ts : List Token} {k : Nat}

theorem fieldType_of_whole (h : collect [",", "\x7d"] true ls = .ok (t :: ts, left))
    (hcolon : Run.colon? (t :: ts) = none) :
    fieldType name isPublic ls = .ok ((namedField name isPublic t ts, none), left) := by
  simp only [fieldType, h, bind, Except.bind, hcolon]

theorem fieldType_of_cut (h : collect [",", "\x7d"] true ls = .ok (t :: ts, left))
    (hcolon : Run.colon? (t :: ts) = some (k + 2)) (hnext : ts[k]? = some next) :
    fieldType name isPublic ls =
      .ok ((namedField name isPublic t (ts.take k), some next), ls.drop (k + 1)) := by
  simp only [fieldType, h, bind, Except.bind, hcolon, hnext]

end FieldType

theorem shortens_fieldType (name : Token) (isPublic : Bool) :
    Shortens (fieldType name isPublic) := by
  rintro ls ⟨f, following⟩ rest h
  obtain ⟨t, ts, left, hrun, ⟨-, -, -, rfl⟩ | ⟨k, next, -, -, -, -, rfl⟩⟩ := fieldType_eq_ok h
  · exact shortens_collect _ _ _ _ _ hrun
  · rw [List.length_drop]
    omega

theorem advances_field : Advances field :=
  Advances.bind_right shortens_attributes fun _ => Advances.bind_right (shortens_accept _) fun _ =>
    (advances_expectName _).bind_left fun _ => (advances_expect _).shortens.bind fun _ =>
      shortens_fieldType _ _

/-- The fields without names that a run of tokens lists. -/
def tupleFields (run : List Token) : List Field :=
  ((Run.splitCommas run).zipIdx).filterMap fun (part, i) =>
    match part with
    | [] => none
    | t :: ts =>
      let isPublic := t.is "pub"
      some
        { name := toString i
          type := Run.render (if isPublic then ts else t :: ts)
          isPublic
          pos := t.pos
          span := ⟨t.start, ((t :: ts).getLastD t).stop⟩ }

/-- What stands before the fields of a structure: its name and generic parameters. -/
def structHeading : Parser (Token × Generics) := do
  let _ ← expect "struct"
  let name ← expectName "struct name"
  let generics ← generics
  let bounds ← whereBounds
  pure (name, generics.bounding bounds)

/-- The fields of a structure without field names, in round brackets, or no fields at all; and the
semicolon that ends the structure. -/
def tupleBody : Parser (List Field × Token) := do
  match ← accept "(" with
  | none => do
    let close ← expect ";"
    pure ([], close)
  | some _ => do
    let run ← collect [")"] true
    let _ ← expect ")"
    let close ← expect ";"
    pure (tupleFields run, close)

theorem advances_structHeading : Advances structHeading :=
  (advances_expect _).bind_left fun _ => (advances_expectName _).shortens.bind fun _ =>
    shortens_generics.bind fun _ => shortens_whereBounds.bind fun _ => shortens_pure _

theorem shortens_tupleBody : Shortens tupleBody := by
  refine (shortens_accept _).bind fun t => ?_
  cases t with
  | none => exact (advances_expect _).shortens.bind fun _ => shortens_pure _
  | some _ =>
    exact (shortens_collect _ _).bind fun _ => (advances_expect _).shortens.bind fun _ =>
      (advances_expect _).shortens.bind fun _ => shortens_pure _

end Parser

/-- What is left of `ls` after a comma, if there is one. -/
def afterComma (ls : List Lexeme) : List Lexeme :=
  if nextIs "," ls then ls.tail else ls

theorem length_afterComma_le (ls : List Lexeme) : (afterComma ls).length ≤ ls.length := by
  unfold afterComma
  split <;> simp

/-- The issue of a comma missing before a field whose first token is `t`. -/
def Issue.noComma (t : Token) : Issue :=
  ⟨.at (.noComma t.text) t, some t⟩

/-- Records that a comma is missing before the token, if there is one. -/
def recordMissing : Option Token → Attempt Unit
  | none => pure ()
  | some t => .record (.noComma t)

open KlarAudit.Parser in
/-- **The fields of a structure**, after the opening brace of a structure whose first token is
`first`; also the closing brace. -/
def fields (first : Token) (ls : List Lexeme) : Attempt ((List Field × Token) × List Lexeme) :=
  match ls with
  | [] => .fail (.at .unterminated first)
  | l :: tail =>
    if l.token.is "\x7d" then pure (([], l.token), tail)
    else
      match _h : field (l :: tail) with
      | .error e => .fail e
      | .ok ((f, following), rest) => do
        let _ ← recordMissing following
        let ((fs, close), rest) ← fields first (afterComma rest)
        pure ((f :: fs, close), rest)
termination_by ls.length
decreasing_by
  all_goals exact Nat.lt_of_le_of_lt (length_afterComma_le _) (advances_field _ _ _ _h)

/-- **Induction over the fields that are read.** A statement about the input, the fields with the
brace that closes them, and what is left holds of all fields when it holds of the brace alone, and
when it passes from the other fields to one more in front of them. -/
theorem fields_induction {first : Token}
    {P : List Lexeme → List Field × Token → List Lexeme → Prop}
    (close : ∀ {l tail}, l.token.is "\x7d" → P (l :: tail) ([], l.token) tail)
    (field : ∀ {l tail f following left r rest}, ¬ l.token.is "\x7d" →
      Parser.field (l :: tail) = .ok ((f, following), left) →
      (fields first (afterComma left)).outcome = .ok (r, rest) → P (afterComma left) r rest →
      P (l :: tail) (f :: r.1, r.2) rest)
    {ls rest : List Lexeme} {r : List Field × Token}
    (h : (fields first ls).outcome = .ok (r, rest)) : P ls r rest := by
  fun_induction fields first ls generalizing r rest with
  | case1 => cases h
  | case2 l tail hc =>
    cases h
    exact close hc
  | case3 l tail hc e he => cases h
  | case4 l tail hc f following left he ih =>
    obtain ⟨_, -, h⟩ := Attempt.outcome_bind_eq_ok.mp h
    obtain ⟨⟨⟨fs, brace⟩, rest'⟩, hr, h⟩ := Attempt.outcome_bind_eq_ok.mp h
    cases h
    exact field hc he hr (ih hr)

theorem fields_shorter {first : Token} {ls rest : List Lexeme} {r : List Field × Token}
    (h : (fields first ls).outcome = .ok (r, rest)) : rest.length < ls.length := by
  refine fields_induction (P := fun ls _ rest => rest.length < ls.length) ?close ?field h
  case close => exact fun _ => Nat.lt_succ_self _
  case field =>
    intro l tail f following left r rest _ hf _ ih
    have := length_afterComma_le left
    have := Parser.advances_field _ _ _ hf
    omega

/-- The declaration of a structure with the given fields, closed by `close`. -/
def structDeclaration (pre : Preamble) (name : Token) (generics : Generics) (fields : List Field)
    (close : Token) : Declaration :=
  { shape := .struct generics fields
    name := name.text
    pos := name.pos
    isPublic := pre.isPublic
    doc := pre.doc
    span := ⟨pre.first.start, close.stop⟩ }

/-- The fields of a structure whose first token is `first`, named or not, and the token that ends
the structure. -/
def structBody (first : Token) (ls : List Lexeme) : Attempt ((List Field × Token) × List Lexeme) :=
  if nextIs "\x7b" ls then fields first ls.tail else .ofParser Parser.tupleBody ls

/-- **A structure.** -/
def structItem (pre : Preamble) (ls : List Lexeme) : Attempt (Declaration × List Lexeme) := do
  let ((name, generics), ls) ← .ofParser Parser.structHeading ls
  let ((fs, close), ls) ← structBody pre.first ls
  pure (structDeclaration pre name generics fs close, ls)

/-- A structure takes at least one lexeme. -/
theorem structItem_shorter {pre : Preamble} {ls rest : List Lexeme} {d : Declaration}
    (h : (structItem pre ls).outcome = .ok (d, rest)) : rest.length < ls.length := by
  obtain ⟨⟨⟨name, generics⟩, mid⟩, h₁, h⟩ := Attempt.outcome_bind_eq_ok.mp h
  obtain ⟨⟨⟨fs, close⟩, mid'⟩, h₂, h⟩ := Attempt.outcome_bind_eq_ok.mp h
  cases h
  have := Parser.advances_structHeading _ _ _ h₁
  unfold structBody at h₂
  split at h₂
  · have := fields_shorter h₂
    simp only [List.length_tail] at this
    omega
  · have := Parser.shortens_tupleBody _ _ _ h₂
    omega

end KlarAudit

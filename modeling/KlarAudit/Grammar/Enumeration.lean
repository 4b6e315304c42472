import KlarAudit.Grammar.Generic
import KlarAudit.Grammar.Preamble

/-!
# Enumerations and constants

## Main definitions

* `Parser.variant`: a variant with its payload and value
* `Parser.enumeration`: an enumeration
* `Parser.constant`: a constant or a static variable

## Main results

* `variants_induction`: what holds of every way to read the variants
* `advances_enumeration`, `advances_constant`: both take at least one lexeme
-/

namespace KlarAudit.Parser

/-- The payload of a variant, in round brackets or in braces: where it ends. -/
def payload : Parser (Option Token) := do
  match ← group "(" with
  | some (_, close) => pure (some close)
  | none => do
    let g ← group "\x7b"
    pure (g.map (·.2))

/-- The run of tokens after an equals sign, up to a terminator; empty when there is no equals
sign. -/
def valueBefore (terminators : List String) : Parser (List Token) := do
  match ← accept "=" with
  | none => pure []
  | some _ => collect terminators false

/-- **A variant.** -/
def variant : Parser Variant := do
  let _ ← attributes
  let name ← expectName "variant name"
  let payload ← payload
  let value ← valueBefore [",", "\x7d"]
  let last := value.getLast?.or payload |>.getD name
  pure ⟨name.text, name.pos, ⟨name.start, last.stop⟩⟩

theorem shortens_payload : Shortens payload := by
  refine (shortens_group _).bind fun g => ?_
  cases g with
  | some _ => exact shortens_pure _
  | none => exact (shortens_group _).bind fun _ => shortens_pure _

theorem shortens_valueBefore (terminators : List String) : Shortens (valueBefore terminators) := by
  refine (shortens_accept _).bind fun t => ?_
  cases t with
  | none => exact shortens_pure _
  | some _ => exact shortens_collect _ _

theorem advances_variant : Advances variant :=
  Advances.bind_right shortens_attributes fun _ => (advances_expectName _).bind_left fun _ =>
    shortens_payload.bind fun _ => (shortens_valueBefore _).bind fun _ => shortens_pure _

/-- **The variants of an enumeration**, after the opening brace of an enumeration whose first token
is `first`; also the closing brace. -/
def variants (first : Token) (ls : List Lexeme) :
    Except SyntaxError ((List Variant × Token) × List Lexeme) :=
  match ls with
  | [] => .error (.at .unterminated first)
  | l :: tail =>
    if l.token.is "\x7d" then .ok (([], l.token), tail)
    else
      match _h : variant (l :: tail) with
      | .error e => .error e
      | .ok (v, rest) =>
        if _hc : nextIs "," rest then
          (variants first rest.tail).map fun ((vs, close), ls) => ((v :: vs, close), ls)
        else (expect "\x7d" rest).map fun (close, ls) => (([v], close), ls)
termination_by ls.length
decreasing_by exact Nat.lt_trans (length_tail_lt_of_nextIs _hc) (advances_variant _ _ _ _h)

/-- **Induction over the variants that are read.** A statement about the input, the variants with
the brace that closes them, and what is left holds of all variants when it holds of the brace alone,
when it passes from the variants behind a comma to one in front of it, and when it holds of a last
variant. -/
theorem variants_induction {first : Token}
    {P : List Lexeme → List Variant × Token → List Lexeme → Prop}
    (close : ∀ {l tail}, l.token.is "\x7d" → P (l :: tail) ([], l.token) tail)
    (comma : ∀ {l tail v left r rest}, ¬ l.token.is "\x7d" →
      variant (l :: tail) = .ok (v, left) → nextIs "," left → P left.tail r rest →
      P (l :: tail) (v :: r.1, r.2) rest)
    (last : ∀ {l tail v left brace rest}, ¬ l.token.is "\x7d" →
      variant (l :: tail) = .ok (v, left) → ¬ nextIs "," left →
      expect "\x7d" left = .ok (brace, rest) → P (l :: tail) ([v], brace) rest)
    {ls rest : List Lexeme} {r : List Variant × Token}
    (h : variants first ls = .ok (r, rest)) : P ls r rest := by
  fun_induction variants first ls generalizing r rest with
  | case1 => cases h
  | case2 l tail hc =>
    cases h
    exact close hc
  | case3 l tail hc e he => cases h
  | case4 l tail hc v left he hn ih =>
    obtain ⟨⟨⟨vs, brace⟩, rest'⟩, hr, hx⟩ := except_map_eq_ok.mp h
    cases hx
    exact comma hc he hn (ih hr)
  | case5 l tail hc v left he hn =>
    obtain ⟨⟨brace, rest'⟩, hr, hx⟩ := except_map_eq_ok.mp h
    cases hx
    exact last hc he hn hr

theorem advances_variants (first : Token) : Advances (variants first) := by
  intro ls r rest h
  refine variants_induction (P := fun ls _ rest => rest.length < ls.length) ?close ?comma ?last h
  case close => exact fun _ => Nat.lt_succ_self _
  case comma =>
    intro l tail v left r rest _ hv hn ih
    have := length_tail_lt_of_nextIs hn
    have := advances_variant _ _ _ hv
    omega
  case last =>
    intro l tail v left brace rest _ hv _ hclose
    have := advances_expect _ _ _ _ hclose
    have := advances_variant _ _ _ hv
    omega

/-- **An enumeration.** -/
def enumeration (pre : Preamble) : Parser Declaration := do
  let _ ← expect "enum"
  let name ← expectName "enum name"
  let generics ← generics
  let bounds ← whereBounds
  let _ ← expect "\x7b"
  let (vs, close) ← variants pre.first
  pure
    { shape := .enum (generics.bounding bounds) vs
      name := name.text
      pos := name.pos
      isPublic := pre.isPublic
      doc := pre.doc
      span := ⟨pre.first.start, close.stop⟩ }

theorem advances_enumeration (pre : Preamble) : Advances (enumeration pre) :=
  (advances_expect _).bind_left fun _ => (advances_expectName _).shortens.bind fun _ =>
    shortens_generics.bind fun _ => shortens_whereBounds.bind fun _ =>
      (advances_expect _).shortens.bind fun _ => (advances_variants _).shortens.bind fun _ =>
        shortens_pure _

/-- **A constant or a static variable**, introduced by the given keyword. -/
def constant (keyword : String) (pre : Preamble) : Parser Declaration := do
  let _ ← expect keyword
  let _ ← accept "mut"
  let name ← expectName "constant name"
  let type ← typeAfter ":" [";", "="]
  let _ ← valueBefore [";"]
  let close ← expect ";"
  pure
    { shape := .const (type.getD "") (keyword == "static")
      name := name.text
      pos := name.pos
      isPublic := pre.isPublic
      doc := pre.doc
      span := ⟨pre.first.start, close.stop⟩ }

theorem advances_constant (keyword : String) (pre : Preamble) : Advances (constant keyword pre) :=
  (advances_expect _).bind_left fun _ => (shortens_accept _).bind fun _ =>
    (advances_expectName _).shortens.bind fun _ => (shortens_typeAfter _ _).bind fun _ =>
      (shortens_valueBefore _).bind fun _ => (advances_expect _).shortens.bind fun _ =>
        shortens_pure _

end KlarAudit.Parser

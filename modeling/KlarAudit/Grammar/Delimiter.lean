import KlarAudit.Token.Basic

/-!
# Delimiters and nesting

Round, square and curly brackets nest. Reading a token changes the stack of the brackets that are
open: an opening one is pushed, a closing one pops its partner, and a closing bracket whose partner
is not on top is an error.

## Main definitions

* `Delimiter`: the three pairs of brackets
* `Token.opens?`, `Token.closes?`: the pair that a token opens or closes
* `nest stack t`: the open brackets after the token `t`
* `nestAll stack ts`: the open brackets after the tokens `ts`
* `WellNested ts`: the brackets of `ts` pair up

## Main results

* `nestAll_append`: reading one run after another
-/

namespace KlarAudit

/-- **The pairs of brackets that nest.** -/
inductive Delimiter where
  /-- Round brackets. -/
  | paren
  /-- Square brackets. -/
  | bracket
  /-- Curly brackets. -/
  | brace
deriving DecidableEq, Repr, Inhabited

namespace Delimiter

/-- The opening bracket of a pair. -/
def opener : Delimiter → String
  | paren => "("
  | bracket => "["
  | brace => "\x7b"

/-- The closing bracket of a pair. -/
def closer : Delimiter → String
  | paren => ")"
  | bracket => "]"
  | brace => "\x7d"

/-- All pairs. -/
def all : List Delimiter :=
  [paren, bracket, brace]

end Delimiter

namespace Token

/-- The pair that the token opens. -/
def opens? (t : Token) : Option Delimiter :=
  if t.kind = .operator then Delimiter.all.find? (·.opener == t.text) else none

/-- The pair that the token closes. -/
def closes? (t : Token) : Option Delimiter :=
  if t.kind = .operator then Delimiter.all.find? (·.closer == t.text) else none

end Token

/-- **Nesting**: the open brackets after the token `t`, innermost first, or `none` when `t` closes a
bracket that is not the innermost open one. The stack holds the opening tokens. -/
def nest (stack : List Token) (t : Token) : Option (List Token) :=
  match t.opens?, t.closes?, stack with
  | some _, _, _ => some (t :: stack)
  | none, none, _ => some stack
  | none, some _, [] => none
  | none, some d, o :: outer => if o.opens? = some d then some outer else none

/-- The open brackets after the tokens `ts`. -/
def nestAll (stack : List Token) : List Token → Option (List Token)
  | [] => some stack
  | t :: ts => (nest stack t).bind (nestAll · ts)

/-- **Well-nested tokens**: every bracket has its partner. -/
def WellNested (ts : List Token) : Prop :=
  nestAll [] ts = some []

instance (ts : List Token) : Decidable (WellNested ts) :=
  inferInstanceAs (Decidable (_ = _))

@[simp] theorem nestAll_nil (stack : List Token) : nestAll stack [] = some stack := rfl

@[simp] theorem nestAll_cons (stack : List Token) (t : Token) (ts : List Token) :
    nestAll stack (t :: ts) = (nest stack t).bind (nestAll · ts) := rfl

/-- Reading one run after another. -/
theorem nestAll_append (stack : List Token) (ts us : List Token) :
    nestAll stack (ts ++ us) = (nestAll stack ts).bind (nestAll · us) := by
  induction ts generalizing stack with
  | nil => rfl
  | cons t ts ih => cases h : nest stack t <;> simp [h, ih]

end KlarAudit

import KlarAudit.Grammar.Delimiter
import KlarAudit.Text.Affix

/-!
# Runs of tokens

A type, a parameter or a list of generic parameters is read as a run of tokens first and taken
apart afterwards: cut at its commas, divided at its colon, and written out with single blanks.
Within a run the angle brackets nest like the others, and a stray closing bracket does not count.

## Main definitions

* `Run.render ts`: the run as text, with the blanks of the language's style
* `Run.splitCommas ts`: the pieces between the commas outside brackets
* `Run.colon? ts`: the index of the first colon outside brackets
-/

namespace KlarAudit.Run

/-- The text of a token within a run, given the token before it: a comma and a colon are followed by
a blank, some operators stand between blanks, and two words are kept apart. -/
def piece (before : Option Token) (t : Token) : String :=
  if t.is "," then ", "
  else if t.kind == .operator && ["+", "=", "->", "=>"].contains t.text then " " ++ t.text ++ " "
  else if t.is ":" then ": "
  else if before.any (·.kind.isWordlike) && t.kind.isWordlike then " " ++ t.text
  else t.text

/-- The pieces of a run, in order. -/
def pieces (before : Option Token) : List Token → String
  | [] => ""
  | t :: ts => piece before t ++ pieces (some t) ts

/-- **The run as text**, without blanks at its ends. -/
def render (ts : List Token) : String :=
  Text.trim (pieces none ts)

/-- The depth after a token, where angle brackets nest too and a stray closing bracket is
ignored. -/
def depthAfter (depth : Nat) (t : Token) : Nat :=
  if t.opens?.isSome || t.isOperator "<" then depth + 1
  else if t.closes?.isSome || t.isOperator ">" then depth - 1
  else depth

/-- The index of the first colon outside brackets, when `depth` brackets are open. -/
def colonFrom? (depth : Nat) : List Token → Option Nat
  | [] => none
  | t :: ts =>
    if depth = 0 && t.isOperator ":" then some 0
    else (colonFrom? (depthAfter depth t) ts).map (· + 1)

/-- **The first colon outside brackets.** -/
def colon? (ts : List Token) : Option Nat :=
  colonFrom? 0 ts

/-- The pieces between the commas outside brackets, when `depth` brackets are open: the first piece
and the others. -/
def splitFrom (depth : Nat) : List Token → List Token × List (List Token)
  | [] => ([], [])
  | t :: ts =>
    let (first, others) := splitFrom (depthAfter depth t) ts
    if depth = 0 && t.isOperator "," then ([], first :: others) else (t :: first, others)

/-- **The pieces between the commas outside brackets**; there is one more than there are such
commas. -/
def splitCommas (ts : List Token) : List (List Token) :=
  let (first, others) := splitFrom 0 ts
  first :: others

end KlarAudit.Run

import KlarAudit.Text.Affix
import KlarAudit.Text.Blank

/-!
# Types applied to arguments

A type such as `Result<T, E>` or `Rc[T]`, as text: a name, an opening bracket, the arguments and a
closing bracket. Angle and square brackets serve alike, and the closing one need not match the
opening one. A single line feed may follow; the arguments hold none.

## Main definitions

* `Text.Applied`, `Text.applied?`: the opening bracket and the arguments of an applied type
* `Text.splitArguments`: the arguments between the commas outside brackets
-/

namespace KlarAudit.Text

/-- A type applied to arguments. -/
structure Applied where
  /-- The opening bracket. -/
  bracket : Char
  /-- What stands between the brackets. -/
  arguments : List Char
deriving DecidableEq, Repr

/-- The characters without a line feed at their end, if there is one. -/
def dropFinalNewline (cs : List Char) : List Char :=
  if cs.getLast? = some '\n' then cs.dropLast else cs

/-- What stands before a closing bracket at the end, if there is one and no line feed before it. -/
def beforeCloser? (cs : List Char) : Option (List Char) :=
  match (dropFinalNewline cs).getLast? with
  | some c =>
    let body := (dropFinalNewline cs).dropLast
    if (c = ']' || c = '>') && !body.contains '\n' then some body else none
  | none => none

/-- **The arguments of the type `name`** in the text `s`; `none` when `s` is not that type applied
to something. -/
def applied? (name s : String) : Option Applied :=
  if startsWith name s then
    match dropBlanks (s.toList.drop name.length) with
    | b :: rest =>
      if b = '[' || b = '<' then (beforeCloser? rest).map (⟨b, ·⟩) else none
    | [] => none
  else none

/-- The arguments between the commas outside brackets, at the given depth of brackets; the first
one, and the others. A stray closing bracket makes the depth negative, which protects commas as
well. -/
def splitArgumentsFrom (depth : Int) : List Char → List Char × List (List Char)
  | [] => ([], [])
  | c :: cs =>
    let inner := if c = '[' || c = '<' || c = '(' then depth + 1
      else if c = ']' || c = '>' || c = ')' then depth - 1 else depth
    let (first, others) := splitArgumentsFrom inner cs
    if c = ',' && depth = 0 then ([], first :: others) else (c :: first, others)

/-- **The arguments**, without the blanks at their ends. -/
def splitArguments (cs : List Char) : List String :=
  let (first, others) := splitArgumentsFrom 0 cs
  (first :: others).map fun a => String.ofList (trimChars a)

end KlarAudit.Text

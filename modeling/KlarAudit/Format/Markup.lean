/-!
# Styled output

Lines for a terminal carry their style in square brackets, `[bold]…[/bold]`. Text that happens to
look like a style is escaped by a backslash, and backslashes before it are doubled.

## Main definitions

* `Markup.tagLength?`: the length of what looks like a style
* `Markup.escape`: a text that is shown as it is
* `Markup.styled`: a text in a style
* `Print`: what is printed: a line or a table
-/

namespace KlarAudit

namespace Markup

/-- The characters that a style may start with, after its bracket. -/
def isTagStart (c : Char) : Bool :=
  ('a' ≤ c && c ≤ 'z') || c == '#' || c == '/' || c == '@'

/-- **What looks like a style** at the front of the characters: its length, brackets included. No
opening bracket stands within. -/
def tagLength? : List Char → Option Nat
  | '[' :: c :: cs =>
    let body := cs.takeWhile fun d => d ≠ '[' && d ≠ ']'
    if isTagStart c && (cs.drop body.length).head? == some ']' then some (body.length + 3) else none
  | _ => none

/-- The escaped characters, after skipping `n` of them. -/
def escapeFrom (n : Nat) : List Char → List Char
  | [] => []
  | c :: cs =>
    match n with
    | n + 1 => escapeFrom n cs
    | 0 =>
      let slashes := ((c :: cs).takeWhile (· == '\\')).length
      let rest := (c :: cs).drop slashes
      match tagLength? rest with
      | none => c :: escapeFrom 0 cs
      | some k =>
        List.replicate (2 * slashes + 1) '\\' ++ rest.take k ++ escapeFrom (slashes + k - 1) cs

/-- **The text, to be shown as it is.** A single backslash at the end is doubled, so that it does
not escape a style that follows. -/
def escape (s : String) : String :=
  let cs := escapeFrom 0 s.toList
  let slashes := (cs.reverse.takeWhile (· == '\\')).length
  String.ofList (if slashes = 1 then cs ++ ['\\'] else cs)

/-- The text in the given style. -/
def styled (style text : String) : String :=
  "[" ++ style ++ "]" ++ text ++ "[/" ++ style ++ "]"

end Markup

/-- **What is printed.** -/
inductive Print where
  /-- A line of styled text. -/
  | line (markup : String)
  /-- A table with a title or none, the heads of its columns and its rows of styled cells. -/
  | table (title : Option String) (columns : List String) (rows : List (List String))
deriving DecidableEq, Repr, Inhabited

end KlarAudit

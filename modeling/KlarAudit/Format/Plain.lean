import KlarAudit.Format.Markup
import KlarAudit.Text.Divided

/-!
# Printing without styles

Styles are dropped and escapes undone; the columns of a table are as wide as their widest line.

## Main definitions

* `Markup.plain`: a text without its styles
* `Print.lines`: what is printed, line by line
-/

namespace KlarAudit

namespace Markup

/-- The characters without styles, after skipping `n` of them. -/
def plainFrom (n : Nat) : List Char → List Char
  | [] => []
  | c :: cs =>
    match n with
    | n + 1 => plainFrom n cs
    | 0 =>
      let slashes := ((c :: cs).takeWhile (· == '\\')).length
      let rest := (c :: cs).drop slashes
      match tagLength? rest with
      | none => c :: plainFrom 0 cs
      | some k =>
        List.replicate (slashes / 2) '\\' ++ (if slashes % 2 = 1 then rest.take k else []) ++
          plainFrom (slashes + k - 1) cs

/-- **The text without its styles.** A style after an odd number of backslashes is no style, but
text; of the backslashes half are left. -/
def plain (s : String) : String :=
  String.ofList (plainFrom 0 s.toList)

end Markup

/-- The text followed by blanks, `width` characters in all. -/
def padded (width : Nat) (s : String) : String :=
  s ++ String.ofList (List.replicate (width - s.length) ' ')

/-- The line number `i` of each cell, in columns of the given widths. -/
def rowLine (widths : List Nat) (cells : List (List String)) (i : Nat) : String :=
  Text.joinWith "  " ((cells.zip widths).map fun (lines, w) => padded w (lines[i]?.getD ""))

/-- The lines of a table whose cells are given by their lines. -/
def tableLines (rows : List (List (List String))) : List String :=
  let columns := (rows.map (·.length)).foldl max 0
  let widths := (List.range columns).map fun j =>
    (rows.flatMap fun row => (row[j]?.getD []).map (·.length)).foldl max 0
  rows.flatMap fun row =>
    (List.range ((row.map (·.length)).foldl max 0)).map (rowLine widths row)

/-- **What is printed, line by line.** -/
def Print.lines : Print → List String
  | line markup => Text.divide '\n' (Markup.plain markup)
  | table title columns rows =>
    let cells (row : List String) := row.map fun c => Text.divide '\n' (Markup.plain c)
    title.toList ++ tableLines ((columns :: rows).map cells)

end KlarAudit

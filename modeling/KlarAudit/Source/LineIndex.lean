import KlarAudit.Search.PartitionPoint
import KlarAudit.Source.Position

/-!
# The line index of a text

The offsets at which the lines of a text start. A location look-up searches this index, so a
finding can be placed without reading the text again.

## Main definitions

* `LineIndex.ofText s`: the line index of `s`
* `LineIndex.location`: line and column of an offset
* `LineIndex.lineText`: the text of a line, without its line feed
-/

namespace KlarAudit

/-- **A text with its line starts.** -/
structure LineIndex where
  /-- The characters of the text. -/
  chars : List Char
  /-- The offset of the first character of each line, in increasing order. -/
  starts : Array Nat
deriving DecidableEq, Repr

namespace LineIndex

/-- The offsets that follow a line feed of `cs`, whose first character has the given offset. -/
def startsAfter (offset : Nat) : List Char → List Nat
  | [] => []
  | c :: cs =>
    if c = '\n' then (offset + 1) :: startsAfter (offset + 1) cs else startsAfter (offset + 1) cs

/-- The line index of a text: the first line starts at offset zero, every other one after a line
feed. -/
def ofText (s : String) : LineIndex :=
  ⟨s.toList, (0 :: startsAfter 0 s.toList).toArray⟩

/-- The number of lines; a final line feed starts one more, empty line. -/
def lineCount (ix : LineIndex) : Nat :=
  ix.starts.size

/-- The nearest offset that lies in the text or at its end. -/
def clamp (ix : LineIndex) (offset : Int) : Nat :=
  min offset.toNat ix.chars.length

/-- **The location of an offset**: its line and column, both from one. An offset outside the text
has the location of the nearest end. -/
def location (ix : LineIndex) (offset : Int) : Nat × Nat :=
  let o := ix.clamp offset
  let line := Search.upperBound ix.starts o
  (line, o - ix.starts[line - 1]?.getD 0 + 1)

/-- The text of a line, without its line feed; empty for a line that does not exist. -/
def lineText (ix : LineIndex) (line : Int) : String :=
  if line < 1 then "" else
    match ix.starts[line.toNat - 1]? with
    | none => ""
    | some start =>
      let stop := match ix.starts[line.toNat]? with
        | some next => next - 1
        | none => ix.chars.length
      String.ofList ((ix.chars.take stop).drop start)

end LineIndex

end KlarAudit

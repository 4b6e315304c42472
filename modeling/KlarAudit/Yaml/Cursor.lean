/-!
# Reading the characters of a document

A place in a document: the characters ahead, and the index, line and column of the first of them,
all from zero.

## Main definitions

* `Cursor`: a place in a document
* `Cursor.next`, `Cursor.skip`, `Cursor.span`: moving ahead
* `Cursor.lineBreak?`: the line break at a place
* `Cursor.atDocumentMark`: a line that divides documents
-/

namespace KlarAudit.Yaml

/-- The characters that end a line, alone. -/
def isBreak (c : Char) : Bool :=
  c == '\n' || c == '\r' || c == '\u0085' || c == '\u2028' || c == '\u2029'

/-- A blank, a tab, or the end of a line. -/
def isSpace (c : Char) : Bool :=
  c == ' ' || c == '\t' || isBreak c

/-- A character that may stand in a document. -/
def isAllowed (c : Char) : Bool :=
  let n := c.toNat
  n == 9 || n == 10 || n == 13 || (0x20 ≤ n && n ≤ 0x7e) || n == 0x85 ||
    (0xa0 ≤ n && n ≤ 0xd7ff) || (0xe000 ≤ n && n ≤ 0xfffd) || 0x10000 ≤ n

/-- **A place in a document.** -/
structure Cursor where
  /-- The characters ahead. -/
  rest : List Char
  /-- The number of characters before. -/
  index : Nat := 0
  /-- The number of line breaks before. -/
  line : Nat := 0
  /-- The number of characters before on the same line. -/
  column : Nat := 0
deriving Repr

namespace Cursor

/-- The place after the next character. A carriage return and a line feed are one line break, and a
byte order mark takes no column. -/
def next (c : Cursor) : Cursor :=
  match c.rest with
  | [] => c
  | ch :: cs =>
    if isBreak ch && !(ch == '\r' && cs.head? == some '\n') then ⟨cs, c.index + 1, c.line + 1, 0⟩
    else ⟨cs, c.index + 1, c.line, if ch == '\ufeff' then c.column else c.column + 1⟩

/-- The place after `n` more characters. -/
def skip (c : Cursor) : Nat → Cursor
  | 0 => c
  | n + 1 => c.next.skip n

/-- The characters ahead that satisfy `p`, and the place after them. -/
def span (p : Char → Bool) (c : Cursor) : List Char × Cursor :=
  let run := c.rest.takeWhile p
  (run, c.skip run.length)

/-- The place after the characters ahead that satisfy `p`. -/
def skipWhile (p : Char → Bool) (c : Cursor) : Cursor :=
  (c.span p).2

/-- The next character satisfies `p`. -/
def nextIs (p : Char → Bool) (c : Cursor) : Bool :=
  c.rest.head?.any p

/-- The character `n` ahead is a blank, a tab or a line break, or the document ends before it. -/
def spaceAt (n : Nat) (c : Cursor) : Bool :=
  (c.rest[n]?).all isSpace

/-- **The line break at a place**: what it stands for, and the place after it. -/
def lineBreak? (c : Cursor) : Option (Char × Cursor) :=
  match c.rest with
  | '\r' :: '\n' :: _ => some ('\n', c.skip 2)
  | ch :: _ =>
    if ch == '\u2028' || ch == '\u2029' then some (ch, c.next)
    else if isBreak ch then some ('\n', c.next)
    else none
  | [] => none

/-- The characters ahead are the given mark, alone on its line or before a blank. -/
def atMark (mark : String) (c : Cursor) : Bool :=
  mark.toList.isPrefixOf c.rest && c.spaceAt mark.length

/-- The characters ahead start or end a document, if they stand at the start of a line. -/
def atDocumentMark (c : Cursor) : Bool :=
  c.atMark "---" || c.atMark "..."

end Cursor

end KlarAudit.Yaml

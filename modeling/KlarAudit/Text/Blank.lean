/-!
# Blank characters

The characters that separate tokens and that are trimmed from the ends of a text: the blanks of
Unicode, including the information separators `U+001C`–`U+001F` and the next-line character.

## Main definitions

* `isBlank c`: `c` is a blank
* `dropBlanks`, `trimChars`, `trim`: a text without the blanks at its front, or at both ends
-/

namespace KlarAudit.Text

/-- **A blank character**: horizontal and vertical white space of any script, and the four
information separators. -/
def isBlank (c : Char) : Bool :=
  let n := c.toNat
  (9 ≤ n && n ≤ 13) || (0x1c ≤ n && n ≤ 0x20) || n == 0x85 || n == 0xa0 || n == 0x1680 ||
    (0x2000 ≤ n && n ≤ 0x200a) || n == 0x2028 || n == 0x2029 || n == 0x202f || n == 0x205f ||
    n == 0x3000

/-- The characters left when the blanks at the front are dropped. -/
def dropBlanks (cs : List Char) : List Char :=
  cs.dropWhile isBlank

/-- The characters left when the blanks at both ends are dropped. -/
def trimChars (cs : List Char) : List Char :=
  (dropBlanks (dropBlanks cs).reverse).reverse

/-- A text without the blanks at its ends. -/
def trim (s : String) : String :=
  String.ofList (trimChars s.toList)

end KlarAudit.Text

import KlarAudit.Text.Printable

/-!
# Quoted texts

A text in a message stands in quotes: single ones, unless it holds single quotes and no double ones.
The quote itself, backslashes and characters without a shape are escaped.

## Main definitions

* `quoted s`: the text `s` in quotes
* `quotedCodes codes`: code points in quotes
-/

namespace KlarAudit.Text

/-- A digit of base sixteen. -/
def hexDigit (n : Nat) : Char :=
  ("0123456789abcdef".toList[n % 16]?).getD '0'

/-- The last `width` digits of a number in base sixteen. -/
def hexDigits : (width : Nat) → Nat → List Char
  | 0, _ => []
  | width + 1, n => hexDigits width (n / 16) ++ [hexDigit n]

/-- The escape of a code point without a shape. -/
def codePointEscape (n : Nat) : List Char :=
  if n < 0x100 then '\\' :: 'x' :: hexDigits 2 n
  else if n < 0x10000 then '\\' :: 'u' :: hexDigits 4 n
  else '\\' :: 'U' :: hexDigits 8 n

/-- A character within the given quotes. -/
def quotedChar (quote : Char) (c : Char) : List Char :=
  if c = quote || c = '\\' then ['\\', c]
  else if c = '\n' then ['\\', 'n']
  else if c = '\r' then ['\\', 'r']
  else if c = '\t' then ['\\', 't']
  else if isPrintable c then [c]
  else codePointEscape c.toNat

/-- The quote for a text. -/
def quoteFor (cs : List Char) : Char :=
  if cs.contains '\'' && !cs.contains '"' then '"' else '\''

/-- **The text in quotes.** -/
def quoted (s : String) : String :=
  let q := quoteFor s.toList
  String.ofList (q :: s.toList.flatMap (quotedChar q) ++ [q])

/-- The character of a code point, if there is one. -/
def charOf? (n : Nat) : Option Char :=
  if n.isValidChar then some (Char.ofNat n) else none

/-- **Code points in quotes**; those that are no characters have no shape. -/
def quotedCodes (codes : List Nat) : String :=
  let q := quoteFor (codes.filterMap charOf?)
  let shown (n : Nat) : List Char := ((charOf? n).map (quotedChar q)).getD (codePointEscape n)
  String.ofList (q :: codes.flatMap shown ++ [q])

end KlarAudit.Text

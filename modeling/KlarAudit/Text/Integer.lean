import KlarAudit.Text.Blank
import KlarAudit.Text.Digit

/-!
# Whole numbers in settings

A whole number is written with decimal digits of any script, perhaps with a sign before them, single
underscores between them and blanks around. It has a bounded number of digits.

## Main definitions

* `digits?`: the values of the digits
* `integer?`: the whole number of a text
-/

namespace KlarAudit.Text

/-- The blanks that may stand around a number: all but the information separators. -/
def isNumberBlank (c : Char) : Bool :=
  isBlank c && !(0x1c ≤ c.toNat && c.toNat ≤ 0x1f)

/-- **The values of the digits**, where a single underscore may stand between two of them. -/
def digits? : List Char → Option (List Nat)
  | [] => none
  | [c] => (digitValue? c).map ([·])
  | c :: '_' :: cs => (digitValue? c).bind fun d => (digits? cs).map (d :: ·)
  | c :: c' :: cs => (digitValue? c).bind fun d => (digits? (c' :: cs)).map (d :: ·)

/-- The number with the given digits. -/
def ofDigits (ds : List Nat) : Nat :=
  ds.foldl (fun n d => 10 * n + d) 0

/-- The greatest number of digits that a number may have. -/
def maxDigits : Nat :=
  4300

/-- The number that the characters write, without a sign. -/
def natural? (cs : List Char) : Option Nat :=
  (digits? cs).bind fun ds => if ds.length ≤ maxDigits then some (ofDigits ds) else none

/-- **The whole number of a text**, `none` if it is no number. -/
def integer? (s : String) : Option Int :=
  let front := s.toList.dropWhile isNumberBlank
  match (front.reverse.dropWhile isNumberBlank).reverse with
  | '-' :: cs => (natural? cs).map fun n => -(n : Int)
  | '+' :: cs => (natural? cs).map fun n => (n : Int)
  | cs => (natural? cs).map fun n => (n : Int)

end KlarAudit.Text

/-!
# Binary fractions of 64 bits

The numbers that a ratio or a decimal is rounded to: a sign, a whole number of 53 bits and a power
of two, or an infinity, or no number at all. Rounding is to the nearest such number, and of two
equally near ones to the one with the even whole number. All arithmetic is on whole numbers, so that
every digit printed is exact.

## Main definitions

* `roundDiv num den`: the whole number nearest to a ratio
* `Binary64`: a binary fraction
* `Binary64.ofRatio`: the binary fraction nearest to a ratio
* `Binary64.ofDecimal`: the binary fraction nearest to a decimal
* `Binary64.div?`: the ratio of two whole numbers
* `Binary64.add`, `Binary64.mul`: sum and product
-/

namespace KlarAudit

/-- The power `2 ^ n`. -/
def twoPow (n : Nat) : Nat :=
  Nat.pow 2 n

/-- The power `10 ^ n`. -/
def tenPow (n : Nat) : Nat :=
  Nat.pow 10 n

/-- **The whole number nearest to a ratio**, of two equally near ones the even one. -/
def roundDiv (num den : Nat) : Nat :=
  let q := num / den
  let r := num % den
  if 2 * r < den then q
  else if den < 2 * r then q + 1
  else if q % 2 = 0 then q else q + 1

/-- **A binary fraction of 64 bits.** -/
inductive Binary64 where
  /-- The number `m · 2 ^ q`, with the opposite sign if `negative`. -/
  | finite (negative : Bool) (m : Nat) (q : Int)
  /-- Beyond all numbers. -/
  | infinite (negative : Bool)
  /-- Not a number. -/
  | nan
deriving DecidableEq, Repr, Inhabited

namespace Binary64

/-- The least power of two. -/
def minExponent : Int := -1074

/-- The greatest power of two. -/
def maxExponent : Int := 971

/-- A number of either sign that is zero. -/
def zero (negative : Bool) : Binary64 :=
  .finite negative 0 minExponent

/-- The ratio `num / den` over a power of two, as a ratio of whole numbers. -/
def scaled (num den : Nat) (q : Int) : Nat × Nat :=
  if 0 ≤ q then (num, den * twoPow q.toNat) else (num * twoPow (-q).toNat, den)

/-- The greatest power of two that is at most the ratio, which is positive. -/
def floorLog2 (num den : Nat) : Int :=
  let guess : Int := (Nat.log2 num : Int) - Nat.log2 den
  let (n, d) := scaled num den guess
  if d ≤ n then guess else guess - 1

/-- **The binary fraction nearest to a ratio** of whole numbers. -/
def ofRatio (negative : Bool) (num den : Nat) : Binary64 :=
  if num = 0 then zero negative
  else
    let q := max (floorLog2 num den - 52) minExponent
    let (n, d) := scaled num den q
    let m := roundDiv n d
    let (m, q) := if m = twoPow 53 then (twoPow 52, q + 1) else (m, q)
    if maxExponent < q then .infinite negative else .finite negative m q

/-- The binary fraction nearest to `digits · 10 ^ exponent`. A number beyond `10 ^ 400` is beyond
all numbers, and one below `2 / 10 ^ 400` is zero, whatever its digits are. -/
def ofDecimal (negative : Bool) (digits : Nat) (exponent : Int) : Binary64 :=
  if digits = 0 ∨ exponent + Nat.log2 digits < -400 then zero negative
  else if 400 < exponent then .infinite negative
  else if 0 ≤ exponent then ofRatio negative (digits * tenPow exponent.toNat) 1
  else ofRatio negative digits (tenPow (-exponent).toNat)

/-- **The ratio of two whole numbers**, `none` if it is beyond all numbers. The divisor is not
zero. -/
def div? (a b : Int) : Option Binary64 :=
  match ofRatio (decide (a < 0) != decide (b < 0)) a.natAbs b.natAbs with
  | .infinite _ => none
  | x => some x

/-- The binary fraction nearest to `m · 2 ^ q`. -/
def ofScaled (negative : Bool) (m : Nat) (q : Int) : Binary64 :=
  if 0 ≤ q then ofRatio negative (m * twoPow q.toNat) 1 else ofRatio negative m (twoPow (-q).toNat)

/-- The binary fraction nearest to a whole number. -/
def ofNat (n : Nat) : Binary64 :=
  ofRatio false n 1

/-- The number with the opposite sign. -/
def neg : Binary64 → Binary64
  | finite negative m q => finite (!negative) m q
  | infinite negative => infinite (!negative)
  | nan => nan

/-- **The binary fraction nearest to a sum.** A sum of opposites is zero, without a sign. -/
def add : Binary64 → Binary64 → Binary64
  | nan, _ | _, nan => nan
  | infinite s, infinite t => if s = t then infinite s else nan
  | infinite s, finite _ _ _ | finite _ _ _, infinite s => infinite s
  | finite s m q, finite t n r =>
    let least := min q r
    let whole (negative : Bool) (m : Nat) (q : Int) : Int :=
      let k : Int := m * twoPow (q - least).toNat
      if negative then -k else k
    let sum := whole s m q + whole t n r
    if sum = 0 then zero (s && t) else ofScaled (decide (sum < 0)) sum.natAbs least

/-- **The binary fraction nearest to a product.** -/
def mul : Binary64 → Binary64 → Binary64
  | nan, _ | _, nan => nan
  | infinite s, infinite t => infinite (s != t)
  | infinite s, finite t m _ | finite t m _, infinite s => if m = 0 then nan else infinite (s != t)
  | finite s m q, finite t n r => ofScaled (s != t) (m * n) (q + r)

/-- The number one. -/
def one : Binary64 :=
  ofNat 1

end Binary64

end KlarAudit

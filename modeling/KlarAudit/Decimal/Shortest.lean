import KlarAudit.Decimal.Binary64

/-!
# The shortest decimal of a binary fraction

A binary fraction is written with the fewest digits that read back as the same number; of several
such decimals, the one nearest to the number.

## Main definitions

* `Decimal`: significant digits and a power of ten
* `Decimal.shortest`: the shortest decimal of a binary fraction
-/

namespace KlarAudit

/-- **A decimal**: the digits of `digits`, the first of which counts `10 ^ exponent`. -/
structure Decimal where
  /-- The significant digits, as a whole number. -/
  digits : Nat
  /-- The power of ten of the first digit. -/
  exponent : Int
deriving DecidableEq, Repr, Inhabited

namespace Decimal

/-- The number of digits of a whole number, none for zero. -/
def digitCount (n : Nat) : Nat :=
  if n = 0 then 0 else (Nat.toDigits 10 n).length

/-- The greatest power of ten that is at most the ratio, which is positive. -/
def floorLog10 (num den : Nat) : Int :=
  if den ≤ num then (digitCount (num / den) : Int) - 1
  else -(digitCount ((den + num - 1) / num - 1) : Int)

/-- The ratio over a power of ten, as a ratio of whole numbers. -/
def scaled (num den : Nat) (s : Int) : Nat × Nat :=
  if 0 ≤ s then (num, den * tenPow s.toNat) else (num * tenPow (-s).toNat, den)

/-- **The decimals that read back** as `m · 2 ^ q`: all quantities are in quarters of `2 ^ q`, and a
decimal `c` over `num / den` quarters reads back if it is closer to `m` than to its neighbours, or
as close when `m` is even. The step below a power of two is half as wide. -/
def readsBack (m : Nat) (q : Int) (c den : Nat) : Bool :=
  let below := if m = twoPow 52 && Binary64.minExponent < q then 1 else 2
  let lo := (4 * m - below) * den
  let hi := (4 * m + 2) * den
  if m % 2 = 0 then lo ≤ 4 * c && 4 * c ≤ hi else lo < 4 * c && 4 * c < hi

/-- The decimal of `n` digits nearest to `m · 2 ^ q`, if one reads back; `k` is the power of ten of
the number. -/
def candidate? (m : Nat) (q : Int) (k : Int) (n : Nat) : Option Decimal :=
  let s := k - n + 1
  -- The number in units of `10 ^ s` is `m * up / down`.
  let up := (if 0 ≤ q then twoPow q.toNat else 1) * (if s < 0 then tenPow (-s).toNat else 1)
  let down := (if q < 0 then twoPow (-q).toNat else 1) * (if 0 ≤ s then tenPow s.toNat else 1)
  let nearest := roundDiv (m * up) down
  let floor := m * up / down
  let try' (c : Nat) : Option Decimal :=
    if readsBack m q (c * down) up then
      some ⟨c, if digitCount c > n then k + 1 else k⟩
    else none
  (try' nearest).or (try' (if nearest = floor then floor + 1 else floor))

/-- The decimal without zeros at its end. -/
def trimZeros (fuel : Nat) (n : Nat) : Nat :=
  match fuel with
  | 0 => n
  | fuel + 1 => if n % 10 = 0 then trimZeros fuel (n / 10) else n

/-- **The shortest decimal** of `m · 2 ^ q`, where `m` is not zero. Seventeen digits always
suffice. -/
def shortest (m : Nat) (q : Int) : Decimal :=
  let num := if 0 ≤ q then m * twoPow q.toNat else m
  let den := if 0 ≤ q then 1 else twoPow (-q).toNat
  let k := floorLog10 num den
  let found := ((List.range 17).map (· + 1)).findSome? (candidate? m q k)
  match found with
  | some d => ⟨trimZeros 17 d.digits, d.exponent⟩
  | none => ⟨m, k⟩

end Decimal

end KlarAudit

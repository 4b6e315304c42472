import KlarAudit.Decimal.Shortest

/-!
# How numbers are written

## Main definitions

* `NumberLayout`: where positional notation ends
* `Binary64.render`: the shortest decimal of a number, as text
* `Binary64.fixed`, `Binary64.percent`: a number with a fixed number of places, and as a percentage
-/

namespace KlarAudit

/-- **The layout of numbers**: the powers of ten that are written out, and the least number of
digits of an exponent. -/
structure NumberLayout where
  /-- The least power of ten of a number written positionally. -/
  least : Int
  /-- The first power of ten of a number that is not. -/
  bound : Int
  /-- The least number of digits of an exponent. -/
  exponentDigits : Nat
deriving DecidableEq, Repr

/-- Numbers from `0.0001` to below `10 ^ 16` are written out; others get an exponent of two digits
or more. -/
def numberLayout : NumberLayout :=
  ⟨-4, 16, 2⟩

/-- The digits of a whole number. -/
def digitChars (n : Nat) : List Char :=
  Nat.toDigits 10 n

/-- The characters with zeros in front, so that there are at least `width` of them. -/
def padZeros (width : Nat) (cs : List Char) : List Char :=
  List.replicate (width - cs.length) '0' ++ cs

/-- The decimal written out: at least one digit on either side of the point. -/
def Decimal.positional (d : Decimal) : List Char :=
  let ds := digitChars d.digits
  if d.exponent < 0 then '0' :: '.' :: List.replicate ((-d.exponent).toNat - 1) '0' ++ ds
  else
    let whole := d.exponent.toNat + 1
    let places := ds.drop whole
    ds.take whole ++ List.replicate (whole - ds.length) '0' ++ '.' ::
      (if places.isEmpty then ['0'] else places)

/-- The decimal with an exponent: one digit before the point, which is left out when nothing
follows. -/
def Decimal.scientific (layout : NumberLayout) (d : Decimal) : List Char :=
  let ds := digitChars d.digits
  let places := ds.drop 1
  let exponent := padZeros layout.exponentDigits (digitChars d.exponent.natAbs)
  ds.take 1 ++ (if places.isEmpty then [] else '.' :: places) ++ 'e' ::
    (if d.exponent < 0 then '-' else '+') :: exponent

/-- The decimal in the layout. -/
def Decimal.render (layout : NumberLayout) (d : Decimal) : List Char :=
  if layout.least ≤ d.exponent && d.exponent < layout.bound then d.positional
  else d.scientific layout

/-- The sign of a number, if it is negative. -/
def signChars (negative : Bool) : List Char :=
  if negative then ['-'] else []

namespace Binary64

/-- **The number as text**, with the fewest digits that read back. -/
def render (x : Binary64) : String :=
  String.ofList <|
    match x with
    | .nan => "nan".toList
    | .infinite negative => signChars negative ++ "inf".toList
    | .finite negative m q =>
      signChars negative ++
        (if m = 0 then "0.0".toList else (Decimal.shortest m q).render numberLayout)

/-- The number with the given number of places, at least one; a half goes to the even neighbour. -/
def fixed (places : Nat) (x : Binary64) : String :=
  String.ofList <|
    match x with
    | .nan => "nan".toList
    | .infinite negative => signChars negative ++ "inf".toList
    | .finite negative m q =>
      let num := m * tenPow places * (if 0 ≤ q then twoPow q.toNat else 1)
      let den := if 0 ≤ q then 1 else twoPow (-q).toNat
      let ds := padZeros (places + 1) (digitChars (roundDiv num den))
      let whole := ds.length - places
      signChars negative ++ ds.take whole ++ '.' :: ds.drop whole

/-- **The number as a percentage** with one place. -/
def percent (x : Binary64) : String :=
  (x.mul (ofNat 100)).fixed 1 ++ "%"

end Binary64

end KlarAudit

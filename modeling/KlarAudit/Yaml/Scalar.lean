import KlarAudit.Settings.Value
import KlarAudit.Yaml.Directive

/-!
# The values of scalars

A plain scalar is nothing, a truth value or a number if it looks like one, and else a text; a scalar
in quotes is always a text. Whole numbers may be written in base two, eight, ten, sixteen or sixty,
and underscores between digits do not count. A number with a point is a binary fraction.

## Main definitions

* `intOf?`, `floatOf?`: the number that a plain scalar stands for
* `scalarValue`: the value of a scalar
-/

namespace KlarAudit.Yaml

/-- The ways to write nothing. -/
def nullWords : List String :=
  ["", "~", "null", "Null", "NULL"]

/-- The ways to write true. -/
def trueWords : List String :=
  ["yes", "Yes", "YES", "true", "True", "TRUE", "on", "On", "ON"]

/-- The ways to write false. -/
def falseWords : List String :=
  ["no", "No", "NO", "false", "False", "FALSE", "off", "Off", "OFF"]

/-- The sign in front of a number, and what follows it. -/
def splitSign : List Char → Bool × List Char
  | '-' :: cs => (true, cs)
  | '+' :: cs => (false, cs)
  | cs => (false, cs)

/-- The number of the digits in the base; underscores do not count. -/
def digitsValue (base : Nat) (cs : List Char) : Nat :=
  (cs.filterMap hexValue?).foldl (fun n d => base * n + d) 0

/-- Some characters, all of which satisfy `p` or are underscores. -/
def isRun (p : Char → Bool) (cs : List Char) : Bool :=
  !cs.isEmpty && cs.all fun c => p c || c == '_'

/-- The parts between colons. -/
def splitColons : List Char → List (List Char)
  | [] => [[]]
  | ':' :: cs => [] :: splitColons cs
  | c :: cs =>
    match splitColons cs with
    | [] => [[c]]
    | part :: parts => (c :: part) :: parts

/-- A part of a number in base sixty after the first: one digit, or two below sixty. -/
def isSixtieth : List Char → Bool
  | [a] => isDecimal a
  | [a, b] => '0' ≤ a && a ≤ '5' && isDecimal b
  | _ => false

/-- A decimal number that does not start with zero. -/
def isPlainDecimal (cs : List Char) : Bool :=
  cs.head?.any (fun c => '1' ≤ c && c ≤ '9') && isRun isDecimal cs

/-- The digits without underscores. -/
def digitsOnly (cs : List Char) : List Char :=
  cs.filter (· != '_')

/-- The whole number of the digits in the base; there must be a digit. -/
def basedNumber (base : Nat) (cs : List Char) : Except Fault Nat :=
  if (digitsOnly cs).isEmpty then .error (.noDigits base) else .ok (digitsValue base cs)

/-- The whole number of decimal digits, of which there must not be too many. -/
def decimalNumber (cs : List Char) : Except Fault Nat :=
  let count := (digitsOnly cs).length
  if Text.maxDigits < count then .error (.tooManyDigits count) else .ok (digitsValue 10 cs)

/-- The whole number that the digits write, without a sign. -/
def natOf? (cs : List Char) : Option (Except Fault Nat) :=
  match cs with
  | ['0'] => some (.ok 0)
  | '0' :: 'b' :: ds =>
    if isRun (fun c => c == '0' || c == '1') ds then some (basedNumber 2 ds) else none
  | '0' :: 'x' :: ds => if isRun (hexValue? · |>.isSome) ds then some (basedNumber 16 ds) else none
  | '0' :: ds =>
    if isRun (fun c => '0' ≤ c && c ≤ '7') ds then some (.ok (digitsValue 8 ds)) else none
  | cs =>
    if isPlainDecimal cs then some (decimalNumber cs)
    else
      match splitColons cs with
      | first :: part :: parts =>
        if isPlainDecimal first && (part :: parts).all isSixtieth then
          some ((decimalNumber first).map fun n =>
            (part :: parts).foldl (fun n p => 60 * n + digitsValue 10 p) n)
        else none
      | _ => none

/-- **The whole number that a plain scalar stands for.** -/
def intOf? (text : String) : Option (Except Fault Int) :=
  let (negative, cs) := splitSign text.toList
  (natOf? cs).map (·.map fun n => if negative then -(n : Int) else n)

/-- An exponent: its letter, a sign and digits. -/
def exponentOf? : List Char → Option Int
  | [] => some 0
  | e :: sign :: ds =>
    if (e == 'e' || e == 'E') && (sign == '+' || sign == '-') && !ds.isEmpty &&
        ds.all isDecimal then
      some (if sign == '-' then -(digitsValue 10 ds : Int) else digitsValue 10 ds)
    else none
  | _ => none

/-- The number with the given digits before and after the point. -/
def pointNumber (negative : Bool) (whole places : List Char) (exponent : Int) : Binary64 :=
  let places := places.filter isDecimal
  .ofDecimal negative (digitsValue 10 (whole ++ places)) (exponent - places.length)

/-- The sum of parts, the last one first, each times its power of sixty, where `power` is that of
the first of them. Every step is rounded. -/
def sixtySum (sum : Binary64) (power : Nat) : List Binary64 → Except Fault Binary64
  | [] => .ok sum
  | part :: parts =>
    match Binary64.ofNat power with
    | .infinite _ => .error .tooManyParts
    | factor => sixtySum (sum.add (part.mul factor)) (60 * power) parts

/-- A fraction of base sixty: parts divided by colons, with a point in the last one. -/
def sixtyFraction? (negative : Bool) (whole places : List Char) :
    Option (Except Fault Binary64) :=
  match splitColons whole with
  | first :: part :: parts =>
    if first.head?.any isDecimal && isRun isDecimal first && (part :: parts).all isSixtieth &&
        places.all (fun c => isDecimal c || c == '_') then
      match (first :: part :: parts).reverse with
      | last :: others =>
        let numbers := pointNumber false last places 0 :: others.map (pointNumber false · [] 0)
        some ((sixtySum (.zero false) 1 numbers).map fun x => if negative then x.neg else x)
      | [] => none
    else none
  | _ => none

/-- **The binary fraction that a plain scalar stands for**: digits with a point and perhaps an
exponent with a sign, or the words for infinity and for no number. A number that starts with its
point has no sign. -/
def floatOf? (text : String) : Option (Except Fault Binary64) :=
  let (negative, cs) := splitSign text.toList
  let whole := cs.takeWhile (· != '.')
  match cs.drop whole.length with
  | _ :: rest =>
    let places := rest.takeWhile fun c => isDecimal c || c == '_'
    let exponent? := exponentOf? (rest.drop places.length)
    if whole.isEmpty then
      if [".inf", ".Inf", ".INF"].contains (String.ofList cs) then some (.ok (.infinite negative))
      else if [".nan", ".NaN", ".NAN"].contains text then some (.ok .nan)
      else if cs.length = text.length && places.head?.any isDecimal then
        exponent?.map fun e => .ok (pointNumber false [] places e)
      else none
    else if whole.head?.any isDecimal && isRun isDecimal whole then
      exponent?.map fun e => .ok (pointNumber negative whole places e)
    else if rest.length = places.length then sixtyFraction? negative whole places
    else none
  | [] => none

/-- **The value of a scalar.** Two plain scalars have a meaning in documents that plain values do
not have. -/
def scalarValue (text : String) (plain : Bool) : Except Fault Value :=
  if !plain then .ok (.text text)
  else if trueWords.contains text then .ok (.bool true)
  else if falseWords.contains text then .ok (.bool false)
  else if nullWords.contains text then .ok .null
  else if text == "<<" || text == "=" then .error .malformed
  else
    match floatOf? text, intOf? text with
    | some x, _ => x.map .float
    | none, some i => i.map .int
    | none, none => .ok (.text text)

end KlarAudit.Yaml

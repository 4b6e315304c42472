import KlarAudit.Decimal.Layout
import KlarAudit.Text.Affix
import KlarAudit.Text.Integer
import KlarAudit.Text.Quoted

/-!
# Plain values

What a configuration file holds before it is given a meaning: nothing, truth values, numbers, texts,
lists and mappings. A mapping keeps the order in which its keys were first given.

## Main definitions

* `Value`: a plain value
* `Value.literal`, `Value.display`: a value in a message, and as a text of its own
* `Value.isWritable`: a value is not too long for a message
* `Value.sameKey`: two values are one key
* `Value.put`: a mapping with one more entry
-/

namespace KlarAudit

/-- **A plain value.** -/
inductive Value where
  /-- Nothing. -/
  | null
  /-- A truth value. -/
  | bool (b : Bool)
  /-- A whole number. -/
  | int (i : Int)
  /-- A binary fraction. -/
  | float (x : Binary64)
  /-- A text. -/
  | text (s : String)
  /-- A text with code points that are no characters. -/
  | ragged (codes : List Nat)
  /-- Values in order. -/
  | list (xs : List Value)
  /-- Values by key, in the order of the keys. -/
  | mapping (entries : List (Value × Value))
deriving Repr, Inhabited

namespace Value

mutual

/-- **The value in a message**: texts are quoted. -/
def literal : Value → String
  | null => "None"
  | bool b => if b then "True" else "False"
  | int i => toString i
  | float x => x.render
  | text s => Text.quoted s
  | ragged codes => Text.quotedCodes codes
  | list xs => "[" ++ Text.joinWith ", " (literals xs) ++ "]"
  | mapping entries => "\x7b" ++ Text.joinWith ", " (entryLiterals entries) ++ "\x7d"

/-- The values of a list in a message. -/
def literals : List Value → List String
  | [] => []
  | x :: xs => x.literal :: literals xs

/-- The entries of a mapping in a message. -/
def entryLiterals : List (Value × Value) → List String
  | [] => []
  | (k, v) :: entries => (k.literal ++ ": " ++ v.literal) :: entryLiterals entries

end

/-- The value as a text of its own: a text is itself. Code points that are no characters are replaced
by the character for such. -/
def display : Value → String
  | text s => s
  | ragged codes => String.ofList (codes.map fun n => (Text.charOf? n).getD '\ufffd')
  | v => v.literal

/-- Whole numbers below this bound can be written. -/
def writableBound : Nat :=
  tenPow Text.maxDigits

mutual

/-- **The value can be written**: no whole number in it has too many digits. -/
def isWritable : Value → Bool
  | int i => decide (i.natAbs < writableBound)
  | list xs => areWritable xs
  | mapping entries => areEntriesWritable entries
  | _ => true

/-- The values of a list can be written. -/
def areWritable : List Value → Bool
  | [] => true
  | x :: xs => x.isWritable && areWritable xs

/-- The entries of a mapping can be written. -/
def areEntriesWritable : List (Value × Value) → Bool
  | [] => true
  | (k, v) :: entries => k.isWritable && v.isWritable && areEntriesWritable entries

end

/-- The value is a number or a truth value, which counts as zero or one: the number as
`m · 2 ^ q`. -/
def number? : Value → Option (Int × Int)
  | bool b => some (if b then 1 else 0, 0)
  | int i => some (i, 0)
  | float (.finite negative m q) => some (if negative then -m else m, q)
  | _ => none

/-- Two numbers of the form `m · 2 ^ q` are equal. -/
def sameNumber (a b : Int × Int) : Bool :=
  if a.2 ≤ b.2 then a.1 == b.1 * twoPow (b.2 - a.2).toNat else a.1 * twoPow (a.2 - b.2).toNat == b.1

/-- **Two values are one key**: they are equal, where numbers are compared as numbers. What is not a
number is one key. -/
def sameKey (a b : Value) : Bool :=
  match a, b with
  | null, null => true
  | text s, text t => s == t
  | ragged s, ragged t => s == t
  | float .nan, float .nan => true
  | float (.infinite s), float (.infinite t) => s == t
  | a, b =>
    match a.number?, b.number? with
    | some x, some y => sameNumber x y
    | _, _ => false

/-- **A mapping with one more entry.** A key that is there already keeps its place and gets the new
value. -/
def put (k v : Value) : List (Value × Value) → List (Value × Value)
  | [] => [(k, v)]
  | (k', v') :: entries =>
    if sameKey k' k then (k', v) :: entries else (k', v') :: put k v entries

/-- The value of a text key. -/
def get? (key : String) (entries : List (Value × Value)) : Option Value :=
  (entries.find? fun (k, _) => sameKey k (text key)).map (·.2)

end Value

end KlarAudit

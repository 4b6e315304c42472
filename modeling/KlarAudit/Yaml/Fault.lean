/-!
# What may be wrong with a document

## Main definitions

* `Fault`: why a document has no value
* `Fault.message`: the wording of a fault
* `wellFormed`: a reading that fails only on malformed documents
-/

namespace KlarAudit.Yaml

/-- **Why a document has no value.** -/
inductive Fault where
  /-- It is malformed. -/
  | malformed
  /-- An escape stands for no code point, but for the given number. -/
  | noCodePoint (value : Nat)
  /-- A number in the given base has no digits. -/
  | noDigits (base : Nat)
  /-- A decimal number has too many digits: the given number of them. -/
  | tooManyDigits (count : Nat)
  /-- The first part of a fraction of base sixty stands for too great a power of sixty. -/
  | tooManyParts
deriving DecidableEq, Repr, Inhabited

/-- The wording of a fault. -/
def Fault.message : Fault → String
  | malformed => "The document is malformed."
  | noCodePoint value => "The escape of " ++ toString value ++ " stands for no code point."
  | noDigits base => "A number in base " ++ toString base ++ " has no digits."
  | tooManyDigits count => "A number has " ++ toString count ++ " digits, which are too many."
  | tooManyParts => "A number of base sixty has too many parts."

/-- What fails only on malformed documents. -/
def wellFormed {α : Type} : Option α → Except Fault α
  | some a => .ok a
  | none => .error .malformed

end KlarAudit.Yaml

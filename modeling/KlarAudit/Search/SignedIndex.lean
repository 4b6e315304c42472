/-!
# Signed indices

An index that may count from either end: `0` is the first member of a list and `-1` the last.

## Main definitions

* `signedIndex? n i`: the index meant by `i` in a list of `n` members
* `getSigned? xs i`: the member meant by `i`
* `signedSlice xs lo hi`: the members from `lo` up to, not including, `hi`
-/

namespace KlarAudit.Search

variable {α : Type _}

/-- The index meant by `i` among `n` members: a negative one counts from the end. -/
def signedIndex? (n : Nat) (i : Int) : Option Nat :=
  let j := if i < 0 then i + n else i
  if 0 ≤ j ∧ j < n then some j.toNat else none

/-- The member meant by a signed index, if there is one. -/
def getSigned? (xs : List α) (i : Int) : Option α :=
  (signedIndex? xs.length i).bind (xs[·]?)

/-- The cut meant by `i` among `n` members: a negative one counts from the end, and one outside the
list is the nearest end. -/
def signedCut (n : Nat) (i : Int) : Nat :=
  min (if i < 0 then i + n else i).toNat n

/-- **A slice**: the members from the cut `lo` to the cut `hi`; a missing cut is the end of the list
on its side. -/
def signedSlice (xs : List α) (lo hi : Option Int) : List α :=
  let first := (lo.map (signedCut xs.length)).getD 0
  let last := (hi.map (signedCut xs.length)).getD xs.length
  (xs.take last).drop first

end KlarAudit.Search

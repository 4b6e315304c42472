/-!
# Partition points by bisection

A sequence whose members satisfy a test up to some index and fail it from there on has one
partition point. Bisection finds it in logarithmically many steps.

## Main definitions

* `partitionPoint p xs`: where the members of `xs` stop satisfying `p`
* `lowerBound xs x`, `upperBound xs x`: the partition points of `· < x` and `· ≤ x`

## Main results

* `partitionPoint_eq`: bisection finds the index at which a sequence is partitioned
* `filter_append_filter_not`: a sequence that is partitioned falls into two parts
-/

namespace KlarAudit.Search

variable {α : Type _}

/-- Bisection between `lo` and `hi`: every member before `lo` satisfies `p` and none from `hi`
on. -/
def bisect (p : α → Bool) (xs : Array α) (lo hi : Nat) : Nat :=
  if lo < hi then
    let mid := lo + (hi - lo) / 2
    if xs[mid]?.any p then bisect p xs (mid + 1) hi else bisect p xs lo mid
  else lo
termination_by hi - lo

/-- **The partition point**: the first index whose member fails `p`, when all later members fail it
too. -/
def partitionPoint (p : α → Bool) (xs : Array α) : Nat :=
  bisect p xs 0 xs.size

/-- The number of members less than `x`, when `xs` increases. -/
def lowerBound (xs : Array Nat) (x : Int) : Nat :=
  partitionPoint (fun n : Nat => decide ((n : Int) < x)) xs

/-- The number of members at most `x`, when `xs` increases. -/
def upperBound (xs : Array Nat) (x : Int) : Nat :=
  partitionPoint (fun n : Nat => decide ((n : Int) ≤ x)) xs

/-- The members that satisfy `p` are those before the index `k`. -/
def PartitionedAt (p : α → Bool) (xs : Array α) (k : Nat) : Prop :=
  k ≤ xs.size ∧ ∀ i (h : i < xs.size), p xs[i] = decide (i < k)

theorem bisect_eq {p : α → Bool} {xs : Array α} {k : Nat} (hk : PartitionedAt p xs k)
    (lo hi : Nat) (hlo : lo ≤ k) (hhi : k ≤ hi) (hs : hi ≤ xs.size) :
    bisect p xs lo hi = k := by
  fun_induction bisect p xs lo hi with
  | case1 lo hi h mid ht ih =>
    have hm : mid < xs.size := by omega
    rw [Array.getElem?_eq_getElem hm, Option.any_some, hk.2 mid hm, decide_eq_true_eq] at ht
    exact ih (by omega) hhi hs
  | case2 lo hi h mid ht ih =>
    have hm : mid < xs.size := by omega
    rw [Array.getElem?_eq_getElem hm, Option.any_some, hk.2 mid hm, decide_eq_true_eq] at ht
    exact ih hlo (by omega) (by omega)
  | case3 lo hi h => omega

/-- Bisection finds the index at which the sequence is partitioned. -/
theorem partitionPoint_eq {p : α → Bool} {xs : Array α} {k : Nat} (hk : PartitionedAt p xs k) :
    partitionPoint p xs = k :=
  bisect_eq hk 0 xs.size (Nat.zero_le k) hk.1 (Nat.le_refl _)

/-- A list whose members that satisfy a test all stand in front. -/
theorem filter_append_filter_not {p : α → Bool} {xs : List α}
    (h : xs.Pairwise fun x y => p y → p x) : xs.filter p ++ xs.filter (fun x => !p x) = xs := by
  induction xs with
  | nil => rfl
  | cons x xs ih =>
    obtain ⟨hx, hxs⟩ := List.pairwise_cons.mp h
    cases hp : p x with
    | true => simp [hp, ih hxs]
    | false =>
      -- behind a member that fails the test there is none that satisfies it
      have hnone (y : α) (hy : y ∈ xs) : p y = false :=
        Bool.eq_false_iff.mpr fun hpy => by simp [hx y hy hpy] at hp
      have hall : xs.filter (fun y => !p y) = xs :=
        List.filter_eq_self.mpr fun y hy => by simp [hnone y hy]
      have hnil : xs.filter p = [] := List.filter_eq_nil_iff.mpr fun y hy => by simp [hnone y hy]
      simp [hp, hnil, hall]

end KlarAudit.Search

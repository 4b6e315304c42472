import KlarAudit.Report.Finding
import KlarAudit.Text.Affix
import Mathlib.Data.List.Perm.Basic

/-!
# Sorting keeps the order of ties

The order of findings leaves out their severity and their fix, so two findings may be on a par
without being equal, and only the stability of sorting tells which comes first. A sorted list is
therefore determined by its classes of tied members, each in its order, and so is the outcome of
sorting. What is done within the classes, such as leaving members out, may be done before sorting or
after it.

## Main definitions

* `Tied le a b`: each of `a` and `b` may stand before the other

## Main results

* `filter_tied_mergeSort`: sorting keeps the order of a class of ties
* `mergeSort_eq_of_filter_tied`: two lists with the same classes of ties have the same sorted list
* `filter_mergeSort`: sorting commutes with leaving members out
* `Text.pairwise_lt_sortedSet`: texts in order, each once
* `Finding.eq_of_tied`: tied findings are on the same place of the same file, by the same rule
-/

namespace KlarAudit

/-- **Two members are tied**: each may stand before the other. -/
def Tied {α : Type _} (le : α → α → Bool) (a b : α) : Bool :=
  le a b && le b a

section

variable {α : Type _} {le : α → α → Bool}

theorem tied_iff {a b : α} : Tied le a b = true ↔ le a b = true ∧ le b a = true := by
  rw [Tied, Bool.and_eq_true]

variable (trans : ∀ a b c : α, le a b = true → le b c = true → le a c = true)
  (total : ∀ a b : α, (le a b || le b a) = true)

include total in
/-- Every member is tied with itself. -/
theorem tied_self (a : α) : Tied le a a = true := by
  have := total a a
  rw [Bool.or_self] at this
  exact tied_iff.mpr ⟨this, this⟩

include trans in
/-- The members of a class of ties may stand in any order. -/
theorem pairwise_filter_tied (a : α) (xs : List α) :
    (xs.filter (Tied le a)).Pairwise fun b c => le b c = true := by
  refine List.pairwise_of_forall_mem_list fun b hb c hc => ?_
  have hb := tied_iff.mp (List.mem_filter.mp hb).2
  have hc := tied_iff.mp (List.mem_filter.mp hc).2
  exact trans b a c hb.2 hc.1

include trans total in
/-- **Sorting keeps the order of a class of ties.** -/
theorem filter_tied_mergeSort (a : α) (xs : List α) :
    (xs.mergeSort le).filter (Tied le a) = xs.filter (Tied le a) := by
  -- The class is a sorted sublist, so it stays one; and it is all that the sorted list has of it.
  have hsub : (xs.filter (Tied le a)).Sublist (xs.mergeSort le) :=
    List.sublist_mergeSort trans total (pairwise_filter_tied trans a xs) List.filter_sublist
  have hperm := (List.mergeSort_perm xs le).filter (Tied le a)
  have hsub := hsub.filter (Tied le a)
  rw [List.filter_filter, List.filter_congr (q := Tied le a) fun _ _ => Bool.and_self _] at hsub
  exact (hsub.eq_of_length hperm.length_eq.symm).symm

include total in
/-- A sorted list is determined by its classes of ties. -/
theorem eq_of_filter_tied {xs ys : List α} (hx : xs.Pairwise fun a b => le a b = true)
    (hy : ys.Pairwise fun a b => le a b = true)
    (h : ∀ a, xs.filter (Tied le a) = ys.filter (Tied le a)) : xs = ys := by
  have mem_iff (a : α) : a ∈ xs ↔ a ∈ ys := by
    have := congrArg (a ∈ ·) (h a)
    simpa only [List.mem_filter, tied_self total, and_true, eq_iff_iff] using this
  -- Induction on one list, and the heads of both are the same.
  induction xs generalizing ys with
  | nil =>
    cases ys with
    | nil => rfl
    | cons b ys => exact absurd ((mem_iff b).mpr List.mem_cons_self) List.not_mem_nil
  | cons a xs ih =>
    cases ys with
    | nil => exact absurd ((mem_iff a).mp List.mem_cons_self) List.not_mem_nil
    | cons b ys =>
      obtain ⟨hax, hxs⟩ := List.pairwise_cons.mp hx
      obtain ⟨hby, hys⟩ := List.pairwise_cons.mp hy
      -- Both heads come first in their common class of ties.
      have hrefl (c : α) : le c c = true := (tied_iff.mp (tied_self total c)).1
      have hab : le a b = true := by
        rcases List.mem_cons.mp ((mem_iff b).mpr List.mem_cons_self) with rfl | hb
        · exact hrefl b
        · exact hax b hb
      have hba : le b a = true := by
        rcases List.mem_cons.mp ((mem_iff a).mp List.mem_cons_self) with rfl | ha
        · exact hrefl a
        · exact hby a ha
      have hheads := h a
      rw [List.filter_cons_of_pos (tied_self total a),
        List.filter_cons_of_pos (tied_iff.mpr ⟨hab, hba⟩)] at hheads
      obtain ⟨rfl, -⟩ := List.cons.inj hheads
      have htails (c : α) : xs.filter (Tied le c) = ys.filter (Tied le c) := by
        have hc := h c
        by_cases hca : Tied le c a = true
        · rw [List.filter_cons_of_pos hca, List.filter_cons_of_pos hca] at hc
          exact (List.cons.inj hc).2
        · rwa [List.filter_cons_of_neg hca, List.filter_cons_of_neg hca] at hc
      refine congrArg (a :: ·) (ih hxs hys htails fun c => ?_)
      have := congrArg (c ∈ ·) (htails c)
      simpa only [List.mem_filter, tied_self total, and_true, eq_iff_iff] using this

include trans total in
/-- **Lists with the same classes of ties** have the same sorted list. -/
theorem mergeSort_eq_of_filter_tied {xs ys : List α}
    (h : ∀ a, xs.filter (Tied le a) = ys.filter (Tied le a)) :
    xs.mergeSort le = ys.mergeSort le := by
  refine eq_of_filter_tied total (List.pairwise_mergeSort trans total xs)
    (List.pairwise_mergeSort trans total ys) fun a => ?_
  rw [filter_tied_mergeSort trans total, filter_tied_mergeSort trans total, h a]

include trans total in
/-- **Sorting commutes with leaving members out.** -/
theorem filter_mergeSort (p : α → Bool) (xs : List α) :
    (xs.mergeSort le).filter p = (xs.filter p).mergeSort le := by
  refine eq_of_filter_tied total ((List.pairwise_mergeSort trans total xs).filter p)
    (List.pairwise_mergeSort trans total _) fun a => ?_
  rw [List.filter_comm, filter_tied_mergeSort trans total, List.filter_comm,
    filter_tied_mergeSort trans total]

end

/-- Each member is listed once when repetitions are left out. -/
theorem nodup_eraseDups {κ : Type} [BEq κ] [LawfulBEq κ] (ks : List κ) : ks.eraseDups.Nodup :=
  match ks with
  | [] => List.nodup_nil
  | k :: ks => by
    rw [List.eraseDups_cons, List.nodup_cons]
    constructor
    · rw [List.mem_eraseDups]
      simp
    · exact nodup_eraseDups _
termination_by ks.length
decreasing_by exact Nat.lt_succ_of_le (List.length_filter_le _ _)

theorem Text.nodup_sortedSet (ss : List String) : (sortedSet ss).Nodup :=
  (List.mergeSort_perm _ _).nodup_iff.mpr (nodup_eraseDups ss)

/-- **Texts in order, each once.** -/
theorem Text.pairwise_lt_sortedSet (ss : List String) : (sortedSet ss).Pairwise (· < ·) := by
  have trans (a b c : String) : (compare a b).isLE → (compare b c).isLE → (compare a c).isLE :=
    Std.TransCmp.isLE_trans
  have total (a b : String) : ((compare a b).isLE || (compare b a).isLE) = true := by
    rw [@Std.OrientedCmp.eq_swap _ compare _ b a]
    cases compare a b <;> rfl
  have hnodup := nodup_sortedSet ss
  refine (List.pairwise_mergeSort trans total _).imp₂ (fun a b hle hne => ?_) hnodup
  cases hcompare : compare a b with
  | lt => exact compareOfLessAndEq_eq_lt.mp hcompare
  | eq => exact absurd (Std.LawfulEqCmp.eq_of_compare hcompare) hne
  | gt =>
    rw [hcompare] at hle
    cases hle

/-- **Tied findings** are on the same place of the same file, by the same rule. -/
theorem Finding.eq_of_tied {f g : Finding} (h : Tied Finding.le f g = true) :
    f.file = g.file ∧ f.line = g.line ∧ f.column = g.column ∧ f.rule = g.rule ∧
      f.message = g.message := by
  obtain ⟨hfg, hgf⟩ := tied_iff.mp h
  have heq : order f g = .eq := Std.OrientedCmp.isLE_antisymm hfg hgf
  simpa [order, compareLex, compareOn, Ordering.then_eq_eq, Std.compare_eq_iff_eq] using heq

end KlarAudit

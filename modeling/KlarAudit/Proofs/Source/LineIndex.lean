import KlarAudit.Source.LineIndex
import Mathlib.Data.List.Induction

/-!
# The line index finds positions

Reading a text character by character keeps count of the line and the column. The line index of the
text gives the same answer for any offset without reading: the lines that start at or before the
offset are those that reading has seen, and the last of them is the one it stands on.

## Main results

* `partitionedAt_append`: a sequence is partitioned where one that satisfies a test ends
* `location_eq`: the location of an offset is the position that reading up to it ends at
-/

namespace KlarAudit

/-- A sequence is partitioned behind the members that satisfy the test. -/
theorem Search.partitionedAt_append {α : Type _} {p : α → Bool} {xs ys : List α}
    (hx : ∀ x ∈ xs, p x = true) (hy : ∀ y ∈ ys, p y = false) :
    PartitionedAt p (xs ++ ys).toArray xs.length := by
  refine ⟨by simp, fun i hi => ?_⟩
  rw [List.getElem_toArray]
  rcases Nat.lt_or_ge i xs.length with h | h
  · rw [List.getElem_append_left h, hx _ (List.getElem_mem h), decide_eq_true h]
  · rw [List.getElem_append_right h, hy _ (List.getElem_mem _), decide_eq_false (Nat.not_lt.mpr h)]

namespace LineIndex

/-! ## The starts of lines -/

theorem startsAfter_append (offset : Nat) (cs ds : List Char) :
    startsAfter offset (cs ++ ds) =
      startsAfter offset cs ++ startsAfter (offset + cs.length) ds := by
  induction cs generalizing offset with
  | nil => rfl
  | cons c cs ih =>
    have hshift : offset + 1 + cs.length = offset + (cs.length + 1) := by omega
    simp only [List.cons_append, startsAfter, ih, List.length_cons, hshift]
    split <;> rfl

/-- A line that starts in `cs` does so behind its first character. -/
theorem lt_of_mem_startsAfter {offset n : Nat} {cs : List Char} (h : n ∈ startsAfter offset cs) :
    offset < n ∧ n ≤ offset + cs.length := by
  induction cs generalizing offset with
  | nil => cases h
  | cons c cs ih =>
    have later (h : n ∈ startsAfter (offset + 1) cs) :
        offset < n ∧ n ≤ offset + (c :: cs).length := by
      have := ih h
      rw [List.length_cons]
      omega
    rw [startsAfter] at h
    split at h
    · rcases List.mem_cons.mp h with rfl | h
      · simp
      · exact later h
    · exact later h

/-- Every line feed starts a line. -/
theorem length_startsAfter (offset : Nat) (cs : List Char) :
    (startsAfter offset cs).length = cs.count '\n' := by
  induction cs generalizing offset with
  | nil => rfl
  | cons c cs ih =>
    by_cases h : c = '\n'
    · simp [startsAfter, h, ih]
    · simp [startsAfter, h, ih]

/-- The column counts from the last line that has started. -/
theorem column_advanceAll (cs : List Char) :
    (startsAfter 0 cs).getLastD 0 ≤ cs.length ∧
      (Position.start.advanceAll cs).column = cs.length - (startsAfter 0 cs).getLastD 0 + 1 := by
  -- From behind: the last character alone decides whether a line has just started.
  induction cs using List.reverseRecOn with
  | nil => exact ⟨Nat.le_refl _, rfl⟩
  | append_singleton cs c ih =>
    obtain ⟨hle, hcolumn⟩ := ih
    rw [startsAfter_append, Position.advanceAll_append, List.length_append]
    by_cases h : c = '\n'
    · simp [startsAfter, Position.advance, h]
    · simp only [startsAfter, h, if_false, List.append_nil, Position.advanceAll_cons,
        Position.advanceAll_nil, Position.advance, List.length_singleton, hcolumn]
      omega

/-! ## Locations -/

theorem getElem?_length_cons_append {α : Type _} (a : α) (xs ys : List α) :
    (a :: (xs ++ ys))[xs.length]? = some (xs.getLastD a) := by
  rw [← List.cons_append, List.getElem?_append_left (by simp), List.getLastD_eq_getLast?,
    ← List.getLast?_cons, List.getLast?_eq_getElem?]
  simp

/-- **The location of an offset** is the position that reading up to it ends at. -/
theorem location_eq (s : String) {offset : Nat} (h : offset ≤ s.toList.length) :
    (ofText s).location offset =
      ((Position.start.advanceAll (s.toList.take offset)).line,
        (Position.start.advanceAll (s.toList.take offset)).column) := by
  -- The index lists the lines that reading has seen, and then those that start behind the offset.
  have hstarts : (ofText s).starts = ((0 :: startsAfter 0 (s.toList.take offset)) ++
      startsAfter offset (s.toList.drop offset)).toArray := by
    have happend := startsAfter_append 0 (s.toList.take offset) (s.toList.drop offset)
    rw [List.take_append_drop, List.length_take_of_le h, Nat.zero_add] at happend
    rw [ofText, happend, List.cons_append]
  have hclamp : (ofText s).clamp offset = offset := by
    simp [clamp, ofText, h]
  have hcolumn := (column_advanceAll (s.toList.take offset)).2
  rw [List.length_take_of_le h] at hcolumn
  -- The search counts the former,
  have hline : Search.upperBound (ofText s).starts offset =
      (Position.start.advanceAll (s.toList.take offset)).line := by
    rw [hstarts, Search.upperBound, Search.partitionPoint_eq (Search.partitionedAt_append ?_ ?_),
      List.length_cons, length_startsAfter, Position.line_advanceAll, Position.start, Nat.add_comm]
    · intro n hn
      rcases List.mem_cons.mp hn with rfl | hn
      · simp
      · have := lt_of_mem_startsAfter hn
        rw [List.length_take_of_le h] at this
        rw [decide_eq_true_eq]
        omega
    · intro n hn
      have := lt_of_mem_startsAfter hn
      rw [decide_eq_false_iff_not]
      omega
  -- and the entry before that is the last of them.
  have hlast : (ofText s).starts[(Position.start.advanceAll (s.toList.take offset)).line - 1]? =
      some ((startsAfter 0 (s.toList.take offset)).getLastD 0) := by
    rw [hstarts, Position.line_advanceAll, Position.start, Nat.add_sub_cancel_left,
      ← length_startsAfter 0, List.getElem?_toArray, List.cons_append]
    exact getElem?_length_cons_append 0 _ _
  rw [location, hclamp, hline, hlast, Option.getD_some, hcolumn]

end LineIndex

end KlarAudit

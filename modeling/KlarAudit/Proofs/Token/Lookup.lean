import KlarAudit.Proofs.Token.Restart

/-!
# Looking tokens up by offset

The tokens of a text start one after another, so those that start before an offset stand in front,
and bisection counts them. The tokens inside a span are cut out between two such counts and then
tested for their ends. Since no token is empty, nothing behind the second count can end inside the
span, so the cut leaves out only what the test would, also for a span that runs backwards or lies
outside the text.

## Main results

* `TokenStream.drop_indexAt`: the tokens behind the cut that bisection finds
* `TokenStream.within_eq_filter`: the tokens inside a span are those that it covers
* `TokenStream.lookup_exact`: looking up is going through all tokens
-/

namespace KlarAudit.TokenStream

variable (text : String)

/-- The tokens that start before an offset stand in front. -/
theorem filter_append_filter_scan (offset : Int) :
    (scan text).filter (fun t => decide ((t.start : Int) < offset)) ++
      (scan text).filter (fun t => decide (offset ≤ t.start)) = scan text := by
  have hfront : (scan text).Pairwise fun a b =>
      decide ((b.start : Int) < offset) → decide ((a.start : Int) < offset) := by
    refine (pairwise_scan text).imp_of_mem fun {a b} ha _ hab => ?_
    have := start_lt_stop_of_mem_scan ha
    simp only [decide_eq_true_eq]
    omega
  have hnot (t : Token) :
      decide (offset ≤ t.start) = !decide ((t.start : Int) < offset) := by
    rw [← decide_not, decide_eq_decide, Int.not_lt]
  simp only [hnot]
  exact Search.filter_append_filter_not hfront

/-- Bisection counts the tokens that start before an offset. -/
theorem indexAt_eq_length_filter (offset : Int) :
    (ofText text).indexAt offset =
      ((scan text).filter fun t => decide ((t.start : Int) < offset)).length := by
  refine indexAt_eq_length (filter_append_filter_scan text offset).symm ?_ ?_
  · exact fun t ht => of_decide_eq_true (List.mem_filter.mp ht).2
  · exact fun t ht => of_decide_eq_true (List.mem_filter.mp ht).2

theorem drop_indexAt (offset : Int) :
    (scan text).drop ((ofText text).indexAt offset) =
      (scan text).filter fun t => decide (offset ≤ t.start) := by
  rw [indexAt_eq_length_filter]
  exact (congrArg (List.drop _) (filter_append_filter_scan text offset).symm).trans List.drop_left

/-- **The tokens inside a span** are those that it covers, whatever the ends of the span. -/
theorem within_eq_filter (s : Span) :
    (ofText text).within s = (scan text).filter fun t => decide (s.Covers t.span) := by
  obtain ⟨lo, hlo⟩ : ∃ lo, lo = (ofText text).indexAt s.start := ⟨_, rfl⟩
  obtain ⟨hi, hhi⟩ : ∃ hi, hi = (ofText text).indexAt s.stop := ⟨_, rfl⟩
  -- A token behind the cut starts behind the span, and it is not empty.
  have hbehind : (((scan text).drop lo).drop (hi - lo)).filter
      (fun t => decide ((t.stop : Int) ≤ s.stop)) = [] := by
    refine List.filter_eq_nil_iff.mpr fun t ht => ?_
    rw [List.drop_drop] at ht
    have hmem : t ∈ (scan text).drop hi :=
      (List.drop_sublist_drop_left _ (by omega : hi ≤ lo + (hi - lo))).mem ht
    rw [hhi, drop_indexAt] at hmem
    obtain ⟨hscan, hstart⟩ := List.mem_filter.mp hmem
    have := of_decide_eq_true hstart
    have := start_lt_stop_of_mem_scan hscan
    rw [decide_eq_true_eq]
    omega
  calc (ofText text).within s
      = (((scan text).take hi).drop lo).filter fun t => decide ((t.stop : Int) ≤ s.stop) := by
        rw [hlo, hhi]; rfl
    _ = (((scan text).drop lo).take (hi - lo)).filter
          fun t => decide ((t.stop : Int) ≤ s.stop) := by
        rw [List.drop_take]
    _ = ((scan text).drop lo).filter fun t => decide ((t.stop : Int) ≤ s.stop) := by
        nth_rewrite 2 [← List.take_append_drop (hi - lo) ((scan text).drop lo)]
        rw [List.filter_append, hbehind, List.append_nil]
    _ = (scan text).filter fun t => decide (s.Covers t.span) := by
        rw [hlo, drop_indexAt, List.filter_filter]
        refine List.filter_congr fun t _ => ?_
        rw [Bool.and_comm, ← Bool.decide_and]
        rfl

/-- **Looking up is going through all tokens.** The tokens inside a span, whatever its ends, are in
order all tokens that start and stop inside it, and the index of an offset is the number of tokens
that start before it. -/
theorem lookup_exact :
    (∀ s : Span, (ofText text).within s = (ofText text).tokens.filter fun t =>
      decide (s.start ≤ t.start ∧ (t.stop : Int) ≤ s.stop)) ∧
    ∀ offset : Int, (ofText text).indexAt offset =
      (ofText text).tokens.countP fun t => decide ((t.start : Int) < offset) := by
  refine ⟨within_eq_filter text, fun offset => ?_⟩
  rw [indexAt_eq_length_filter, List.countP_eq_length_filter]
  rfl

end KlarAudit.TokenStream

import KlarAudit.Proofs.Token.Lossless
import KlarAudit.Token.Stream

/-!
# Scanning again from a boundary

A scanner that starts somewhere in a text knows nothing of what stands before. When it starts
between two tokens it finds what a scan of the whole text finds from there on, the same tokens at
the same positions: no token depends on what precedes it, and the line and column of the start are
those that reading up to it ends at. Bisection of the starts finds where these tokens begin in the
list of all tokens.

## Main definitions

* `IsBoundary ts offset`: the offset lies inside none of the tokens

## Main results

* `exists_scanFrom_split`: the tokens behind a boundary are found without those before it
* `TokenStream.indexAt_eq_length`: bisection finds where the tokens behind an offset begin
* `rescan_boundary`: scanning again from a boundary gives the tokens behind it
-/

namespace KlarAudit

/-- **A boundary of the tokens**: the offset lies inside none of them. -/
def IsBoundary (ts : List Token) (offset : Nat) : Prop :=
  ∀ t ∈ ts, ¬ (t.start < offset ∧ offset < t.stop)

instance (ts : List Token) (offset : Nat) : Decidable (IsBoundary ts offset) :=
  inferInstanceAs (Decidable (∀ t ∈ ts, _))

/-- A token that starts with `c` stops behind the characters it takes. -/
theorem stop_munch (p : Position) (c : Char) (cs : List Char) :
    (⟨(munch c cs).1, String.ofList (c :: cs.take (munch c cs).2), p⟩ : Token).stop =
      p.offset + (munch c cs).2 + 1 := by
  rw [Token.stop, String.length_ofList, List.length_cons, List.length_take_of_le (munch_le c cs)]
  rfl

/-- **The tokens behind a boundary** are those that are found there without the ones before it. -/
theorem exists_scanFrom_split {p : Position} {n k : Nat} {cs : List Char} (hn : n ≤ k)
    (h : IsBoundary (scanFrom p n cs) (p.offset + k)) :
    ∃ before, scanFrom p n cs =
        before ++ scanFrom (p.advanceAll (cs.take k)) 0 (cs.drop k) ∧
      ∀ t ∈ before, t.stop ≤ p.offset + k := by
  -- Induction on the text, of which the first `n` characters belong to a token already given.
  induction cs generalizing p n k with
  | nil => exact ⟨[], by simp [scanFrom], by simp⟩
  | cons c cs ih =>
    cases k with
    | zero =>
      obtain rfl := Nat.le_zero.mp hn
      exact ⟨[], by simp, by simp⟩
    | succ k =>
      have hoffset : p.offset + (k + 1) = (p.advance c).offset + k := by
        rw [Position.offset_advance]
        omega
      rw [hoffset] at h ⊢
      rw [List.take_succ_cons, Position.advanceAll_cons, List.drop_succ_cons]
      cases n with
      | succ n => exact ih (Nat.le_of_succ_le_succ hn) h
      | zero =>
        simp only [scanFrom] at h ⊢
        split
        · rename_i hc
          rw [if_pos hc] at h
          exact ih (Nat.zero_le k) h
        · -- A token starts here, and since the boundary is not inside it, it stops before.
          rename_i hc
          rw [if_neg hc] at h
          obtain ⟨hfirst, hrest⟩ := List.forall_mem_cons.mp h
          rw [stop_munch, Position.offset_advance] at hfirst
          change ¬ (p.offset < _ ∧ _) at hfirst
          obtain ⟨before, hbefore, hends⟩ := ih (n := (munch c cs).2) (by omega) hrest
          refine ⟨_ :: before, by rw [List.cons_append, ← hbefore], ?_⟩
          rw [List.forall_mem_cons, stop_munch]
          exact ⟨by rw [Position.offset_advance]; omega, hends⟩

/-- What stands before a token in the list stops before it starts, and nothing behind it starts
earlier. -/
theorem apart_of_getElem? {s : String} {i : Nat} {t : Token} (h : (scan s)[i]? = some t) :
    (∀ u ∈ (scan s).take i, u.stop ≤ t.start) ∧ ∀ u ∈ (scan s).drop i, t.start ≤ u.start := by
  obtain ⟨hi, rfl⟩ := List.getElem?_eq_some_iff.mp h
  have happart := pairwise_scan s
  rw [← List.take_append_drop i (scan s), List.drop_eq_getElem_cons hi, List.pairwise_append,
    List.pairwise_cons] at happart
  obtain ⟨-, ⟨hlater, -⟩, hearlier⟩ := happart
  rw [List.drop_eq_getElem_cons hi]
  refine ⟨fun u hu => hearlier u hu _ List.mem_cons_self, fun u hu => ?_⟩
  rcases List.mem_cons.mp hu with rfl | hu
  · exact Nat.le_refl _
  · have := hlater u hu
    have := start_lt_stop_of_mem_scan (List.getElem_mem hi)
    omega

/-- A token starts at a boundary. -/
theorem isBoundary_start {s : String} {i : Nat} {t : Token} (h : (scan s)[i]? = some t) :
    IsBoundary (scan s) t.start := by
  obtain ⟨hbefore, hafter⟩ := apart_of_getElem? h
  intro u hu
  rw [← List.take_append_drop i (scan s), List.mem_append] at hu
  rcases hu with hu | hu
  · have := hbefore u hu
    omega
  · have := hafter u hu
    omega

namespace TokenStream

/-- **Bisection finds where the tokens behind an offset begin.** -/
theorem indexAt_eq_length {s : String} {before after : List Token} {offset : Int}
    (hs : scan s = before ++ after) (hbefore : ∀ t ∈ before, (t.start : Int) < offset)
    (hafter : ∀ t ∈ after, offset ≤ t.start) : (ofText s).indexAt offset = before.length := by
  have hstarts : (ofText s).starts = (before.map Token.start ++ after.map Token.start).toArray := by
    rw [starts, ofText, hs, List.map_append]
  rw [indexAt, hstarts, Search.lowerBound, ← List.length_map Token.start]
  apply Search.partitionPoint_eq
  apply Search.partitionedAt_append
  · simpa using hbefore
  · simpa using hafter

/-- Bisection finds the index of a token from its start. -/
theorem indexAt_start {s : String} {i : Nat} {t : Token} (h : (scan s)[i]? = some t) :
    (ofText s).indexAt t.start = i := by
  obtain ⟨hbefore, hafter⟩ := apart_of_getElem? h
  have hi : i < (scan s).length := (List.getElem?_eq_some_iff.mp h).1
  rw [indexAt_eq_length (List.take_append_drop i (scan s)).symm,
    List.length_take_of_le (Nat.le_of_lt hi)]
  · intro u hu
    have := start_lt_stop_of_mem_scan (List.mem_of_mem_take hu)
    have := hbefore u hu
    omega
  · intro u hu
    exact Int.ofNat_le.mpr (hafter u hu)

end TokenStream

/-- **Scanning again from a boundary** gives the tokens behind it, at the same positions: those from
the index on that bisection finds, and from the start of a token those from its own index on. -/
theorem rescan_boundary (s : String) :
    (∀ offset, IsBoundary (scan s) offset →
      scanAt s offset = (scan s).drop ((TokenStream.ofText s).indexAt offset)) ∧
    ∀ i t, (scan s)[i]? = some t → (TokenStream.ofText s).rescan t.start = (scan s).drop i := by
  have key (offset : Nat) (h : IsBoundary (scan s) offset) :
      scanAt s offset = (scan s).drop ((TokenStream.ofText s).indexAt offset) := by
    have hoffset : Position.start.offset + offset = offset := Nat.zero_add offset
    -- The scan falls into the tokens before the boundary and those that are found from there on.
    obtain ⟨before, hsplit, hstop⟩ := exists_scanFrom_split (Nat.zero_le offset)
      (hoffset.symm ▸ h)
    have hscan : scan s = before ++ scanAt s offset := hsplit
    rw [TokenStream.indexAt_eq_length hscan, hscan, List.drop_left]
    · intro t ht
      have hmem : t ∈ scan s := by rw [hscan]; exact List.mem_append_left _ ht
      have := start_lt_stop_of_mem_scan hmem
      have := hstop t ht
      omega
    · intro t ht
      exact Int.ofNat_le.mpr (standsIn_of_mem_scanAt ht).2.1
  refine ⟨key, fun i t h => ?_⟩
  rw [TokenStream.rescan, TokenStream.ofText, key _ (isBoundary_start h),
    TokenStream.indexAt_start h]

/-- A text whose first two tokens extend over several lines, with blanks between them. -/
def severalLines : String :=
  "/* a\n*/ \"b\nc\"  d"

/-- The gap behind the comment is a boundary, and the last token is found again from its start. -/
theorem rescan_severalLines :
    IsBoundary (scan severalLines) 7 ∧
      scanAt severalLines 7 =
        (scan severalLines).drop ((TokenStream.ofText severalLines).indexAt 7) ∧
      (scan severalLines)[2]? = some ⟨.identifier, "d", ⟨15, 3, 5⟩⟩ ∧
      (TokenStream.ofText severalLines).rescan 15 = (scan severalLines).drop 2 := by
  have hboundary : IsBoundary (scan severalLines) 7 := by decide +kernel
  have htoken : (scan severalLines)[2]? = some ⟨.identifier, "d", ⟨15, 3, 5⟩⟩ := by decide +kernel
  obtain ⟨hboundaries, htokens⟩ := rescan_boundary severalLines
  exact ⟨hboundary, hboundaries 7 hboundary, htoken, htokens 2 _ htoken⟩

end KlarAudit

import KlarAudit.Token.Scan

/-!
# The tokens of a text

What every token of a scanned text satisfies: it is not empty, it starts after the one before it
has stopped, and if it is a keyword it is one of the reserved words. The last fact is why the
grammar may take a bracket for an operator without asking for its category.

## Main definitions

* `Token.written`: a token without its place
* `Token.Genuine`: the token could come from scanning

## Main results

* `genuine_of_mem_scan`: the tokens of a text are genuine
* `pairwise_scan`: they stand one after another
-/

namespace KlarAudit

/-- What is written of a token. -/
def Token.written (t : Token) : TokenKind × String :=
  (t.kind, t.text)

/-- **A genuine token**: if it is a keyword, its text is a reserved word. -/
def Token.Genuine (t : Token) : Prop :=
  t.kind = .keyword → Munch.keywords.contains t.text

open Munch in
theorem commentKind_ne_keyword (docMark notDoc : String) (body : List Char) :
    commentKind docMark notDoc body ≠ .keyword := by
  unfold commentKind
  split
  · simp
  · split <;> simp

open Munch in
theorem contains_of_wordKind_eq_keyword {word : String} (h : wordKind word = .keyword) :
    keywords.contains word := by
  unfold wordKind at h
  split at h
  · assumption
  · split at h <;> cases h

open Munch in
/-- Only a word can be a keyword. -/
theorem contains_of_munch_eq_keyword {c : Char} {cs : List Char}
    (h : (munch c cs).1 = .keyword) :
    keywords.contains (String.ofList (c :: cs.take (munch c cs).2)) := by
  -- only the reader of words can give the category of a keyword
  unfold munch at h ⊢
  split at h
  · exact absurd h (commentKind_ne_keyword _ _ _)
  · split at h
    · exact absurd h (commentKind_ne_keyword _ _ _)
    · rename_i h₁ h₂
      rw [if_neg h₁, if_neg h₂]
      split at h
      · split at h <;> cases h
      · rename_i h₃
        rw [if_neg h₃]
        split at h
        · split at h <;> cases h
        · rename_i h₄
          rw [if_neg h₄]
          split at h
          · cases h
          · rename_i h₅
            rw [if_neg h₅]
            split at h
            · rename_i h₆
              rw [if_pos h₆]
              exact contains_of_wordKind_eq_keyword h
            · split at h <;> cases h

/-- **Where a token stands**: behind some characters that take more than is skipped, and it starts
with a character that is no blank. -/
theorem exists_split_of_mem_scanFrom {p : Position} {n : Nat} {cs : List Char} {t : Token}
    (h : t ∈ scanFrom p n cs) :
    ∃ before c after, cs = before ++ c :: after ∧ n ≤ before.length ∧ Text.isBlank c = false ∧
      t = ⟨(munch c after).1, String.ofList (c :: after.take (munch c after).2),
        p.advanceAll before⟩ := by
  induction cs generalizing p n with
  | nil => cases h
  | cons c cs ih =>
    -- a token found behind the first character has that character in front of it
    have later {m : Nat} (h : t ∈ scanFrom (p.advance c) m cs) (hm : n ≤ m + 1) :
        ∃ before d after, c :: cs = before ++ d :: after ∧ n ≤ before.length ∧
          Text.isBlank d = false ∧
          t = ⟨(munch d after).1, String.ofList (d :: after.take (munch d after).2),
            p.advanceAll before⟩ := by
      obtain ⟨before, d, after, rfl, hn, hd, ht⟩ := ih h
      exact ⟨c :: before, d, after, rfl, Nat.le_trans hm (Nat.succ_le_succ hn), hd, ht⟩
    cases n with
    | succ n => exact later h (Nat.le_refl _)
    | zero =>
      simp only [scanFrom] at h
      split at h
      · exact later h (Nat.zero_le _)
      · rename_i hc
        rcases List.mem_cons.mp h with rfl | h
        · exact ⟨[], c, cs, rfl, Nat.le_refl _, Bool.eq_false_iff.mpr hc, rfl⟩
        · exact later h (Nat.zero_le _)

/-- Every token comes from one step of the scanner, at a position that has not been read yet. -/
theorem exists_munch_of_mem_scanFrom {p : Position} {n : Nat} {cs : List Char} {t : Token}
    (h : t ∈ scanFrom p n cs) :
    ∃ c ds q, t = ⟨(munch c ds).1, String.ofList (c :: ds.take (munch c ds).2), q⟩ ∧
      p.offset + n ≤ q.offset := by
  obtain ⟨before, c, after, -, hn, -, ht⟩ := exists_split_of_mem_scanFrom h
  refine ⟨c, after, _, ht, ?_⟩
  rw [Position.offset_advanceAll]
  omega

/-- **The tokens of a text are genuine.** -/
theorem genuine_of_mem_scan {s : String} {t : Token} (h : t ∈ scan s) : t.Genuine := by
  obtain ⟨c, ds, q, rfl, -⟩ := exists_munch_of_mem_scanFrom h
  exact contains_of_munch_eq_keyword

/-- No token of a text is empty. -/
theorem start_lt_stop_of_mem_scan {s : String} {t : Token} (h : t ∈ scan s) :
    t.start < t.stop := by
  obtain ⟨c, ds, q, rfl, -⟩ := exists_munch_of_mem_scanFrom h
  simp only [Token.stop, String.length_ofList, List.length_cons]
  omega

theorem pairwise_scanFrom (p : Position) (n : Nat) (cs : List Char) :
    (scanFrom p n cs).Pairwise fun a b => a.stop ≤ b.start := by
  induction cs generalizing p n with
  | nil => exact List.Pairwise.nil
  | cons c cs ih =>
    cases n with
    | succ n => exact ih _ _
    | zero =>
      simp only [scanFrom]
      split
      · exact ih _ _
      · refine List.Pairwise.cons (fun b hb => ?_) (ih _ _)
        obtain ⟨d, ds, q, rfl, hq⟩ := exists_munch_of_mem_scanFrom hb
        rw [Position.offset_advance] at hq
        simp only [Token.stop, Token.start, String.length_ofList, List.length_cons,
          List.length_take]
        omega

/-- **The tokens of a text stand one after another.** -/
theorem pairwise_scan (s : String) : (scan s).Pairwise fun a b => a.stop ≤ b.start :=
  pairwise_scanFrom _ _ _

end KlarAudit

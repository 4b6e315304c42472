import KlarAudit.Proofs.Source.LineIndex
import KlarAudit.Proofs.Token.Munch
import KlarAudit.Proofs.Token.Scanned
import Mathlib.Data.List.TakeWhile

/-!
# Scanning loses nothing

The tokens that are found from an offset on make up the text behind it, but for blanks: each is the
slice of the text between its ends, and a character in no token is blank. Their lines and columns,
which scanning counts out on the way, are those that the line index finds, wherever scanning starts.

## Main definitions

* `Token.isBlockComment`: a comment that may extend over several lines
* `Lossless s offset ts`: the tokens `ts` make up the text `s` from `offset` on
* `Token.StandsIn`: a token is in the text where its position says

## Main results

* `newline_of_munch`: what may hold a line feed
* `isBlank_of_uncovered`: no character is skipped unless it is blank
* `lossless_scanAt`: scanning from any offset loses nothing
-/

namespace KlarAudit

/-- The token is a block comment. -/
def Token.isBlockComment (t : Token) : Bool :=
  t.isComment && "/*".toList.isPrefixOf t.text.toList

/-- **A lossless division** of the text `s` into tokens, from `offset` on. -/
structure Lossless (s : String) (offset : Nat) (ts : List Token) : Prop where
  /-- No token is empty. -/
  nonempty : ∀ t ∈ ts, t.start < t.stop
  /-- The tokens stand one after another. -/
  apart : ts.Pairwise fun a b => a.stop ≤ b.start
  /-- They stand in the text, behind the offset. -/
  within : ∀ t ∈ ts, offset ≤ t.start ∧ t.stop ≤ s.length
  /-- A token is what stands between its ends. -/
  slice : ∀ t ∈ ts, t.text.toList = (s.toList.take t.stop).drop t.start
  /-- A character in no token is blank. -/
  gap : ∀ i c, s.toList[i]? = some c → offset ≤ i → (∀ t ∈ ts, ¬ (t.start ≤ i ∧ i < t.stop)) →
    Text.isBlank c
  /-- No token starts with a blank. -/
  head : ∀ t ∈ ts, ∀ c ∈ t.text.toList.head?, Text.isBlank c = false
  /-- A token starts on the line and in the column that the line index finds. -/
  location : ∀ t ∈ ts, (LineIndex.ofText s).location t.start = (t.line, t.column)
  /-- It ends on the line that the line index finds. -/
  endLine : ∀ t ∈ ts, ((LineIndex.ofText s).location t.stop).1 = t.endLine
  /-- Only string literals and block comments hold a line feed. -/
  newline : ∀ t ∈ ts, '\n' ∈ t.text.toList → t.isString ∨ t.isBlockComment

/-! ## Line feeds in tokens -/

section Munch

open Munch

variable {c : Char} {cs : List Char}

theorem isComment_commentKind (docMark notDoc : String) (body : List Char) :
    (commentKind docMark notDoc body).isComment := by
  unfold commentKind
  split
  · rfl
  · split <;> rfl

theorem newline_notMem_restOfLine (cs : List Char) :
    '\n' ∉ cs.take (restOfLine cs).length := by
  rw [← (List.prefix_iff_eq_take.mp (List.takeWhile_prefix _) : restOfLine cs = _)]
  intro h
  simpa using List.mem_takeWhile_imp h

/-- What follows a quote is a string literal, if it extends over the end of the line. -/
theorem literal_of_newline (h : '\n' ∈ cs.take (munch '"' cs).2) :
    (munch '"' cs).1 = .literal := by
  cases hs : stringLength? cs with
  | some n => simp [munch, hs]
  | none =>
    have hm : munch '"' cs = (.unknown, (restOfLine cs).length) := by simp [munch, hs]
    rw [hm] at h
    exact absurd h (newline_notMem_restOfLine cs)

/-- **What may hold a line feed**: a string literal and a block comment. -/
theorem newline_of_munch (h : '\n' ∈ cs.take (munch c cs).2) :
    c = '"' ∧ (munch c cs).1 = .literal ∨
      c = '/' ∧ cs.head? = some '*' ∧ (munch c cs).1.isComment := by
  by_cases hquote : c = '"'
  · subst hquote
    exact .inl ⟨rfl, literal_of_newline h⟩
  by_cases hblock : c = '/' ∧ cs.head? = some '*'
  · obtain ⟨rfl, hstar⟩ := hblock
    refine .inr ⟨rfl, hstar, ?_⟩
    simp [munch, hstar, blockCommentKind, isComment_commentKind]
  -- Any other token does not change when the line ends behind it, so it ends on its line.
  obtain ⟨line, rest, rfl, hline⟩ := List.eq_append_cons_of_mem (List.mem_of_mem_take h)
  have hclosed : ¬ Open c line := by
    rintro (⟨hc, -⟩ | ⟨hc, hhead, -⟩)
    · exact hquote hc
    · obtain ⟨ds, rfl⟩ := List.head?_eq_some_iff.mp hhead
      exact hblock ⟨hc, rfl⟩
  rw [munch_append_line hclosed, List.take_append_of_le_length (munch_le c line)] at h
  exact absurd (List.mem_of_mem_take h) hline

end Munch

/-! ## What stands between the tokens -/

/-- **No character is skipped** unless it is blank or belongs to a token already given. -/
theorem isBlank_of_uncovered {p : Position} {n i : Nat} {cs : List Char} {c : Char}
    (hc : cs[i]? = some c) (hn : n ≤ i)
    (h : ∀ t ∈ scanFrom p n cs, ¬ (t.start ≤ p.offset + i ∧ p.offset + i < t.stop)) :
    Text.isBlank c := by
  -- Induction on the text, of which the first `n` characters belong to a token already given.
  induction cs generalizing p n i with
  | nil => cases hc
  | cons d cs ih =>
    have later {m j : Nat} (hj : i = j + 1) (hm : m ≤ j)
        (h : ∀ t ∈ scanFrom (p.advance d) m cs,
          ¬ (t.start ≤ p.offset + i ∧ p.offset + i < t.stop)) : Text.isBlank c := by
      subst hj
      refine ih (p := p.advance d) (by simpa using hc) hm ?_
      rw [Position.offset_advance, Nat.add_right_comm, Nat.add_assoc]
      exact h
    cases n with
    | succ n =>
      obtain ⟨j, rfl⟩ := Nat.exists_eq_add_of_le' (Nat.le_trans (Nat.succ_pos n) hn)
      exact later rfl (Nat.le_of_succ_le_succ hn) h
    | zero =>
      simp only [scanFrom] at h
      split at h
      -- a blank is skipped by itself
      · rename_i hd
        cases i with
        | zero => simpa [Option.some.inj hc] using hd
        | succ j => exact later rfl (Nat.zero_le j) h
      -- a token starts here, and `i` is not in it
      · obtain ⟨hfirst, hrest⟩ := List.forall_mem_cons.mp h
        have hlen := munch_le d cs
        have hi : i < (d :: cs).length := (List.getElem?_eq_some_iff.mp hc).1
        simp only [Token.stop, Token.start, String.length_ofList, List.length_cons,
          List.length_take_of_le hlen] at hfirst hi
        obtain ⟨j, rfl⟩ := Nat.exists_eq_add_of_le' (show 1 ≤ i by omega)
        exact later rfl (by omega) hrest

/-! ## Tokens in the text -/

/-- **The token stands in the text**, at the position that reading up to it ends at. -/
structure Token.StandsIn (t : Token) (s : String) : Prop where
  /-- The text up to the end of the token ends with the token. -/
  take_stop : s.toList.take t.stop = s.toList.take t.start ++ t.text.toList
  /-- The token does not extend beyond the text. -/
  stop_le : t.stop ≤ s.toList.length
  /-- The position comes from reading. -/
  pos_eq : t.pos = Position.start.advanceAll (s.toList.take t.start)

namespace Token.StandsIn

variable {t : Token} {s : String}

theorem of_split {before after : List Char} (hs : s.toList = before ++ (t.text.toList ++ after))
    (hpos : t.pos = Position.start.advanceAll before) : t.StandsIn s := by
  have hstart : t.start = before.length := by
    rw [Token.start, hpos, Position.offset_advanceAll, Position.start, Nat.zero_add]
  have hstop : t.stop = (before ++ t.text.toList).length := by
    rw [Token.stop, hstart, List.length_append, String.length_toList]
  refine ⟨?_, ?_, ?_⟩
  · rw [hs, hstart, List.take_left, hstop, ← List.append_assoc, List.take_left]
  · rw [hs, hstop]
    simp only [List.length_append]
    omega
  · rw [hs, hstart, List.take_left, hpos]

theorem start_le (h : t.StandsIn s) : t.start ≤ s.toList.length :=
  Nat.le_trans (Nat.le_add_right _ _) h.stop_le

/-- The token is what stands between its ends. -/
theorem slice (h : t.StandsIn s) : t.text.toList = (s.toList.take t.stop).drop t.start := by
  rw [h.take_stop, List.drop_left' (List.length_take_of_le h.start_le)]

/-- **The line index finds the token** where scanning says it is. -/
theorem location (h : t.StandsIn s) :
    (LineIndex.ofText s).location t.start = (t.line, t.column) := by
  rw [LineIndex.location_eq s h.start_le, ← h.pos_eq]
  rfl

theorem endLine (h : t.StandsIn s) :
    ((LineIndex.ofText s).location t.stop).1 = t.endLine := by
  rw [LineIndex.location_eq s h.stop_le, h.take_stop, Position.advanceAll_append, ← h.pos_eq,
    Position.line_advanceAll]
  rfl

end Token.StandsIn

/-- **Every token stands in the text**, behind the offset, and starts with no blank. -/
theorem standsIn_of_mem_scanAt {s : String} {offset : Nat} {t : Token}
    (h : t ∈ scanAt s offset) :
    t.StandsIn s ∧ offset ≤ t.start ∧ ∃ c after, Text.isBlank c = false ∧
      t.kind = (munch c after).1 ∧ t.text.toList = c :: after.take (munch c after).2 := by
  obtain ⟨before, c, after, hs, -, hc, rfl⟩ := exists_split_of_mem_scanFrom h
  -- What stands before the token is what is skipped up to the offset, and then what scanning reads.
  have hsplit : s.toList = (s.toList.take offset ++ before) ++
      ((String.ofList (c :: after.take (munch c after).2)).toList ++
        after.drop (munch c after).2) := by
    rw [String.toList_ofList, List.cons_append, List.take_append_drop, List.append_assoc, ← hs,
      List.take_append_drop]
  refine ⟨.of_split hsplit ?_, ?_, c, after, hc, rfl, String.toList_ofList⟩
  · rw [Position.advanceAll_append]
  · have hlen := congrArg List.length hs
    rw [List.length_drop, List.length_append, List.length_cons] at hlen
    rw [Token.start, Position.offset_advanceAll, Position.offset_advanceAll, List.length_take]
    omega

/-- **Scanning from any offset loses nothing**, and every token is where scanning says it is. -/
theorem lossless_scanAt (s : String) (offset : Nat) : Lossless s offset (scanAt s offset) where
  nonempty t ht := by
    obtain ⟨-, -, c, after, -, -, htext⟩ := standsIn_of_mem_scanAt ht
    rw [Token.stop, ← String.length_toList, htext, List.length_cons]
    omega
  apart := pairwise_scanFrom _ _ _
  within t ht := by
    obtain ⟨hstands, hoffset, -⟩ := standsIn_of_mem_scanAt ht
    exact ⟨hoffset, String.length_toList ▸ hstands.stop_le⟩
  slice t ht := (standsIn_of_mem_scanAt ht).1.slice
  gap i c hc hi h := by
    have hlen : offset ≤ s.toList.length :=
      Nat.le_trans hi (Nat.le_of_lt (List.getElem?_eq_some_iff.mp hc).1)
    -- Scanning counts characters from the offset on, tokens count them from the start.
    have hdrop : (s.toList.drop offset)[i - offset]? = some c := by
      rw [List.getElem?_drop, Nat.add_sub_cancel' hi, hc]
    refine isBlank_of_uncovered (p := Position.start.advanceAll (s.toList.take offset)) hdrop
      (Nat.zero_le _) ?_
    rw [Position.offset_advanceAll, List.length_take_of_le hlen, Position.start, Nat.zero_add,
      Nat.add_sub_cancel' hi]
    exact h
  head t ht := by
    obtain ⟨-, -, c, after, hc, -, htext⟩ := standsIn_of_mem_scanAt ht
    rw [htext]
    simpa using hc
  location t ht := (standsIn_of_mem_scanAt ht).1.location
  endLine t ht := (standsIn_of_mem_scanAt ht).1.endLine
  newline t ht h := by
    obtain ⟨-, -, c, after, hc, hkind, htext⟩ := standsIn_of_mem_scanAt ht
    have hne : c ≠ '\n' := by
      rintro rfl
      exact absurd hc (by decide)
    rw [htext] at h
    -- The line feed is not the first character, which is no blank.
    have hbody := (List.mem_cons.mp h).resolve_left hne.symm
    rw [Token.isString, Token.isBlockComment, Token.isComment, hkind, htext]
    rcases newline_of_munch hbody with ⟨rfl, hliteral⟩ | ⟨rfl, hstar, hcomment⟩
    · left
      rw [hliteral]
      rfl
    · right
      obtain ⟨cs, rfl⟩ := List.head?_eq_some_iff.mp hstar
      rw [hcomment]
      cases hn : (munch '/' ('*' :: cs)).2 with
      | zero => simp [hn] at hbody
      | succ n => rfl

end KlarAudit

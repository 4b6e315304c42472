import KlarAudit.Proofs.Token.Lossless
import KlarAudit.Proofs.Token.Word
import Mathlib.Algebra.Group.Nat.Even

/-!
# Literals and comments are taken whole

Whatever stands inside a string literal or a block comment belongs to it: no bracket, quote or mark
in there is seen as a token of its own, whatever follows behind. In a string literal a backslash
protects a quote and a backslash; a block comment may hold others, and its end is the closing mark
that matches its opening one. A quote without a closing one takes the rest of its line, and a block
comment without its end takes the rest of the text.

## Main definitions

* `TakenWhole kind cs rest`: in front of `rest` the characters `cs` are one token
* `inQuotes quote cs`: characters written between quotes
* `Munch.NeverCloses`: every quote is taken by a backslash
* `CommentBody`: what stands in a block comment, with the comments inside it
* `CommentBody.IsPlain`: no mark arises but those that are written
* `CommentBody.ReadsBefore`: read from left to right, the body has the marks that are written
* `CommentBody.NeverEnds`: no closing mark stands behind a body that reads as written

## Main results

* `stringLength?_escapeFor`, `neverCloses_iff`: where a string literal ends
* `blockLength_chars`: a body that reads as written is passed over as a whole
* `exists_body_of_closesBlock`, `neverEnds_iff`: where a block comment ends
* `takenWhole_scan`: literals and comments are taken whole, closed or not
-/

namespace KlarAudit

open Munch

/-- **Characters taken whole**: in front of `rest`, wherever scanning stands, the characters `cs`
are one token, and scanning goes on behind them. -/
def TakenWhole (kind : TokenKind) (cs rest : List Char) : Prop :=
  ∀ p, scanFrom p 0 (cs ++ rest) =
    ⟨kind, String.ofList cs, p⟩ :: scanFrom (p.advanceAll cs) 0 rest

theorem takenWhole_of_munch {kind : TokenKind} {c : Char} {cs rest : List Char}
    (hc : Text.isBlank c = false) (h : munch c (cs ++ rest) = (kind, cs.length)) :
    TakenWhole kind (c :: cs) rest := by
  intro p
  rw [List.cons_append, scanFrom, if_neg (by simp [hc]), h]
  dsimp only
  rw [List.take_left, Word.scanFrom_skip, Position.advanceAll_cons]

/-! ## Quotes -/

/-- A character between quotes, with a backslash before the quote itself and before a backslash. -/
def escapeChar (quote c : Char) : List Char :=
  if c = quote ∨ c = '\\' then ['\\', c] else [c]

/-- The characters `cs` as they are written between quotes. -/
def escapeFor (quote : Char) (cs : List Char) : List Char :=
  cs.flatMap (escapeChar quote)

/-- **Characters between quotes.** -/
def inQuotes (quote : Char) (cs : List Char) : List Char :=
  quote :: (escapeFor quote cs ++ [quote])

namespace Munch

variable {c : Char} {cs : List Char}

theorem stringLength?_escape (c : Char) (cs : List Char) :
    stringLength? ('\\' :: c :: cs) = (stringLength? cs).map (· + 2) := by
  rw [stringLength?]

theorem stringLength?_plain (hquote : c ≠ '"') (hslash : c ≠ '\\') (cs : List Char) :
    stringLength? (c :: cs) = (stringLength? cs).map (· + 1) := by
  rw [stringLength?]
  · exact hquote
  · exact fun h _ => hslash h
  · exact fun _ _ h _ => hslash h

/-- **A string literal ends** at the quote behind what is escaped. -/
theorem stringLength?_escapeFor (s rest : List Char) :
    stringLength? (escapeFor '"' s ++ '"' :: rest) = some ((escapeFor '"' s).length + 1) := by
  induction s with
  | nil => rfl
  | cons c s ih =>
    rw [escapeFor, List.flatMap_cons, ← escapeFor, List.append_assoc, escapeChar]
    by_cases hc : c = '"' ∨ c = '\\'
    · rw [if_pos hc, List.cons_append, List.singleton_append, stringLength?_escape, ih]
      simp only [Option.map_some, List.length_append, List.length_cons, List.length_nil]
      congr 1
      omega
    · rw [if_neg hc, List.singleton_append]
      rw [not_or] at hc
      rw [stringLength?_plain hc.1 hc.2, ih]
      simp only [Option.map_some, List.length_append, List.length_cons, List.length_nil]
      congr 1
      omega

/-- The number of backslashes at the end of a text. -/
def backslashesAtEnd (cs : List Char) : Nat :=
  (cs.reverse.takeWhile (· == '\\')).length

theorem backslashesAtEnd_cons_of_ne (hc : c ≠ '\\') (cs : List Char) :
    backslashesAtEnd (c :: cs) = backslashesAtEnd cs := by
  have hstop : ([c] : List Char).takeWhile (· == '\\') = [] := by simp [hc]
  rw [backslashesAtEnd, List.reverse_cons, List.takeWhile_append, hstop]
  split <;> simp_all [backslashesAtEnd]

/-- A backslash and what it takes with it do not matter to what stands at the end. -/
theorem even_backslashesAtEnd_escape :
    Even (backslashesAtEnd ('\\' :: c :: cs)) ↔ Even (backslashesAtEnd cs) := by
  have hsplit : ('\\' :: c :: cs).reverse = cs.reverse ++ [c, '\\'] := by simp
  rw [backslashesAtEnd, hsplit, List.takeWhile_append]
  split
  · rename_i hall
    have hlen : backslashesAtEnd cs = cs.length := by
      rw [backslashesAtEnd, hall, List.length_reverse]
    rw [hlen, List.length_append, List.length_reverse]
    by_cases hc : c = '\\'
    · subst hc
      have htwo : Even 2 := ⟨1, rfl⟩
      simp [Nat.even_add, htwo]
    · simp [hc]
  · exact Iff.rfl

/-- **No quote closes**: every quote is taken by a backslash, which the backslashes before it leave
over when they take each other in pairs. -/
def NeverCloses (cs : List Char) : Prop :=
  ∀ before after, cs = before ++ '"' :: after → ¬ Even (backslashesAtEnd before)

/-- A string literal ends at a quote that no backslash takes. -/
theorem exists_quote_of_stringLength? {n : Nat} (h : stringLength? cs = some n) :
    ∃ before after, cs = before ++ '"' :: after ∧ Even (backslashesAtEnd before) := by
  fun_induction stringLength? cs generalizing n with
  | case1 => cases h
  | case2 cs => exact ⟨[], cs, rfl, by simp [backslashesAtEnd]⟩
  | case3 => cases h
  | case4 c cs ih =>
    obtain ⟨k, hk, -⟩ := Option.map_eq_some_iff.mp h
    obtain ⟨before, after, rfl, heven⟩ := ih hk
    exact ⟨'\\' :: c :: before, after, rfl, even_backslashesAtEnd_escape.mpr heven⟩
  | case5 c cs hquote hend hescape ih =>
    obtain ⟨k, hk, -⟩ := Option.map_eq_some_iff.mp h
    obtain ⟨before, after, rfl, heven⟩ := ih hk
    have hc : c ≠ '\\' := by
      rintro rfl
      rcases before with _ | ⟨d, before⟩ <;> exact hescape _ _ rfl rfl
    refine ⟨c :: before, after, rfl, ?_⟩
    rwa [backslashesAtEnd_cons_of_ne hc]

/-- A quote that no backslash takes is reached, unless a string literal ends before it. -/
theorem stringLength?_ne_none {before after : List Char} (hcs : cs = before ++ '"' :: after)
    (heven : Even (backslashesAtEnd before)) : stringLength? cs ≠ none := by
  -- an even number of backslashes leaves the quote, and an escape takes two characters at once
  fun_induction stringLength? cs generalizing before with
  | case1 => simp at hcs
  | case2 cs => simp
  | case3 =>
    rcases before with _ | ⟨d, before⟩ <;> simp at hcs
  | case4 c cs ih =>
    rw [Ne, Option.map_eq_none_iff]
    rcases before with _ | ⟨d, _ | ⟨e, before⟩⟩
    · cases hcs
    · cases hcs
      exact absurd heven (by decide)
    · cases hcs
      exact ih rfl (even_backslashesAtEnd_escape.mp heven)
  | case5 c cs hquote hend hescape ih =>
    rw [Ne, Option.map_eq_none_iff]
    rcases before with _ | ⟨d, before⟩
    · exact absurd (List.cons.inj hcs).1 hquote
    · cases hcs
      have hc : c ≠ '\\' := by
        rintro rfl
        rcases before with _ | ⟨e, before⟩ <;> exact hescape _ _ rfl rfl
      exact ih rfl (by rwa [← backslashesAtEnd_cons_of_ne hc])

/-- **No quote closes** just if no string literal is found. -/
theorem neverCloses_iff : NeverCloses cs ↔ stringLength? cs = none := by
  constructor
  · intro h
    rw [Option.eq_none_iff_forall_ne_some]
    intro n hn
    obtain ⟨before, after, hcs, heven⟩ := exists_quote_of_stringLength? hn
    exact h before after hcs heven
  · rintro h before after rfl heven
    exact stringLength?_ne_none rfl heven h

end Munch

/-! ## Marks of block comments -/

/-- **The marks of block comments.** -/
inductive BlockMark where
  /-- The mark that opens a block comment. -/
  | opener
  /-- The mark that closes it. -/
  | closer
deriving DecidableEq, Repr

/-- The characters of a mark. -/
def BlockMark.chars : BlockMark → List Char
  | opener => ['/', '*']
  | closer => ['*', '/']

/-- Both marks. -/
def BlockMark.all : List BlockMark :=
  [opener, closer]

theorem BlockMark.mem_all (m : BlockMark) : m ∈ all := by
  cases m <;> simp [all]

@[simp] theorem BlockMark.length_chars (m : BlockMark) : m.chars.length = 2 := by
  cases m <;> rfl

/-- **What stands in a block comment**: characters, and the block comments inside it. -/
inductive CommentBody where
  /-- Nothing. -/
  | empty
  /-- A character, and what stands behind it. -/
  | char (c : Char) (rest : CommentBody)
  /-- A block comment, and what stands behind it. -/
  | nested (inner rest : CommentBody)
deriving DecidableEq, Repr

namespace CommentBody

/-- The characters of a body, with the marks of the comments inside it. -/
def chars : CommentBody → List Char
  | empty => []
  | char c rest => c :: rest.chars
  | nested inner rest =>
    BlockMark.opener.chars ++ (inner.chars ++ (BlockMark.closer.chars ++ rest.chars))

/-- **The block comment** with the given body. -/
def comment (body : CommentBody) : List Char :=
  (nested body empty).chars

/-- The marks that are written in a body, with their offsets; the body starts at `offset`. -/
def marks (offset : Nat) : CommentBody → List (BlockMark × Nat)
  | empty => []
  | char _ rest => rest.marks (offset + 1)
  | nested inner rest =>
    (.opener, offset) :: (inner.marks (offset + 2) ++
      (.closer, offset + inner.chars.length + 2) :: rest.marks (offset + inner.chars.length + 4))

/-- **No other marks**: in the comment with this body no mark arises but those that are written. -/
def IsPlain (body : CommentBody) : Prop :=
  ∀ m ∈ BlockMark.all, ∀ i < body.comment.length,
    m.chars <+: body.comment.drop i → (m, i) ∈ (nested body empty).marks 0

instance (body : CommentBody) : Decidable body.IsPlain :=
  inferInstanceAs (Decidable (∀ m ∈ BlockMark.all, ∀ i < _, _))

/-- **The body reads as written** in front of `after`: from left to right, no mark starts at a
character of it that belongs to none. -/
def ReadsBefore : CommentBody → List Char → Prop
  | empty, _ => True
  | char c rest, after =>
    (∀ m : BlockMark, ¬ m.chars <+: c :: (rest.chars ++ after)) ∧ rest.ReadsBefore after
  | nested inner rest, after =>
    inner.ReadsBefore (BlockMark.closer.chars ++ (rest.chars ++ after)) ∧ rest.ReadsBefore after

variable {body : CommentBody} {after : List Char}

theorem le_of_mem_marks {m : BlockMark} {i offset : Nat} (h : (m, i) ∈ body.marks offset) :
    offset ≤ i ∧ i < offset + body.chars.length := by
  induction body generalizing offset with
  | empty => cases h
  | char c rest ih =>
    have := ih h
    simp only [chars, List.length_cons]
    omega
  | nested inner rest ihinner ihrest =>
    simp only [chars, BlockMark.chars, List.length_append, List.length_cons, List.length_nil]
    rcases List.mem_cons.mp h with h | h
    · cases h
      omega
    rcases List.mem_append.mp h with h | h
    · have := ihinner h
      omega
    rcases List.mem_cons.mp h with h | h
    · cases h
      omega
    · have := ihrest h
      omega

/-- A mark between those of a comment is one of its body. -/
theorem mem_marks_inner {m : BlockMark} {i offset : Nat} {inner rest : CommentBody}
    (h : (m, i) ∈ (nested inner rest).marks offset) (hle : offset + 2 ≤ i)
    (hlt : i < offset + 2 + inner.chars.length) : (m, i) ∈ inner.marks (offset + 2) := by
  rcases List.mem_cons.mp h with h | h
  · cases h
    omega
  rcases List.mem_append.mp h with h | h
  · exact h
  rcases List.mem_cons.mp h with h | h
  · cases h
    omega
  · have := le_of_mem_marks h
    omega

/-- A mark behind a comment is one of what stands behind it. -/
theorem mem_marks_rest {m : BlockMark} {i offset : Nat} {inner rest : CommentBody}
    (h : (m, i) ∈ (nested inner rest).marks offset) (hle : offset + inner.chars.length + 4 ≤ i) :
    (m, i) ∈ rest.marks (offset + inner.chars.length + 4) := by
  rcases List.mem_cons.mp h with h | h
  · cases h
    omega
  rcases List.mem_append.mp h with h | h
  · have := le_of_mem_marks h
    omega
  rcases List.mem_cons.mp h with h | h
  · cases h
    omega
  · exact h

/-- A body in which no mark arises but those that are written reads as written. -/
theorem readsBefore_of_marks (before : List Char)
    (h : ∀ (m : BlockMark) (i : Nat), before.length ≤ i → i < before.length + body.chars.length →
      m.chars <+: (before ++ (body.chars ++ after)).drop i → (m, i) ∈ body.marks before.length) :
    body.ReadsBefore after := by
  -- Induction on the body, with all that is written before it.
  induction body generalizing before after with
  | empty => trivial
  | char c rest ih =>
    refine ⟨fun m hm => ?_, ?_⟩
    · have hmem : (m, before.length) ∈ rest.marks (before.length + 1) :=
        h m before.length (Nat.le_refl _) (by simp [chars]) (by simpa [chars] using hm)
      have := le_of_mem_marks hmem
      omega
    · refine ih (before ++ [c]) fun m i hle hlt hm => ?_
      simp only [List.length_append, List.length_cons, List.length_nil] at hle hlt ⊢
      exact h m i (by omega) (by simp only [chars, List.length_cons]; omega)
        (by simpa [chars] using hm)
  | nested inner rest ihinner ihrest =>
    have hlen : (nested inner rest).chars.length = inner.chars.length + rest.chars.length + 4 := by
      simp only [chars, BlockMark.length_chars, List.length_append]
      omega
    refine ⟨?_, ?_⟩
    · refine ihinner (before ++ BlockMark.opener.chars) fun m i hle hlt hm => ?_
      rw [List.length_append, BlockMark.length_chars] at hle hlt ⊢
      exact mem_marks_inner (h m i (by omega) (by omega) (by simpa [chars] using hm)) hle hlt
    · have hbefore : (before ++ BlockMark.opener.chars ++ inner.chars ++
          BlockMark.closer.chars).length = before.length + inner.chars.length + 4 := by
        simp only [List.length_append, BlockMark.length_chars]
        omega
      refine ihrest (before ++ BlockMark.opener.chars ++ inner.chars ++ BlockMark.closer.chars)
        fun m i hle hlt hm => ?_
      rw [hbefore] at hle hlt ⊢
      exact mem_marks_rest (h m i (by omega) (by omega) (by simpa [chars] using hm)) hle

theorem IsPlain.readsBefore (h : body.IsPlain) (rest : List Char) :
    body.ReadsBefore (BlockMark.closer.chars ++ rest) := by
  refine readsBefore_of_marks BlockMark.opener.chars fun m i hle hlt hm => ?_
  have hcomment : BlockMark.opener.chars ++ (body.chars ++ (BlockMark.closer.chars ++ rest)) =
      body.comment ++ rest := by
    simp [comment, chars]
  have hlen : body.comment.length = body.chars.length + 4 := by
    simp only [comment, chars, BlockMark.length_chars, List.length_append, List.length_nil]
    omega
  rw [BlockMark.length_chars] at hle hlt ⊢
  rw [hcomment, List.drop_append_of_le_length (by omega)] at hm
  -- the mark ends within the comment, so it does not depend on what stands behind
  have hwithin : m.chars <+: body.comment.drop i := by
    refine List.prefix_of_prefix_length_le hm (List.prefix_append _ rest) ?_
    rw [BlockMark.length_chars, List.length_drop]
    omega
  exact mem_marks_inner (h m m.mem_all i (by omega) hwithin) (by omega) (by omega)

/-- **A body that reads as written is passed over as a whole**, and the comments around it stay
open. -/
theorem blockLength_chars (depth : Nat) (h : body.ReadsBefore after) :
    blockLength depth (body.chars ++ after) = body.chars.length + blockLength depth after := by
  induction body generalizing depth after with
  | empty => exact (Nat.zero_add _).symm
  | char c rest ih =>
    obtain ⟨hc, hrest⟩ := h
    -- the character begins no mark, or the body would not read as written
    have hopener : ∀ ds, c = '/' → rest.chars ++ after = '*' :: ds → False := by
      rintro ds rfl hds
      exact hc .opener ⟨ds, by rw [hds]; rfl⟩
    have hcloser : ∀ ds, c = '*' → rest.chars ++ after = '/' :: ds → False := by
      rintro ds rfl hds
      exact hc .closer ⟨ds, by rw [hds]; rfl⟩
    rw [chars, List.cons_append, blockLength_cons depth hopener hcloser, ih depth hrest,
      List.length_cons]
    omega
  | nested inner rest ihinner ihrest =>
    obtain ⟨hinner, hrest⟩ := h
    have hpass := ihinner (depth + 1) hinner
    simp only [chars, BlockMark.chars, List.cons_append, List.nil_append, List.append_assoc,
      List.length_cons, List.length_append, blockLength] at hpass ⊢
    rw [hpass, ihrest depth hrest]
    omega

/-- What stands behind a body that reads as written decides whether the comment is closed. -/
theorem closesBlock_chars (depth : Nat) (h : body.ReadsBefore after) :
    closesBlock depth (body.chars ++ after) = closesBlock depth after := by
  induction body generalizing depth after with
  | empty => rfl
  | char c rest ih =>
    rw [chars, List.cons_append, closesBlock, ih depth h.2]
    · rintro ds rfl hds
      exact h.1 .opener ⟨ds, by rw [hds]; rfl⟩
    · rintro ds rfl hds
      exact h.1 .closer ⟨ds, by rw [hds]; rfl⟩
  | nested inner rest ihinner ihrest =>
    obtain ⟨hinner, hrest⟩ := h
    have hpass := ihinner (depth + 1) hinner
    simp only [chars, BlockMark.chars, List.cons_append, List.nil_append, List.append_assoc,
      closesBlock] at hpass ⊢
    rw [hpass, ihrest depth hrest]

/-- **What closes a block comment** stands behind a body that reads as written; behind it the
comment around that one goes on, if there is one. -/
theorem exists_body_of_closesBlock {depth : Nat} {cs : List Char} (h : closesBlock depth cs) :
    ∃ (body : CommentBody) (rest : List Char),
      cs = body.chars ++ (BlockMark.closer.chars ++ rest) ∧
      body.ReadsBefore (BlockMark.closer.chars ++ rest) ∧
      ∀ outer, depth = outer + 1 → closesBlock outer rest := by
  -- Behind a comment inside, reading goes on at a place that induction on the text does not reach.
  induction hn : cs.length using Nat.strong_induction_on generalizing depth cs with
  | _ n ih =>
    subst hn
    unfold closesBlock at h
    split at h
    · cases h
    · rename_i ds
      have hinside : ds.length < ('/' :: '*' :: ds).length := by
        simp only [List.length_cons]
        omega
      obtain ⟨inner, mid, rfl, hinner, houter⟩ := ih ds.length hinside h rfl
      have hbehind : mid.length <
          ('/' :: '*' :: (inner.chars ++ (BlockMark.closer.chars ++ mid))).length := by
        simp only [List.length_cons, List.length_append]
        omega
      obtain ⟨body, rest, rfl, hbody, hdepth⟩ := ih _ hbehind (houter depth rfl) rfl
      refine ⟨nested inner body, rest, ?_, ⟨hinner, hbody⟩, hdepth⟩
      simp [chars, BlockMark.chars]
    · rename_i ds
      refine ⟨empty, ds, rfl, trivial, ?_⟩
      rintro outer rfl
      exact h
    · rename_i c ds hopener hcloser
      obtain ⟨body, rest, rfl, hbody, hdepth⟩ := ih _ (by simp) h rfl
      refine ⟨char c body, rest, rfl, ⟨?_, hbody⟩, hdepth⟩
      rintro (_ | _) ⟨ds, hds⟩
      · exact hopener ds (List.cons.inj hds).1.symm (List.cons.inj hds).2.symm
      · exact hcloser ds (List.cons.inj hds).1.symm (List.cons.inj hds).2.symm

/-- **The comment never ends**: no closing mark stands behind a body that reads as written. -/
def NeverEnds (cs : List Char) : Prop :=
  ∀ (body : CommentBody) (rest : List Char), cs = body.chars ++ (BlockMark.closer.chars ++ rest) →
    ¬ body.ReadsBefore (BlockMark.closer.chars ++ rest)

theorem neverEnds_iff {cs : List Char} : NeverEnds cs ↔ closesBlock 0 cs = false := by
  rw [← Bool.not_eq_true]
  constructor
  · intro h hclosed
    obtain ⟨body, rest, hcs, hbody, -⟩ := exists_body_of_closesBlock hclosed
    exact h body rest hcs hbody
  · rintro hopen body rest rfl hbody
    apply hopen
    rw [closesBlock_chars 0 hbody]
    rfl

end CommentBody

/-! ## Scanning -/

/-- **A string literal is taken whole.** -/
theorem takenWhole_string (s rest : List Char) :
    TakenWhole .literal (inQuotes '"' s) rest := by
  apply takenWhole_of_munch (by decide)
  have hlen := stringLength?_escapeFor s rest
  rw [List.append_assoc, List.singleton_append, List.length_append, List.length_singleton]
  simp [munch, hlen]

/-- **A quote that nothing closes** takes the rest of its line. -/
theorem takenWhole_openQuote {line rest : List Char} (hline : '\n' ∉ line)
    (hrest : ∀ c ∈ rest.head?, c = '\n') (h : NeverCloses (line ++ rest)) :
    TakenWhole .unknown ('"' :: line) rest := by
  apply takenWhole_of_munch (by decide)
  have hnone := neverCloses_iff.mp h
  have hend : restOfLine (line ++ rest) = line := by
    have hall : line.takeWhile (fun c => decide (c ≠ '\n')) = line := by
      rw [List.takeWhile_eq_self_iff]
      rintro c hc
      exact decide_eq_true fun h => hline (h ▸ hc)
    have hstop : rest.takeWhile (fun c => decide (c ≠ '\n')) = [] := by
      cases rest with
      | nil => rfl
      | cons c rest =>
        obtain rfl := hrest c rfl
        rfl
    rw [restOfLine, List.takeWhile_append_of_pos, hstop, List.append_nil]
    exact List.takeWhile_eq_self_iff.mp hall
  simp [munch, hnone, hend]

/-- What starts with the mark of a block comment is a comment of the length that is counted. -/
theorem exists_kind_munch_block (cs : List Char) :
    ∃ kind, kind.isComment ∧ munch '/' ('*' :: cs) = (kind, blockLength 0 cs + 1) := by
  refine ⟨blockCommentKind ('/' :: ('*' :: cs).take (blockLength 0 cs + 1)),
    isComment_commentKind _ _ _, ?_⟩
  simp [munch]

/-- **A block comment is taken whole.** -/
theorem exists_takenWhole_comment {body : CommentBody} {rest : List Char}
    (h : body.ReadsBefore (BlockMark.closer.chars ++ rest)) :
    ∃ kind, kind.isComment ∧ TakenWhole kind body.comment rest := by
  obtain ⟨kind, hkind, hmunch⟩ :=
    exists_kind_munch_block (body.chars ++ (BlockMark.closer.chars ++ rest))
  refine ⟨kind, hkind, takenWhole_of_munch (by decide) ?_⟩
  rw [CommentBody.blockLength_chars 0 h] at hmunch
  simpa [CommentBody.chars, BlockMark.chars, blockLength] using hmunch

/-- **A block comment that never ends** takes the rest of the text. -/
theorem exists_takenWhole_openComment {cs : List Char} (h : CommentBody.NeverEnds cs) :
    ∃ kind, kind.isComment ∧ TakenWhole kind ('/' :: '*' :: cs) [] := by
  obtain ⟨kind, hkind, hmunch⟩ := exists_kind_munch_block cs
  refine ⟨kind, hkind, takenWhole_of_munch (by decide) ?_⟩
  rw [blockLength_of_open (CommentBody.neverEnds_iff.mp h)] at hmunch
  simpa using hmunch

/-- **Literals and comments are taken whole**, whatever follows them. In front of any text a string
literal is one literal, and a block comment in which no mark arises but those that are written is
one comment. A quote that nothing closes is unknown up to the end of its line, and a block comment
that never ends is a comment up to the end of the text. -/
theorem takenWhole_scan (rest : List Char) :
    (∀ s, TakenWhole .literal (inQuotes '"' s) rest) ∧
    (∀ body : CommentBody, body.IsPlain →
      ∃ kind, kind.isComment ∧ TakenWhole kind body.comment rest) ∧
    (∀ line, '\n' ∉ line → (∀ c ∈ rest.head?, c = '\n') → NeverCloses (line ++ rest) →
      TakenWhole .unknown ('"' :: line) rest) ∧
    (∀ cs, CommentBody.NeverEnds cs →
      ∃ kind, kind.isComment ∧ TakenWhole kind ('/' :: '*' :: cs) []) :=
  ⟨fun s => takenWhole_string s rest,
    fun _ h => exists_takenWhole_comment (h.readsBefore rest),
    fun _ hline hrest h => takenWhole_openQuote hline hrest h,
    fun _ h => exists_takenWhole_openComment h⟩

/-- A body with brackets and a quote in it that have no partners. -/
def unpairedBody : CommentBody :=
  .char '"' (.nested (.char '\x7b' .empty) (.char ')' .empty))

/-- Brackets without partners are taken with the comment or the quote around them. -/
theorem takenWhole_unpaired :
    unpairedBody.IsPlain ∧ '\n' ∉ "(\\\"[".toList ∧ (∀ c ∈ "\nfn".toList.head?, c = '\n') ∧
    NeverCloses ("(\\\"[".toList ++ "\nfn".toList) ∧ CommentBody.NeverEnds "\x7b/*)*/".toList ∧
    TakenWhole .literal "\"\x7b\\\"\"".toList "\nfn".toList ∧
    (∃ kind, kind.isComment ∧ TakenWhole kind "/*\"/*\x7b*/)*/".toList "\nfn".toList) ∧
    TakenWhole .unknown "\"(\\\"[".toList "\nfn".toList ∧
    ∃ kind, kind.isComment ∧ TakenWhole kind "/*\x7b/*)*/".toList [] := by
  have hplain : unpairedBody.IsPlain := by decide
  have hline : '\n' ∉ "(\\\"[".toList := by decide
  have hrest : ∀ c ∈ "\nfn".toList.head?, c = '\n' := fun c hc => (Option.some.inj hc).symm
  have hopen : NeverCloses ("(\\\"[".toList ++ "\nfn".toList) := neverCloses_iff.mpr (by decide)
  have hends : CommentBody.NeverEnds "\x7b/*)*/".toList :=
    CommentBody.neverEnds_iff.mpr (by decide)
  obtain ⟨hstring, hcomment, hquote, hblock⟩ := takenWhole_scan "\nfn".toList
  exact ⟨hplain, hline, hrest, hopen, hends, hstring "\x7b\"".toList,
    hcomment unpairedBody hplain, hquote _ hline hrest hopen, hblock _ hends⟩

end KlarAudit

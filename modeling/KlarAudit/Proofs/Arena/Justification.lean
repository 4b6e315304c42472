import KlarAudit.Arena.UnsafeRegion
import KlarAudit.Proofs.Token.Lossless
import Mathlib.Data.List.Chain

/-!
# The comments above a token

An unsafe block is justified by the last comments above it: those that follow each other without a
free line, down to the last comment before the block. Looking for them goes backwards, line by line,
in two walks with a window each. Since no token ends on a later line than the next one starts on,
the two walks find exactly these comments.

## Main definitions

* `Unbroken run`: the tokens are comments without a free line between them
* `LastComments before front run c`: the last comments before a place
* `Justified before t`: the last comments justify the token `t`

## Main results

* `isSafetyComment_iff`: how a comment that justifies is written
* `pairwise_endLine_scan`: tokens end and start on increasing lines
* `LastComments.nearestComment?_eq`, `LastComments.isJustifiedBy_eq`: what the two walks find
* `justified_iff`: the two walks find out whether a token is justified
-/

namespace KlarAudit

/-! ## Comments that justify -/

/-- **The opening marks of comments**, those of documentation among them. -/
def commentMarks : List String :=
  ["//", "/*", "///", "/**"]

theorem startsWithSafety_iff (body : List Char) : startsWithSafety body ↔
    ∃ blanks rest, (∀ b ∈ blanks, Text.isBlank b) ∧
      body = blanks ++ ("SAFETY:".toList ++ rest) := by
  rw [startsWithSafety, List.isPrefixOf_iff_prefix]
  constructor
  · rintro ⟨rest, hrest⟩
    refine ⟨body.takeWhile Text.isBlank, rest, fun b hb => List.mem_takeWhile_imp hb, ?_⟩
    rw [hrest]
    exact List.takeWhile_append_dropWhile.symm
  · rintro ⟨blanks, rest, hblanks, rfl⟩
    refine ⟨rest, ?_⟩
    rw [Text.dropBlanks, List.dropWhile_append_of_pos hblanks]
    rfl

/-- What justifies does not start with a character that ends an opening mark. -/
theorem exists_cons_of_startsWithSafety {body : List Char} (h : startsWithSafety body) :
    ∃ c more, body = c :: more ∧ '/' ≠ c ∧ '*' ≠ c := by
  obtain ⟨blanks, rest, hblanks, rfl⟩ := (startsWithSafety_iff body).mp h
  cases blanks with
  | nil => exact ⟨'S', _, rfl, by decide, by decide⟩
  | cons b blanks =>
    have hb := hblanks b List.mem_cons_self
    refine ⟨b, _, rfl, ?_, ?_⟩ <;> exact fun heq => absurd hb (heq ▸ by decide)

section Munch

open Munch

theorem isComment_wordKind (word : String) : (wordKind word).isComment = false := by
  unfold wordKind
  split
  · rfl
  · split <;> rfl

/-- Only what starts with a mark is a comment. -/
theorem isComment_munch {c : Char} {cs : List Char}
    (h : ¬ (c = '/' ∧ (cs.head? = some '/' ∨ cs.head? = some '*'))) :
    (munch c cs).1.isComment = false := by
  unfold munch
  split
  · rename_i hline
    simp only [Bool.and_eq_true, decide_eq_true_eq, beq_iff_eq] at hline
    exact absurd ⟨hline.1, .inl hline.2⟩ h
  · split
    · rename_i hblock
      simp only [Bool.and_eq_true, decide_eq_true_eq, beq_iff_eq] at hblock
      exact absurd ⟨hblock.1, .inr hblock.2⟩ h
    · -- strings, characters, numbers, words and operators
      repeat' split
      all_goals first | rfl | exact isComment_wordKind _

/-- A line comment is categorized by its text. -/
theorem munch_line (cs : List Char) :
    (munch '/' ('/' :: cs)).1 = lineCommentKind ('/' :: '/' :: restOfLine cs) ∧
      ('/' :: cs).take (munch '/' ('/' :: cs)).2 = '/' :: restOfLine cs := by
  have hrest : restOfLine ('/' :: cs) = '/' :: restOfLine cs := rfl
  have hcs : cs.take (restOfLine cs).length = restOfLine cs :=
    (List.prefix_iff_eq_take.mp (List.takeWhile_prefix _)).symm
  simp [munch, hrest, hcs]

/-- A block comment is categorized by its text. -/
theorem munch_block (cs : List Char) :
    (munch '/' ('*' :: cs)).1 =
        blockCommentKind ('/' :: '*' :: cs.take (blockLength 0 cs)) ∧
      ('*' :: cs).take (munch '/' ('*' :: cs)).2 = '*' :: cs.take (blockLength 0 cs) := by
  simp [munch]

end Munch

theorem Token.isComment_of_isSafetyComment {t : Token} (h : t.isSafetyComment) : t.isComment := by
  unfold isSafetyComment at h
  unfold isComment
  split at h
  · rename_i hk
    simp [hk, TokenKind.isComment]
  · rename_i hk
    simp [hk, TokenKind.isComment]
  · cases h

/-- What justifies stands right behind the mark, which ends with `x`, or behind one more `x`. -/
theorem isSafetyComment_of_commentKind {x : Char} {doc notDoc : String}
    (hdoc : doc.toList = ['/', x, x]) (hnot : notDoc.toList = ['/', x, x, '/'])
    (hx : x = '/' ∨ x = '*') {t : Token} {more : List Char}
    (htext : t.text.toList = '/' :: x :: more)
    (hkind : t.kind = Munch.commentKind doc notDoc t.text.toList) :
    t.isSafetyComment ↔
      startsWithSafety more ∨ ∃ rest, more = x :: rest ∧ startsWithSafety rest := by
  rw [htext] at hkind
  -- documentation is searched behind its third character, any other comment behind its second
  constructor
  · intro h
    unfold Munch.commentKind at hkind
    split at hkind
    · rename_i hmark
      simp only [hdoc, Bool.and_eq_true, List.isPrefixOf_iff_prefix] at hmark
      obtain ⟨rest, hrest⟩ := hmark.1
      obtain rfl : x :: rest = more := by simpa using hrest
      refine .inr ⟨rest, rfl, ?_⟩
      simpa [Token.isSafetyComment, hkind, htext] using h
    · split at hkind
      · rename_i hsafety
        exact .inl hsafety
      · simp [Token.isSafetyComment, hkind] at h
  · rintro (h | ⟨rest, rfl, h⟩)
    · obtain ⟨c, more, rfl, hslash, hstar⟩ := exists_cons_of_startsWithSafety h
      have hne : x ≠ c := by
        rcases hx with rfl | rfl
        · exact hslash
        · exact hstar
      have hsafety : t.kind = .safetyComment := by
        simp [hkind, Munch.commentKind, hdoc, hne, h]
      simp [Token.isSafetyComment, hsafety]
    · obtain ⟨c, more, rfl, hslash, -⟩ := exists_cons_of_startsWithSafety h
      have hdocumentation : t.kind = .docComment := by
        simp [hkind, Munch.commentKind, hdoc, hnot, hslash]
      simp [Token.isSafetyComment, hdocumentation, htext, h]

/-- A token that starts with a mark is a comment, and justifies by what stands behind the mark. -/
theorem isSafetyComment_of_mark {x : Char} (hx : x = '/' ∨ x = '*') {t : Token} {cs : List Char}
    (hkind : t.kind = (munch '/' (x :: cs)).1)
    (htext : t.text.toList = '/' :: (x :: cs).take (munch '/' (x :: cs)).2) :
    ∃ more, t.text.toList = '/' :: x :: more ∧ (t.isSafetyComment ↔
      startsWithSafety more ∨ ∃ rest, more = x :: rest ∧ startsWithSafety rest) := by
  rcases hx with rfl | rfl
  · obtain ⟨hmunch, htake⟩ := munch_line cs
    rw [htake] at htext
    rw [hmunch, ← htext] at hkind
    exact ⟨_, htext, isSafetyComment_of_commentKind (by decide) (by decide) (.inl rfl) htext hkind⟩
  · obtain ⟨hmunch, htake⟩ := munch_block cs
    rw [htake] at htext
    rw [hmunch, ← htext] at hkind
    exact ⟨_, htext, isSafetyComment_of_commentKind (by decide) (by decide) (.inr rfl) htext hkind⟩

/-- What follows an opening mark stands behind two characters, or behind a third one that repeats
the second. -/
theorem exists_mark_iff (text : List Char) :
    (∃ mark ∈ commentMarks, ∃ blanks rest, (∀ b ∈ blanks, Text.isBlank b) ∧
      text = mark.toList ++ (blanks ++ ("SAFETY:".toList ++ rest))) ↔
    ∃ x more, (x = '/' ∨ x = '*') ∧ text = '/' :: x :: more ∧
      (startsWithSafety more ∨ ∃ rest, more = x :: rest ∧ startsWithSafety rest) := by
  constructor
  · rintro ⟨mark, hmark, blanks, rest, hblanks, rfl⟩
    have hsafety : startsWithSafety (blanks ++ ("SAFETY:".toList ++ rest)) :=
      (startsWithSafety_iff _).mpr ⟨blanks, rest, hblanks, rfl⟩
    simp only [commentMarks, List.mem_cons, List.not_mem_nil, or_false] at hmark
    -- two marks are their first characters, the other two repeat the second one
    rcases hmark with rfl | rfl | rfl | rfl
    · exact ⟨'/', _, .inl rfl, rfl, .inl hsafety⟩
    · exact ⟨'*', _, .inr rfl, rfl, .inl hsafety⟩
    · exact ⟨'/', _, .inl rfl, rfl, .inr ⟨_, rfl, hsafety⟩⟩
    · exact ⟨'*', _, .inr rfl, rfl, .inr ⟨_, rfl, hsafety⟩⟩
  · rintro ⟨x, more, hx, rfl, hsafety | ⟨rest, rfl, hsafety⟩⟩
    · obtain ⟨blanks, rest, hblanks, rfl⟩ := (startsWithSafety_iff _).mp hsafety
      rcases hx with rfl | rfl
      · exact ⟨"//", by decide, blanks, rest, hblanks, rfl⟩
      · exact ⟨"/*", by decide, blanks, rest, hblanks, rfl⟩
    · obtain ⟨blanks, rest, hblanks, rfl⟩ := (startsWithSafety_iff _).mp hsafety
      rcases hx with rfl | rfl
      · exact ⟨"///", by decide, blanks, rest, hblanks, rfl⟩
      · exact ⟨"/**", by decide, blanks, rest, hblanks, rfl⟩

/-- **A comment that justifies** starts with an opening mark, blanks and `SAFETY:`. -/
theorem isSafetyComment_iff {s : String} {t : Token} (ht : t ∈ scan s) : t.isSafetyComment ↔
    ∃ mark ∈ commentMarks, ∃ blanks rest, (∀ b ∈ blanks, Text.isBlank b) ∧
      t.text.toList = mark.toList ++ (blanks ++ ("SAFETY:".toList ++ rest)) := by
  have hscan : t ∈ scanAt s 0 := ht
  obtain ⟨-, -, c, after, -, hkind, htext⟩ := standsIn_of_mem_scanAt hscan
  rw [exists_mark_iff]
  constructor
  · intro h
    have hmark : c = '/' ∧ (after.head? = some '/' ∨ after.head? = some '*') := by
      -- what starts without a mark is no comment
      by_contra hnot
      have hplain : t.isComment = false := (congrArg TokenKind.isComment hkind).trans
        (isComment_munch hnot)
      rw [Token.isComment_of_isSafetyComment h] at hplain
      cases hplain
    obtain ⟨x, cs, hx, rfl⟩ : ∃ x cs, (x = '/' ∨ x = '*') ∧ after = x :: cs := by
      cases after with
      | nil => simp at hmark
      | cons x cs => exact ⟨x, cs, by simpa using hmark.2, rfl⟩
    rw [hmark.1] at hkind htext
    obtain ⟨more, hmore, hiff⟩ := isSafetyComment_of_mark hx hkind htext
    exact ⟨x, more, hx, hmore, hiff.mp h⟩
  · rintro ⟨x, more, hx, hmore, hjustifies⟩
    obtain ⟨rfl, htake⟩ := List.cons.inj (htext.symm.trans hmore)
    obtain ⟨cs, rfl⟩ : ∃ cs, after = x :: cs := by
      obtain ⟨cs, hcs⟩ := List.take_prefix (munch '/' after).2 after
      rw [htake] at hcs
      exact ⟨more ++ cs, hcs.symm⟩
    obtain ⟨more', hmore', hiff⟩ := isSafetyComment_of_mark hx hkind htext
    obtain rfl : more' = more := by simpa [hmore'] using hmore
    exact hiff.mpr hjustifies

/-! ## Tokens stand on increasing lines -/

/-- A token does not end on an earlier line than it starts on. -/
theorem Token.line_le_endLine (t : Token) : t.line ≤ t.endLine :=
  Nat.le_add_right _ _

/-- Reading further does not lead to an earlier line. -/
theorem line_advanceAll_take_le (p : Position) (cs : List Char) {m n : Nat} (h : m ≤ n) :
    (p.advanceAll (cs.take m)).line ≤ (p.advanceAll (cs.take n)).line := by
  rw [Position.line_advanceAll, Position.line_advanceAll]
  exact Nat.add_le_add_left ((List.take_prefix_take_left h).sublist.count_le _) _

/-- **Tokens stand on increasing lines**: none ends on a later line than the next one starts on. -/
theorem pairwise_endLine_scan (s : String) :
    (scan s).Pairwise fun a b => a.endLine ≤ b.line := by
  refine (pairwise_scan s).imp_of_mem fun {a b} ha hb hab => ?_
  have ha : a ∈ scanAt s 0 := ha
  have hb : b ∈ scanAt s 0 := hb
  obtain ⟨ha, -⟩ := standsIn_of_mem_scanAt ha
  obtain ⟨hb, -⟩ := standsIn_of_mem_scanAt hb
  have hend : a.endLine = (Position.start.advanceAll (s.toList.take a.stop)).line := by
    rw [ha.take_stop, Position.advanceAll_append, ← ha.pos_eq, Position.line_advanceAll]
    rfl
  have hline : b.line = (Position.start.advanceAll (s.toList.take b.start)).line :=
    congrArg Position.line hb.pos_eq
  rw [hend, hline]
  exact line_advanceAll_take_le _ _ hab

/-! ## The last comments before a place -/

/-- The token `b` starts on the line on which `a` ends, or on the line below. -/
def Token.Meets (a b : Token) : Prop :=
  a.endLine = b.line ∨ a.endLine + 1 = b.line

/-- **An unbroken run of comments**: there is no free line between them. -/
structure Unbroken (run : List Token) : Prop where
  /-- They are comments. -/
  comment : ∀ c ∈ run, c.isComment
  /-- Each ends on the line on which the next one starts, or on the line above. -/
  meets : run.IsChain Token.Meets

/-- **The last comments before a place**: `c` is the last comment of the tokens before it, and the
longest unbroken run of comments that ends with `c` starts behind the tokens `front`. -/
structure LastComments (before front run : List Token) (c : Token) : Prop where
  /-- Behind `c` there is no comment. -/
  split : ∃ between, before = front ++ (run ++ c :: between) ∧ ∀ t ∈ between, t.isComment = false
  /-- The run is unbroken. -/
  unbroken : Unbroken (run ++ [c])
  /-- It does not go on to the front. -/
  longest : ∀ t ∈ front.getLast?, ¬ Unbroken (t :: (run ++ [c]))

/-- **The last comments justify the token** `t`: they reach down to its line or the line above, and
one of them justifies. -/
def Justified (before : List Token) (t : Token) : Prop :=
  ∃ front run c, LastComments before front run c ∧ t.line ≤ c.endLine + 1 ∧
    ∃ s ∈ run ++ [c], s.isSafetyComment

/-- An unbroken run can be made longer until it does not go on. -/
theorem exists_longest {run : List Token} {c : Token} (h : Unbroken (run ++ [c]))
    (ts : List Token) : ∃ front more, ts ++ run = front ++ (more ++ run) ∧
      Unbroken (more ++ run ++ [c]) ∧
      ∀ t ∈ front.getLast?, ¬ Unbroken (t :: (more ++ run ++ [c])) := by
  -- Induction from the back: a token either continues the run or ends it.
  induction ts using List.reverseRecOn generalizing run with
  | nil => exact ⟨[], [], rfl, h, nofun⟩
  | append_singleton ts t ih =>
    by_cases hgoes : Unbroken (t :: (run ++ [c]))
    · have hlonger : Unbroken (t :: run ++ [c]) := hgoes
      obtain ⟨front, more, hsplit, hrun, hlongest⟩ := ih hlonger
      refine ⟨front, more ++ [t], ?_, ?_, ?_⟩
      · simpa using hsplit
      · simpa using hrun
      · simpa using hlongest
    · refine ⟨ts ++ [t], [], rfl, h, ?_⟩
      simpa using hgoes

/-- The last comment, if there is any. -/
theorem exists_lastComment {before : List Token} (h : ∃ c ∈ before, c.isComment) :
    ∃ ts c between, before = ts ++ c :: between ∧ c.isComment ∧
      ∀ t ∈ between, t.isComment = false := by
  induction before using List.reverseRecOn with
  | nil =>
    obtain ⟨c, hc, -⟩ := h
    cases hc
  | append_singleton ts t ih =>
    cases ht : t.isComment with
    | true => exact ⟨ts, t, [], rfl, ht, nofun⟩
    | false =>
      obtain ⟨c, hc, hcomment⟩ := h
      rcases List.mem_append.mp hc with hc | hc
      · obtain ⟨front, c, between, rfl, hcomment, hbetween⟩ := ih ⟨c, hc, hcomment⟩
        refine ⟨front, c, between ++ [t], by simp, hcomment, ?_⟩
        exact List.forall_mem_append.mpr ⟨hbetween, by simpa using ht⟩
      · rw [List.mem_singleton.mp hc, ht] at hcomment
        cases hcomment

/-- **There are last comments** if there is any comment. -/
theorem exists_lastComments {before : List Token} (h : ∃ c ∈ before, c.isComment) :
    ∃ front run c, LastComments before front run c := by
  obtain ⟨ts, c, between, rfl, hc, hbetween⟩ := exists_lastComment h
  have hone : Unbroken ([] ++ [c]) := ⟨by simpa using hc, .singleton c⟩
  obtain ⟨front, run, hsplit, hrun, hlongest⟩ := exists_longest hone ts
  simp only [List.append_nil] at hsplit hrun hlongest
  refine ⟨front, run, c, ⟨between, ?_, hbetween⟩, hrun, hlongest⟩
  rw [hsplit, List.append_assoc]

/-! ## The two walks -/

theorem nearestComment?_eq_none {ts : List Token} (h : ∀ t ∈ ts, t.isComment = false)
    (line : Nat) : nearestComment? line ts = none := by
  induction ts with
  | nil => rfl
  | cons t ts ih =>
    obtain ⟨ht, hts⟩ := List.forall_mem_cons.mp h
    rw [nearestComment?, ih hts]
    simp [ht]

/-- **The first walk** finds the nearest comment, unless it ends too far above: then some token
before it may, and none behind it does. -/
theorem nearestComment?_append {between rest : List Token} {c : Token} {line : Nat}
    (hc : c.isComment) (hbetween : ∀ t ∈ between, t.isComment = false)
    (hlines : ∀ t ∈ between, c.endLine ≤ t.endLine) :
    nearestComment? line (between ++ c :: rest) =
      if line ≤ c.endLine + 1 then some (c, rest) else none := by
  induction between with
  | nil =>
    rw [List.nil_append, nearestComment?, if_pos hc]
  | cons t between ih =>
    obtain ⟨ht, hbetween⟩ := List.forall_mem_cons.mp hbetween
    obtain ⟨hline, hlines⟩ := List.forall_mem_cons.mp hlines
    rw [List.cons_append, nearestComment?, ih hbetween hlines]
    -- if `t` ends too far above, so does the comment, which does not end later
    by_cases hnear : line ≤ t.endLine + 1
    · simp [hnear, ht]
    · rw [if_neg hnear, if_neg (by omega)]

/-- The token `b` starts on the line on which `a` ends, or above it, or on the line below. -/
def Token.Reaches (b a : Token) : Prop :=
  b.line ≤ a.endLine + 1

/-- **The second walk** goes over the unbroken comments, nearest first, up to the first token that
is none or ends too far above. -/
theorem isJustifiedBy_append {t : Token} {rs fs : List Token} (hrs : ∀ r ∈ rs, r.isComment)
    (hchain : (t :: rs).IsChain Token.Reaches)
    (hstop : ∀ f ∈ fs.head?, f.isComment → ¬ (t :: (rs ++ [f])).IsChain Token.Reaches) :
    isJustifiedBy t.line (rs ++ fs) = rs.any (·.isSafetyComment) := by
  induction rs generalizing t with
  | nil =>
    cases fs with
    | nil => rfl
    | cons f fs =>
      rw [List.nil_append, isJustifiedBy]
      cases hf : f.isComment with
      | false => rfl
      | true =>
        have hfar : ¬ t.line ≤ f.endLine + 1 := by
          simpa [Token.Reaches] using hstop f rfl hf
        simp [hfar]
  | cons r rs ih =>
    obtain ⟨hr, hrs⟩ := List.forall_mem_cons.mp hrs
    obtain ⟨hreaches, hchain⟩ := List.isChain_cons_cons.mp hchain
    -- the walk looks at one line above the last comment, and so does the chain
    have hnear : decide (t.line ≤ r.endLine + 1) = true := decide_eq_true hreaches
    rw [List.cons_append, isJustifiedBy, hr, hnear, ih hrs hchain]
    · rfl
    · intro f hf hcomment hlong
      exact hstop f hf hcomment (List.isChain_cons_cons.mpr ⟨hreaches, hlong⟩)

/-- Comments that stand on increasing lines are unbroken if each reaches the one before it. -/
theorem unbroken_iff {run : List Token} (hlines : run.Pairwise fun a b => a.endLine ≤ b.line) :
    Unbroken run ↔ (∀ c ∈ run, c.isComment) ∧ run.reverse.IsChain Token.Reaches := by
  rw [List.isChain_reverse]
  constructor
  · intro h
    refine ⟨h.comment, h.meets.imp fun a b hab => ?_⟩
    unfold Token.Reaches
    rcases hab with hab | hab <;> omega
  · rintro ⟨hcomment, hchain⟩
    refine ⟨hcomment, ?_⟩
    rw [List.isChain_iff_forall_rel_of_append_cons_cons] at hchain ⊢
    intro a b front back hsplit
    -- `b` does not start above the end of `a`, so to reach it is to meet it
    have hreaches : b.line ≤ a.endLine + 1 := hchain hsplit
    rw [hsplit] at hlines
    have hline := (List.pairwise_cons.mp (List.pairwise_append.mp hlines).2.1).1 b (by simp)
    unfold Token.Meets
    omega

section Walks

variable {before front run : List Token} {c : Token}

/-- **What the first walk finds** is the last comment. -/
theorem LastComments.nearestComment?_eq (h : LastComments before front run c)
    (hlines : before.Pairwise fun a b => a.endLine ≤ b.line) (line : Nat) :
    nearestComment? line before.reverse =
      if line ≤ c.endLine + 1 then some (c, run.reverse ++ front.reverse) else none := by
  obtain ⟨between, rfl, hbetween⟩ := h.split
  have hreverse : (front ++ (run ++ c :: between)).reverse =
      between.reverse ++ c :: (run.reverse ++ front.reverse) := by
    simp
  rw [hreverse]
  refine nearestComment?_append (h.unbroken.comment c (by simp)) ?_ ?_
  · intro t ht
    exact hbetween t (List.mem_reverse.mp ht)
  · intro t ht
    have hbehind := (List.pairwise_append.mp (List.pairwise_append.mp hlines).2.1).2.1
    have hline := (List.pairwise_cons.mp hbehind).1 t (List.mem_reverse.mp ht)
    have := t.line_le_endLine
    omega

/-- **What the second walk finds** is whether one of the last comments justifies. -/
theorem LastComments.isJustifiedBy_eq (h : LastComments before front run c)
    (hlines : before.Pairwise fun a b => a.endLine ≤ b.line) :
    isJustifiedBy c.line (c :: (run.reverse ++ front.reverse)) =
      (run ++ [c]).any (·.isSafetyComment) := by
  obtain ⟨between, rfl, -⟩ := h.split
  have hc := h.unbroken.comment c (by simp)
  have hrun : (run ++ [c]).Pairwise fun a b => a.endLine ≤ b.line :=
    hlines.sublist (by simp)
  have hchain : (c :: run.reverse).IsChain Token.Reaches := by
    simpa using ((unbroken_iff hrun).mp h.unbroken).2
  have hstop : ∀ f ∈ front.reverse.head?, f.isComment →
      ¬ (c :: (run.reverse ++ [f])).IsChain Token.Reaches := by
    -- one more comment that is reached would be a longer run
    intro f hf hcomment hlong
    rw [List.head?_reverse] at hf
    refine h.longest f hf ((unbroken_iff ?_).mpr ⟨?_, by simpa using hlong⟩)
    · obtain ⟨front, rfl⟩ := List.getLast?_eq_some_iff.mp hf
      refine hlines.sublist ?_
      simp
    · exact List.forall_mem_cons.mpr ⟨hcomment, h.unbroken.comment⟩
  have hwalk := isJustifiedBy_append
    (fun r hr => h.unbroken.comment r (List.mem_append_left _ (List.mem_reverse.mp hr)))
    hchain hstop
  have hnear := c.line_le_endLine
  rw [isJustifiedBy, hwalk, hc, decide_eq_true (Nat.le_succ_of_le hnear)]
  simp [Bool.or_comm]

end Walks

/-- **The two walks** find out whether the token is justified. -/
theorem justified_iff {before : List Token}
    (hlines : before.Pairwise fun a b => a.endLine ≤ b.line) (t : Token) :
    ((nearestComment? t.line before.reverse).any fun (c, rest) =>
      isJustifiedBy c.line (c :: rest)) = true ↔ Justified before t := by
  constructor
  · intro h
    -- where no comment stands before the token the first walk finds none
    have hany : ∃ c ∈ before, c.isComment := by
      by_contra hnone
      rw [nearestComment?_eq_none (by simpa using hnone)] at h
      cases h
    obtain ⟨front, run, c, hlast⟩ := exists_lastComments hany
    rw [hlast.nearestComment?_eq hlines] at h
    split at h
    · rename_i hnear
      simp only [Option.any_some, hlast.isJustifiedBy_eq hlines, List.any_eq_true] at h
      exact ⟨front, run, c, hlast, hnear, h⟩
    · cases h
  · rintro ⟨front, run, c, hlast, hnear, hsafety⟩
    rw [hlast.nearestComment?_eq hlines, if_pos hnear]
    simp only [Option.any_some, hlast.isJustifiedBy_eq hlines, List.any_eq_true]
    exact hsafety

end KlarAudit

import KlarAudit.Proofs.Grammar.Likeness
import KlarAudit.Proofs.Token.Word

/-!
# Reading words

A reader that is complete for a form reads every input that spells a word sequence of the form, and
stops behind it. What it reads does not depend on where the words stand, and it may look at the word
that follows, so what follows is spelled as well.

## Main definitions

* `Likeness.writing`: tokens are alike if they are written alike
* `Spelled ws ls`: the input is the words, and no two tokens touch
* `Parser.Reads p ws after R`: in front of the words `after`, `p` reads the words `ws` and gives a
  value that satisfies `R`
* `Attempt.Reads`: a reader that may record issues, and records none

## Main results

* `Reads.bind`: one reader after another
* `reads_group`, `reads_collect_clear`: bracket groups, and runs up to a terminator
* `spelled_scan_print`: what is written down spells the words
-/

namespace KlarAudit

/-- The likeness of tokens that are written alike. -/
def Likeness.writing : Likeness where
  tokens a b := a.written = b.written
  exact := False
  kind_eq h := congrArg Prod.fst h
  text_eq h := congrArg Prod.snd h
  eq_of_exact := False.elim

/-- A token of a text of one line. -/
def Token.onLine (offset : Nat) (kind : TokenKind) (text : String) : Token :=
  ⟨kind, text, ⟨offset, 1, offset + 1⟩⟩

/-- The token ends a run that stands in front of a terminator, where no bracket is open. -/
def Token.stops (t : Token) (terminators : List String) : Bool :=
  t.kind.isStructural && terminators.contains t.text

theorem Token.stops_iff {t : Token} {terminators : List String} :
    t.stops terminators = true ↔ t.kind.isStructural = true ∧ t.text ∈ terminators := by
  rw [stops, Bool.and_eq_true, List.contains_iff_mem]

theorem Token.stops_of_subset {t : Token} {terminators more : List String}
    (h : t.stops more = false) (hsub : terminators ⊆ more) : t.stops terminators = false := by
  refine Bool.eq_false_iff.mpr fun ht => Bool.eq_false_iff.mp h ?_
  rw [stops_iff] at ht ⊢
  exact ⟨ht.1, hsub ht.2⟩

theorem Likeness.stops_eq {L : Likeness} {a b : Token} (h : L.tokens a b)
    (terminators : List String) : a.stops terminators = b.stops terminators := by
  rw [Token.stops, Token.stops, L.kind_eq h, L.text_eq h]

/-- The tokens are the words at some places. -/
abbrev Spells (ws : List Word) (ts : List Token) : Prop :=
  Likeness.writing.runs (ws.map Word.token) ts

/-- The first word is the keyword or operator `s`. -/
def headIs (s : String) (ws : List Word) : Bool :=
  ws.head?.any (·.token.is s)

/-- **The input is the words**, and no two of its tokens touch. -/
structure Spelled (ws : List Word) (ls : List Lexeme) : Prop where
  tokens : Spells ws (ls.map Lexeme.token)
  apart : ls.Pairwise fun l m => l.token.stop < m.token.start

theorem nestAll_rel {L : Likeness} {stack stack' ts us : List Token} (hs : L.runs stack stack')
    (h : L.runs ts us) : Option.Rel L.runs (nestAll stack ts) (nestAll stack' us) := by
  induction h generalizing stack stack' with
  | nil => exact .some hs
  | @cons a b ts us hab _ ih =>
    have hnest := Likeness.nest_rel hs hab
    rw [nestAll_cons, nestAll_cons]
    cases ha : nest stack a with
    | none => rw [ha] at hnest; cases hb : nest stack' b <;> simp_all
    | some mid =>
      rw [ha] at hnest
      obtain ⟨mid', hb, hmid⟩ := exists_of_some_rel hnest
      rw [hb]
      exact ih hmid

/-- Tokens that are written alike nest alike. -/
theorem nestAll_eq_nil_iff {L : Likeness} {ts us : List Token} (h : L.runs ts us) :
    nestAll [] ts = some [] ↔ nestAll [] us = some [] := by
  have hrel := nestAll_rel .nil h
  constructor
  · intro hts
    rw [hts] at hrel
    obtain ⟨stack, hus, hstack⟩ := exists_of_some_rel hrel
    cases hstack
    exact hus
  · intro hus
    rw [hus] at hrel
    cases hts : nestAll [] ts with
    | none => rw [hts] at hrel; cases hrel
    | some stack =>
      rw [hts] at hrel
      cases hrel with
      | some hstack => cases hstack; rfl

theorem exists_append_of_runs_left {L : Likeness} {ts us vs : List Token}
    (h : L.runs (ts ++ us) vs) :
    ∃ ts' us', vs = ts' ++ us' ∧ L.runs ts ts' ∧ L.runs us us' := by
  induction ts generalizing vs with
  | nil => exact ⟨[], vs, rfl, .nil, h⟩
  | cons t ts ih =>
    cases h with
    | cons ht h =>
      obtain ⟨ts', us', rfl, hts, hus⟩ := ih h
      exact ⟨_ :: ts', us', rfl, .cons ht hts, hus⟩

theorem exists_append_of_runs {L : Likeness} {ts us vs : List Token} (h : L.runs ts (us ++ vs)) :
    ∃ us' vs', ts = us' ++ vs' ∧ L.runs us' us ∧ L.runs vs' vs :=
  ⟨ts.take us.length, ts.drop us.length, (List.take_append_drop ..).symm,
    List.forall₂_take_append ts us vs h, List.forall₂_drop_append ts us vs h⟩

namespace Spelled

variable {w : Word} {ws vs : List Word} {ls : List Lexeme}

/-- The first word, and what stands behind it. -/
theorem exists_cons (h : Spelled (w :: ws) ls) : ∃ l rest, ls = l :: rest ∧
    Likeness.writing.tokens w.token l.token ∧ Spelled ws rest ∧
    ∀ m ∈ rest, l.token.stop < m.token.start := by
  obtain ⟨htokens, hapart⟩ := h
  cases ls with
  | nil => cases htokens
  | cons l rest =>
    cases htokens with
    | cons hl hs =>
      rw [List.pairwise_cons] at hapart
      exact ⟨l, rest, rfl, hl, ⟨hs, hapart.2⟩, hapart.1⟩

/-- The words in front, and what stands behind them. -/
theorem exists_append (h : Spelled (ws ++ vs) ls) : ∃ front back, ls = front ++ back ∧
    Spells ws (front.map Lexeme.token) ∧ Spelled vs back := by
  induction ws generalizing ls with
  | nil => exact ⟨[], ls, rfl, .nil, h⟩
  | cons w ws ih =>
    obtain ⟨l, rest, rfl, hl, hrest, -⟩ := h.exists_cons
    obtain ⟨front, back, rfl, hfront, hback⟩ := ih hrest
    exact ⟨l :: front, back, rfl, .cons hl hfront, hback⟩

theorem eq_nil (h : Spelled [] ls) : ls = [] := by
  obtain ⟨htokens, -⟩ := h
  cases ls with
  | nil => rfl
  | cons l ls => cases htokens

theorem exists_of_ne_nil (h : Spelled ws ls) (hne : ws ≠ []) : ∃ l rest, ls = l :: rest := by
  obtain ⟨w, ws, rfl⟩ := List.exists_cons_of_ne_nil hne
  obtain ⟨l, rest, hls, -⟩ := h.exists_cons
  exact ⟨l, rest, hls⟩

/-- What comes next is seen in the words. -/
theorem nextIs_eq (h : Spelled ws ls) (s : String) : nextIs s ls = headIs s ws := by
  cases ws with
  | nil => rw [h.eq_nil]; rfl
  | cons w ws =>
    obtain ⟨l, rest, rfl, hl, -⟩ := h.exists_cons
    exact (Likeness.is_eq hl s).symm

theorem nextIs_of_headIs {s : String} (h : Spelled ws ls) (hs : headIs s ws = true) :
    nextIs s ls :=
  (h.nextIs_eq s).trans hs

theorem not_nextIs {s : String} (h : Spelled ws ls) (hs : headIs s ws = false) : ¬ nextIs s ls :=
  Bool.eq_false_iff.mp ((h.nextIs_eq s).trans hs)

end Spelled

theorem runs_of_written {ts us : List Token} (h : ts.map Token.written = us.map Token.written) :
    Likeness.writing.runs ts us := by
  have hrel := List.forall₂_eq_eq_eq ▸ h
  rwa [List.forall₂_map_left_iff, List.forall₂_map_right_iff] at hrel

theorem Lexeme.ofTokens_of_not_comment {ts : List Token} (h : ∀ t ∈ ts, t.isComment = false) :
    ofTokens ts = ts.map (⟨[], ·⟩) := by
  unfold ofTokens
  induction ts with
  | nil => rfl
  | cons t ts ih =>
    rw [List.forall_mem_cons] at h
    rw [ofTokensAfter, if_neg (by simp [h.1]), ih h.2]
    rfl

theorem Spells.isComment {ws : List Word} {ts : List Token} (h : Spells ws ts) :
    ∀ t ∈ ts, t.isComment = false := by
  induction ws generalizing ts with
  | nil => cases h; nofun
  | cons w ws ih =>
    cases h with
    | cons ht hs =>
      refine List.forall_mem_cons.mpr ⟨?_, ih hs⟩
      rw [Token.isComment, ← Likeness.writing.kind_eq ht]
      exact w.isComment_eq

theorem map_written_line (ws : List Word) :
    (Word.line ws).map (fun x => x.1.token.written) = ws.map fun w => w.token.written := by
  conv_rhs => rw [← Word.map_fst_line ws]
  rw [List.map_map]
  rfl

/-- **The input of what is written down** is the words. -/
theorem spelled_scan_print (lines : List (List Word)) :
    Spelled lines.flatten (Lexeme.ofTokens (scan (Word.print lines))) := by
  have hblank : ∀ x ∈ lines.flatMap Word.line, Text.isBlank x.2 := by
    intro x hx
    obtain ⟨ws, -, hws⟩ := List.mem_flatMap.mp hx
    exact Word.isBlank_of_mem_line x hws
  have hwritten := Word.written_scanFrom_spaced (p := .start) hblank
  have hapart := Word.apart_scanFrom_spaced (p := .start) hblank
  have hscan : scanFrom .start 0 (Word.spaced (lines.flatMap Word.line)) =
      scan (Word.print lines) := by
    rw [scan, Word.print, String.toList_ofList]
  rw [hscan] at hwritten hapart
  have htokens : Spells lines.flatten (scan (Word.print lines)) := by
    refine runs_of_written (Eq.trans ?_ hwritten.symm)
    rw [List.map_flatMap, List.map_map, List.map_flatten, List.flatMap_def]
    congr 2
    funext ws
    exact (map_written_line ws).symm
  rw [Lexeme.ofTokens_of_not_comment htokens.isComment]
  constructor
  · rw [List.map_map]
    exact List.map_id _ ▸ htokens
  · rw [List.pairwise_map]
    exact hapart

/-! ## Readers of words -/

namespace Parser

variable {α β : Type} {p : Parser α} {f : α → Parser β} {w : Word} {ws vs after : List Word}
  {R : α → Prop} {S : β → Prop}

/-- **A reader of words**: whatever input is the words `ws` and then the words `after`, the reader
takes `ws` from it and gives a value that satisfies `R`. -/
def Reads (p : Parser α) (ws after : List Word) (R : α → Prop) : Prop :=
  ∀ ls, Spelled (ws ++ after) ls → ∃ a rest, p ls = .ok (a, rest) ∧ Spelled after rest ∧ R a

theorem reads_pure {a : α} (h : R a) : Reads (pure a) [] after R :=
  fun ls hs => ⟨a, ls, rfl, hs, h⟩

theorem Reads.mono {T : α → Prop} (h : Reads p ws after R) (hT : ∀ a, R a → T a) :
    Reads p ws after T := by
  intro ls hs
  obtain ⟨a, rest, hp, hrest, hR⟩ := h ls hs
  exact ⟨a, rest, hp, hrest, hT a hR⟩

/-- **One reader after another.** -/
theorem Reads.bind (hp : Reads p ws (vs ++ after) R)
    (hf : ∀ a, R a → Reads (f a) vs after S) : Reads (p >>= f) (ws ++ vs) after S := by
  intro ls hs
  rw [List.append_assoc] at hs
  obtain ⟨a, mid, ha, hmid, hR⟩ := hp ls hs
  obtain ⟨b, rest, hb, hrest, hS⟩ := hf a hR mid hmid
  exact ⟨b, rest, bind_eq_ok.mpr ⟨a, mid, ha, hb⟩, hrest, hS⟩

/-- A reader of one word and another reader. -/
theorem Reads.word (hp : Reads p [w] (vs ++ after) R)
    (hf : ∀ a, R a → Reads (f a) vs after S) : Reads (p >>= f) (w :: vs) after S :=
  hp.bind hf

/-- A reader that finds nothing, and another reader. -/
theorem Reads.skip (hp : Reads p [] (vs ++ after) R)
    (hf : ∀ a, R a → Reads (f a) vs after S) : Reads (p >>= f) vs after S :=
  hp.bind hf

/-- A reader that gives the value `a` and reads nothing, and another reader. -/
theorem Reads.absent {a : α} (hp : Reads p [] (vs ++ after) (· = a))
    (hf : Reads (f a) vs after S) : Reads (p >>= f) vs after S :=
  hp.skip fun _ hb => hb ▸ hf

/-- A reader and another one that reads nothing. -/
theorem Reads.last (hp : Reads p ws after R) (hf : ∀ a, R a → Reads (f a) [] after S) :
    Reads (p >>= f) ws after S := by
  rw [← List.append_nil ws]
  exact hp.bind hf

theorem Reads.map {g : α → β} (hp : Reads p ws after R) (hg : ∀ a, R a → S (g a)) :
    Reads (g <$> p) ws after S := by
  intro ls hs
  obtain ⟨a, rest, ha, hrest, hR⟩ := hp ls hs
  exact ⟨g a, rest, map_eq_ok.mpr ⟨a, ha, rfl⟩, hrest, hg a hR⟩

/-! ## Single words -/

theorem is_of_mark (m : Mark) : m.word.token.is m.text := by
  cases m <;> rfl

theorem reads_expect (m : Mark) : Reads (expect m.text) [m.word] after fun _ => True := by
  intro ls hs
  obtain ⟨l, rest, rfl, hl, hrest, -⟩ := hs.exists_cons
  have his : l.token.is m.text := by
    rw [← Likeness.is_eq hl]
    exact is_of_mark m
  refine ⟨l.token, rest, ?_, hrest, trivial⟩
  simp only [expect, if_pos his]

theorem reads_expectName (what : String) (hw : w.kind = .identifier) :
    Reads (expectName what) [w] after fun t => t.text = w.text := by
  intro ls hs
  obtain ⟨l, rest, rfl, hl, hrest, -⟩ := hs.exists_cons
  have hkind : l.token.kind = .identifier := (Likeness.writing.kind_eq hl).symm.trans hw
  refine ⟨l.token, rest, ?_, hrest, (Likeness.writing.text_eq hl).symm⟩
  simp only [expectName, if_pos hkind]

theorem reads_accept (m : Mark) :
    Reads (accept m.text) [m.word] after fun r => ∃ t, r = some t := by
  intro ls hs
  obtain ⟨l, rest, rfl, hl, hrest, -⟩ := hs.exists_cons
  have his : l.token.is m.text := by
    rw [← Likeness.is_eq hl]
    exact is_of_mark m
  refine ⟨some l.token, rest, ?_, hrest, _, rfl⟩
  simp only [accept, if_pos his]

theorem reads_accept_none {s : String} (h : headIs s after = false) :
    Reads (accept s) [] after (· = none) := by
  intro ls hs
  rw [List.nil_append] at hs
  rw [← hs.nextIs_eq] at h
  refine ⟨none, ls, ?_, hs, rfl⟩
  cases ls with
  | nil => rfl
  | cons l ls =>
    have his : ¬ l.token.is s := Bool.eq_false_iff.mp h
    simp only [accept, if_neg his]

/-! ## Bracket groups and runs -/

theorem groupFrom_append {d : Delimiter} {o b : Token} {stack inner : List Token} {l : Lexeme}
    {front back : List Lexeme} (hb : b.opens? = some d) (hl : l.token.closes? = some d)
    (hnest : nestAll inner (front.map Lexeme.token) = some []) (hstack : o :: stack = inner ++ [b]) :
    groupFrom o stack (front ++ l :: back) = .ok (l.token, back) := by
  induction front generalizing o stack inner with
  | nil =>
    obtain rfl : inner = [] := Option.some.inj hnest
    obtain ⟨rfl, rfl⟩ := List.cons.inj hstack
    simp only [List.nil_append, groupFrom, nest_of_closes? hl hb]
  | cons m front ih =>
    obtain ⟨mid, hmid, hnest⟩ := Option.bind_eq_some_iff.mp hnest
    have hstep : nest (o :: stack) m.token = some (mid ++ [b]) := by
      rw [hstack]
      exact nest_append hmid [b]
    obtain ⟨o', stack', hmid'⟩ := List.exists_cons_of_ne_nil (List.concat_ne_nil b mid)
    simp only [List.cons_append, groupFrom, hstep, hmid']
    exact ih hnest hmid'.symm

theorem collectFrom_step {terminators : List String} {angles : Bool} {stack stack' : List Token}
    {angle : Nat} {l : Lexeme} {ls : List Lexeme}
    (hl : stack = [] → angle = 0 → l.token.stops terminators = false)
    (hn : nest stack l.token = some stack') :
    collectFrom terminators angles stack angle (l :: ls) =
      (collectFrom terminators angles stack'
        (if angles && stack.isEmpty then angleAfter angle l.token else angle) ls).map
          fun (ts, ls) => (l.token :: ts, ls) := by
  have hgo : ¬ (stack.isEmpty && angle == 0 && l.token.kind.isStructural &&
      terminators.contains l.token.text) = true := by
    intro h
    simp only [Bool.and_eq_true, List.isEmpty_iff, beq_iff_eq] at h
    have hfree := hl h.1.1.1 h.1.1.2
    rw [Token.stops, h.1.2, h.2] at hfree
    cases hfree
  rw [collectFrom, if_neg hgo, hn]

theorem collectFrom_stop {terminators : List String} {angles : Bool} {l : Lexeme}
    {ls : List Lexeme} (hl : l.token.stops terminators) :
    collectFrom terminators angles [] 0 (l :: ls) = .ok ([], l :: ls) := by
  rw [Token.stops, Bool.and_eq_true] at hl
  rw [collectFrom, if_pos (by rw [hl.1, hl.2]; rfl)]

theorem collectFrom_append {terminators : List String} {stack : List Token} {l : Lexeme}
    {front back : List Lexeme} (hnest : nestAll stack (front.map Lexeme.token) = some [])
    (hclear : ∀ us t vs, front.map Lexeme.token = us ++ t :: vs → nestAll stack us = some [] →
      t.stops terminators = false) (hl : l.token.stops terminators) :
    collectFrom terminators false stack 0 (front ++ l :: back) =
      .ok (front.map Lexeme.token, l :: back) := by
  induction front generalizing stack with
  | nil =>
    obtain rfl : stack = [] := Option.some.inj hnest
    exact collectFrom_stop hl
  | cons m front ih =>
    obtain ⟨mid, hmid, hnest⟩ := Option.bind_eq_some_iff.mp hnest
    have hgo : stack = [] → 0 = 0 → m.token.stops terminators = false := by
      rintro rfl -
      exact hclear [] m.token _ rfl rfl
    have hrest := ih hnest fun us t vs h hus =>
      hclear (m.token :: us) t vs (congrArg (m.token :: ·) h)
        (by rw [nestAll_cons, hmid]; exact hus)
    rw [List.cons_append, collectFrom_step hgo hmid]
    simp only [Bool.false_and, Bool.false_eq_true, if_false, hrest]
    rfl

variable {o c : Mark}

/-- **A bracket group**, whatever balanced words stand in it. -/
theorem reads_group {d : Delimiter} (ho : o.word.token.opens? = some d)
    (hc : c.word.token.closes? = some d) (hw : WellNested (ws.map Word.token)) :
    Reads (group o.text) (o.word :: (ws ++ [c.word])) after fun r => ∃ g, r = some g := by
  intro ls hs
  obtain ⟨m, rest, rfl, hm, hrest, -⟩ := hs.exists_cons
  change Spelled ((ws ++ [c.word]) ++ after) rest at hrest
  rw [List.append_assoc] at hrest
  obtain ⟨front, back, rfl, hfront, hback⟩ := hrest.exists_append
  obtain ⟨l, back, rfl, hl, hback, -⟩ := hback.exists_cons
  have his : m.token.is o.text := by
    rw [← Likeness.is_eq hm]
    exact is_of_mark o
  rw [Likeness.opens?_eq hm] at ho
  rw [Likeness.closes?_eq hl] at hc
  have hgroup : groupFrom m.token [] (front ++ l :: back) = .ok (l.token, back) :=
    groupFrom_append ho hc ((nestAll_eq_nil_iff hfront).mp hw) rfl
  refine ⟨some (m.token, l.token), back, ?_, hback, _, rfl⟩
  simp only [group, if_pos his, hgroup]
  rfl

theorem reads_group_none {s : String} (h : headIs s after = false) :
    Reads (group s) [] after (· = none) := by
  intro ls hs
  rw [List.nil_append] at hs
  rw [← hs.nextIs_eq] at h
  refine ⟨none, ls, ?_, hs, rfl⟩
  cases ls with
  | nil => rfl
  | cons l ls =>
    have his : ¬ l.token.is s := Bool.eq_false_iff.mp h
    simp only [group, if_neg his]

/-- **A run up to a terminator**, whatever balanced words stand in it, if none of them that stands
outside brackets ends the run. -/
theorem reads_collect_clear {terminators : List String} {w : Word}
    (hw : WellNested (ws.map Word.token))
    (hclear : ∀ us t vs, ws.map Word.token = us ++ t :: vs → WellNested us →
      t.stops terminators = false)
    (hstop : w.token.stops terminators) :
    Reads (collect terminators false) ws (w :: after) (Spells ws) := by
  intro ls hs
  obtain ⟨front, back, rfl, hfront, hback⟩ := hs.exists_append
  obtain ⟨l, rest, rfl, hl, -⟩ := hback.exists_cons
  rw [Likeness.stops_eq hl] at hstop
  refine ⟨front.map Lexeme.token, l :: rest, ?_, hback, hfront⟩
  refine collectFrom_append ((nestAll_eq_nil_iff hfront).mp hw) ?_ hstop
  -- a token outside brackets comes from a word outside brackets
  intro us t vs h hus
  rw [h] at hfront
  obtain ⟨us', more, hwords, hus', hmore⟩ := exists_append_of_runs hfront
  cases hmore with
  | @cons t' _ vs' _ ht _ =>
    rw [← Likeness.stops_eq ht]
    exact hclear us' t' vs' hwords ((nestAll_eq_nil_iff hus').mpr hus)

end Parser

/-! ## Readers that may record issues -/

namespace Attempt

variable {α β : Type} {p : Parser α} {ws after : List Word} {R : α → Prop} {S : β → Prop}

/-- **A reader of words that records nothing.** -/
def Reads (x : List Lexeme → Attempt (α × List Lexeme)) (ws after : List Word)
    (R : α → Prop) : Prop :=
  ∀ ls, Spelled (ws ++ after) ls →
    ∃ a rest, x ls = ⟨[], .ok (a, rest)⟩ ∧ Spelled after rest ∧ R a

theorem reads_ofParser (h : p.Reads ws after R) : Reads (ofParser p) ws after R := by
  intro ls hs
  obtain ⟨a, rest, hp, hrest, hR⟩ := h ls hs
  exact ⟨a, rest, congrArg (Attempt.mk []) hp, hrest, hR⟩

theorem reads_map {f : α → β} (h : p.Reads ws after R) (hf : ∀ a, R a → S (f a)) :
    Reads (ofParser (f <$> p)) ws after S :=
  reads_ofParser (h.map hf)

end Attempt

end KlarAudit

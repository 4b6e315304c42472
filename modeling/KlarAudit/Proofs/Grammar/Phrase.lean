import KlarAudit.Proofs.Grammar.Spelling

/-!
# Phrases

A phrase is a run in which brackets are balanced, angle brackets among them, so that its tokens fall
into groups and tokens outside them. Types and bounds are phrases. Three functions walk over a run
and keep count of the brackets that are open, each in its own way: a reader up to a terminator, the
search for a colon and the cut at commas. Over a phrase all three come back to where they were.

## Main definitions

* `Phrase p ts`: a balanced run whose tokens outside groups satisfy `p`

## Main results

* `collectFrom_phrase`, `colonFrom?_phrase`, `splitFrom_phrase`: the three walks over a phrase
* `reads_collect_phrase`: a phrase is read up to the terminator behind it
* `splitCommas_intercalate`: phrases with commas between them are taken apart again
-/

namespace KlarAudit

/-! ## Brackets and angle brackets -/

/-- The token `c` closes the group that the token `o` opens. -/
def Token.ClosedBy (o c : Token) : Prop :=
  (∃ d, o.opens? = some d ∧ c.closes? = some d) ∨ o.isOperator "<" ∧ c.isOperator ">"

/-- The token is no bracket of any kind. -/
def Token.isFlat (t : Token) : Bool :=
  t.opens?.isNone && t.closes?.isNone && !t.isOperator "<" && !t.isOperator ">"

namespace Token

variable {t o c : Token}

theorem isFlat_iff : t.isFlat ↔
    t.opens? = none ∧ t.closes? = none ∧ t.isOperator "<" = false ∧ t.isOperator ">" = false := by
  simp only [isFlat, Bool.and_eq_true, Option.isNone_iff_eq_none, Bool.not_eq_true', and_assoc]

theorem text_of_isOperator {s : String} (h : t.isOperator s) : t.text = s := by
  simp only [isOperator, Bool.and_eq_true, beq_iff_eq] at h
  exact h.2

theorem opens?_of_isOperator {s : String} (h : t.isOperator s) (hs : Plain s) : t.opens? = none :=
  opens?_eq_none_of_text ((text_of_isOperator h).symm ▸ hs)

theorem closes?_of_isOperator {s : String} (h : t.isOperator s) (hs : Plain s) :
    t.closes? = none :=
  closes?_eq_none_of_text ((text_of_isOperator h).symm ▸ hs)

/-- Two operators with different texts are not the same. -/
theorem isOperator_of_ne {s : String} (h : t.text ≠ s) : t.isOperator s = false := by
  simp [isOperator, h]

/-- An operator has one text. -/
theorem isOperator_eq {s : String} (h : t.isOperator s) (s' : String) :
    t.isOperator s' = (s == s') := by
  simp only [isOperator, Bool.and_eq_true, beq_iff_eq] at h
  simp [isOperator, h.1, h.2]

theorem isOperator_of_identifier (h : t.kind = .identifier) (s : String) :
    t.isOperator s = false := by
  simp [isOperator, h]

theorem is_of_ne {s : String} (h : t.text ≠ s) : t.is s = false := by
  simp [is, h]

theorem is_of_isOperator {s : String} (h : t.isOperator s) : t.is s := by
  simp only [isOperator, Bool.and_eq_true, beq_iff_eq] at h
  simp [is, h.1, h.2, TokenKind.isStructural]

theorem is_of_identifier (h : t.kind = .identifier) (s : String) : t.is s = false := by
  simp [is, h, TokenKind.isStructural]

theorem isFlat_of_isOperator {s : String} (h : t.isOperator s)
    (hs : Plain s ∧ s ≠ "<" ∧ s ≠ ">") : t.isFlat := by
  have htext := text_of_isOperator h
  exact isFlat_iff.mpr ⟨opens?_of_isOperator h hs.1, closes?_of_isOperator h hs.1,
    isOperator_of_ne (htext ▸ hs.2.1), isOperator_of_ne (htext ▸ hs.2.2)⟩

theorem ne_of_opens? {d : Delimiter} {s : String} (h : t.opens? = some d) (hs : Plain s) :
    t.text ≠ s := by
  rintro rfl
  rw [opens?_eq_none_of_text hs] at h
  cases h

theorem ne_of_closes? {d : Delimiter} {s : String} (h : t.closes? = some d) (hs : Plain s) :
    t.text ≠ s := by
  rintro rfl
  rw [closes?_eq_none_of_text hs] at h
  cases h

end Token

/-- **A phrase**: groups, in which any phrase may stand, and tokens outside groups. None of the
tokens outside groups, and no opening one, is among the terminators. -/
inductive Phrase : List String → List Token → Prop where
  | nil {terminators : List String} : Phrase terminators []
  | token {terminators : List String} {t : Token} {ts : List Token} (ht : t.isFlat)
    (hp : t.stops terminators = false) (hs : Phrase terminators ts) : Phrase terminators (t :: ts)
  | group {terminators : List String} {o c : Token} {inner ts : List Token} (hc : o.ClosedBy c)
    (hp : o.stops terminators = false) (hi : Phrase [] inner) (hs : Phrase terminators ts) :
    Phrase terminators (o :: (inner ++ c :: ts))

namespace Phrase

variable {terminators more : List String} {ts us : List Token}

theorem mono (h : Phrase more ts) (hsub : terminators ⊆ more) : Phrase terminators ts := by
  induction h with
  | nil => exact .nil
  | token ht hp _ ih => exact .token ht (Token.stops_of_subset hp hsub) (ih hsub)
  | group hc hp hi _ _ ih => exact .group hc (Token.stops_of_subset hp hsub) hi (ih hsub)

theorem append (h : Phrase terminators ts) (h' : Phrase terminators us) :
    Phrase terminators (ts ++ us) := by
  induction h with
  | nil => exact h'
  | token ht hp _ ih => exact .token ht hp (ih h')
  | @group _ o c inner ts hc hp hi _ _ ih =>
    rw [List.cons_append, List.append_assoc, List.cons_append]
    exact .group hc hp hi (ih h')

/-- What is written like a phrase is one. -/
theorem of_runs (h : Phrase terminators ts) (hs : Likeness.writing.runs ts us) :
    Phrase terminators us := by
  induction h generalizing us with
  | nil => cases hs; exact .nil
  | @token _ t ts ht hpt _ ih =>
    cases hs with
    | cons hab hs =>
      rw [Token.isFlat_iff] at ht
      refine .token ?_ (Likeness.stops_eq hab _ ▸ hpt) (ih hs)
      rwa [Token.isFlat_iff, ← Likeness.opens?_eq hab, ← Likeness.closes?_eq hab,
        ← Likeness.isOperator_eq hab, ← Likeness.isOperator_eq hab]
  | @group _ o c inner ts hc hpo _ _ ihInner ih =>
    cases hs with
    | cons hab hs =>
      obtain ⟨us₁, us₂, rfl, hinner, hmore⟩ := exists_append_of_runs_left hs
      cases hmore with
      | cons hcd hmore =>
        refine .group ?_ (Likeness.stops_eq hab _ ▸ hpo) (ihInner hinner) (ih hmore)
        rw [Token.ClosedBy, ← Likeness.opens?_eq hab, ← Likeness.isOperator_eq hab,
          ← Likeness.isOperator_eq hcd, ← Likeness.closes?_eq hcd]
        exact hc

/-- The first token of a phrase closes nothing. -/
theorem head_ne {s : String} {t : Token} (h : Phrase terminators (t :: ts))
    (hs : s ∈ terminators) : t.is s = false := by
  have hstop : t.stops terminators = false := by
    cases h with
    | token _ hp _ => exact hp
    | group _ hp _ _ => exact hp
  refine Bool.eq_false_iff.mpr fun his => Bool.eq_false_iff.mp hstop (Token.stops_iff.mpr ?_)
  simp only [Token.is, Bool.and_eq_true, beq_iff_eq] at his
  exact ⟨his.2, his.1 ▸ hs⟩

/-- **Walking over a phrase.** A function that reads a list from a state and keeps count of the
groups it is in comes out of a phrase in the state in which it went in, having seen every element:
it does when it stays in its state at a token outside groups, and when the bracket that closes a
group takes it back to the state before the group. In a state that is `free` no bracket counts as
open, and no element is among the terminators. -/
theorem walk {α β σ : Type} (token : α → Token) (f : σ → List α → β) (g : α → β → β)
    (free : σ → Prop)
    (flat : ∀ {s a} as, (token a).isFlat → (free s → (token a).stops terminators = false) →
      f s (a :: as) = g a (f s as))
    (group : ∀ {s a b}, (token a).ClosedBy (token b) →
      (free s → (token a).stops terminators = false) →
      ∃ s', ¬ free s' ∧ (∀ as, f s (a :: as) = g a (f s' as)) ∧
        ∀ as, f s' (b :: as) = g b (f s as))
    {as : List α} (h : Phrase more (as.map token)) {s : σ} (hfree : free s → terminators ⊆ more)
    (bs : List α) : f s (as ++ bs) = as.foldr g (f s bs) := by
  generalize hts : as.map token = ts at h
  induction h generalizing as s bs with
  | nil =>
    rw [List.map_eq_nil_iff.mp hts]
    rfl
  | token ht hp _ ih =>
    obtain ⟨a, as, rfl, rfl, has⟩ := List.map_eq_cons_iff.mp hts
    rw [List.cons_append, flat _ ht fun hs => Token.stops_of_subset hp (hfree hs), ih hfree bs has,
      List.foldr_cons]
  | group hc hp _ _ ihInner ih =>
    obtain ⟨a, rest, rfl, rfl, hrest⟩ := List.map_eq_cons_iff.mp hts
    obtain ⟨inner, behind, rfl, hinner, hbehind⟩ := List.map_eq_append_iff.mp hrest
    obtain ⟨b, as, rfl, rfl, has⟩ := List.map_eq_cons_iff.mp hbehind
    obtain ⟨s', hs', hopen, hclose⟩ := group hc fun hs => Token.stops_of_subset hp (hfree hs)
    -- in, through the inner phrase, out, and on behind the group
    rw [List.cons_append, hopen, List.append_assoc, ihInner (fun hs => absurd hs hs') _ hinner,
      List.cons_append, hclose, ih hfree bs has, List.foldr_cons, List.foldr_append,
      List.foldr_cons]

end Phrase

/-! ## The depth of a run -/

section Depth

variable {t o c : Token} {terminators more : List String} {ts : List Token} {d : Nat}

theorem depthAfter_of_isFlat (h : t.isFlat) : Run.depthAfter d t = d := by
  obtain ⟨ho, hc, hlt, hgt⟩ := Token.isFlat_iff.mp h
  simp [Run.depthAfter, ho, hc, hlt, hgt]

theorem depthAfter_of_closedBy (h : o.ClosedBy c) :
    Run.depthAfter d o = d + 1 ∧ Run.depthAfter (d + 1) c = d := by
  rcases h with ⟨e, ho, hc⟩ | ⟨ho, hc⟩
  · have hnone := Token.opens?_eq_none_of_closes? hc
    have hlt : c.isOperator "<" = false :=
      Token.isOperator_of_ne (Token.ne_of_closes? hc (by decide))
    simp [Run.depthAfter, ho, hc, hnone, hlt]
  · have hnone := Token.opens?_of_isOperator hc (by decide)
    have hlt : c.isOperator "<" = false :=
      Token.isOperator_of_ne (Token.text_of_isOperator hc ▸ by decide)
    simp [Run.depthAfter, ho, hc, hnone, hlt]

theorem isOperator_of_stops {s : String} (h : t.stops terminators = false)
    (hs : s ∈ terminators) : t.isOperator s = false := by
  refine Bool.eq_false_iff.mpr fun ht => Bool.eq_false_iff.mp h (Token.stops_iff.mpr ?_)
  simp only [Token.isOperator, Bool.and_eq_true, beq_iff_eq] at ht
  exact ⟨by rw [ht.1]; rfl, ht.2 ▸ hs⟩

/-- A walk that keeps count of the depth comes out of a phrase at the depth at which it went in. -/
theorem walk_depth {β : Type} (f : Nat → List Token → β) (g : Token → β → β)
    (step : ∀ {d t} us, (d = 0 → t.stops terminators = false) →
      f d (t :: us) = g t (f (Run.depthAfter d t) us))
    (h : Phrase more ts) (hd : d = 0 → terminators ⊆ more) (us : List Token) :
    f d (ts ++ us) = ts.foldr g (f d us) := by
  refine Phrase.walk (fun t => t) f g (· = 0) ?flat ?group (by rwa [List.map_id']) hd us
  case flat =>
    intro d t us ht hp
    rw [step us hp, depthAfter_of_isFlat ht]
  case group =>
    intro d o c hc hp
    obtain ⟨hin, hout⟩ := depthAfter_of_closedBy (d := d) hc
    refine ⟨d + 1, Nat.succ_ne_zero d, fun us => ?_, fun us => ?_⟩
    · rw [step us hp, hin]
    · rw [step us (fun h => absurd h (Nat.succ_ne_zero d)), hout]

/-- The search for a colon goes on behind a phrase. -/
theorem colonFrom?_phrase (h : Phrase more ts) (hd : d = 0 → ":" ∈ more) (us : List Token) :
    Run.colonFrom? d (ts ++ us) = (Run.colonFrom? d us).map (· + ts.length) := by
  have hcolon : d = 0 → [":"] ⊆ more := fun hd' => by simpa using hd hd'
  rw [walk_depth Run.colonFrom? (fun _ r => r.map (· + 1)) ?_ h hcolon us]
  · clear h
    induction ts with
    | nil => simp
    | cons t ts ih =>
      rw [List.foldr_cons, ih, Option.map_map]
      rfl
  · intro d t us ht
    rw [Run.colonFrom?, if_neg]
    simp only [Bool.and_eq_true, decide_eq_true_eq, not_and, Bool.not_eq_true]
    exact fun hd => isOperator_of_stops (ht hd) (List.mem_singleton_self _)

/-- The cut at commas leaves a phrase whole. -/
theorem splitFrom_phrase (h : Phrase more ts) (hd : d = 0 → "," ∈ more) (us : List Token) :
    Run.splitFrom d (ts ++ us) = (ts ++ (Run.splitFrom d us).1, (Run.splitFrom d us).2) := by
  have hcomma : d = 0 → [","] ⊆ more := fun hd' => by simpa using hd hd'
  rw [walk_depth Run.splitFrom (fun t r => (t :: r.1, r.2)) ?_ h hcomma us]
  · clear h
    induction ts with
    | nil => rfl
    | cons t ts ih => rw [List.foldr_cons, ih, List.cons_append]
  · intro d t us ht
    have hcomma : ¬ (d = 0 && t.isOperator ",") = true := by
      simp only [Bool.and_eq_true, decide_eq_true_eq, not_and, Bool.not_eq_true]
      exact fun hd => isOperator_of_stops (ht hd) (List.mem_singleton_self _)
    simp only [Run.splitFrom, if_neg hcomma]

/-- **Phrases with commas between them** are taken apart again. -/
theorem splitCommas_intercalate {comma : Token} (hc : comma.isOperator ",")
    {parts : List (List Token)} (h : ∀ ts ∈ parts, Phrase more ts) (hm : "," ∈ more)
    (hne : parts ≠ []) :
    Run.splitCommas ([comma].intercalate parts) = parts := by
  induction parts with
  | nil => exact absurd rfl hne
  | cons ts parts ih =>
    obtain ⟨hts, hparts⟩ := List.forall_mem_cons.mp h
    cases parts with
    | nil =>
      have hsplit := splitFrom_phrase (d := 0) hts (fun _ => hm) []
      rw [List.append_nil] at hsplit
      rw [List.intercalate_singleton, Run.splitCommas, hsplit]
      simp [Run.splitFrom]
    | cons us parts =>
      -- a comma outside brackets cuts, and the count starts anew behind it
      have hcut (vs : List Token) : Run.splitFrom 0 (comma :: vs) = ([], Run.splitCommas vs) := by
        have hflat := Token.isFlat_of_isOperator hc (by decide)
        simp [Run.splitFrom, Run.splitCommas, hc, depthAfter_of_isFlat hflat]
      rw [List.intercalate_cons_cons, List.append_assoc, Run.splitCommas,
        splitFrom_phrase hts fun _ => hm, List.singleton_append, hcut,
        ih hparts (List.cons_ne_nil _ _)]
      simp

end Depth

/-! ## Reading a phrase -/

namespace Parser

variable {terminators more : List String} {front : List Lexeme} {stack : List Token} {angle : Nat}

theorem angleAfter_of_ne {t : Token} (hlt : t.isOperator "<" = false)
    (hgt : t.isOperator ">" = false) : angleAfter angle t = angle := by
  simp [angleAfter, hlt, hgt]

/-- A group is entered in a state in which no terminator counts, and left in the state before. -/
theorem collectFrom_group {l m : Lexeme} (hc : l.token.ClosedBy m.token)
    (hl : stack = [] → angle = 0 → l.token.stops terminators = false) :
    ∃ stack' angle', ¬ (stack' = [] ∧ angle' = 0) ∧
      (∀ ls, collectFrom terminators true stack angle (l :: ls) =
        (collectFrom terminators true stack' angle' ls).map fun (ts, ls) => (l.token :: ts, ls)) ∧
      ∀ ls, collectFrom terminators true stack' angle' (m :: ls) =
        (collectFrom terminators true stack angle ls).map fun (ts, ls) => (m.token :: ts, ls) := by
  rcases hc with ⟨d, ho, hc⟩ | ⟨ho, hc⟩
  · -- a bracket is pushed and taken off again, and angle brackets between do not count
    have hlt := Token.isOperator_of_ne (Token.ne_of_opens? ho (s := "<") (by decide))
    have hgt := Token.isOperator_of_ne (Token.ne_of_opens? ho (s := ">") (by decide))
    refine ⟨l.token :: stack, angle, fun h => List.cons_ne_nil _ _ h.1, fun ls => ?_, fun ls => ?_⟩
    · rw [collectFrom_step hl (nest_of_opens? ho stack), angleAfter_of_ne hlt hgt, ite_self]
    · rw [collectFrom_step (fun h => absurd h (List.cons_ne_nil _ _)) (nest_of_closes? hc ho stack)]
      rfl
  · -- an angle bracket counts if no other bracket is open
    have hopen := nest_of_plain (Token.opens?_of_isOperator ho (by decide))
      (Token.closes?_of_isOperator ho (by decide)) stack
    have hclose := nest_of_plain (Token.opens?_of_isOperator hc (by decide))
      (Token.closes?_of_isOperator hc (by decide)) stack
    have hgt : m.token.isOperator "<" = false :=
      Token.isOperator_of_ne (Token.text_of_isOperator hc ▸ by decide)
    cases stack with
    | nil =>
      refine ⟨[], angle + 1, fun h => Nat.succ_ne_zero _ h.2, fun ls => ?_, fun ls => ?_⟩
      · rw [collectFrom_step hl hopen]
        simp [angleAfter, ho]
      · rw [collectFrom_step (fun _ h => absurd h (Nat.succ_ne_zero _)) hclose]
        simp [angleAfter, hgt, hc]
    | cons o outer =>
      refine ⟨o :: outer, angle, fun h => List.cons_ne_nil _ _ h.1, fun ls => ?_, fun ls => ?_⟩
      · rw [collectFrom_step hl hopen]
        rfl
      · rw [collectFrom_step (fun h => absurd h (List.cons_ne_nil _ _)) hclose]
        rfl

/-- **A reader up to a terminator** goes on behind a phrase. -/
theorem collectFrom_phrase (h : Phrase more (front.map Lexeme.token))
    (hfree : stack = [] → angle = 0 → terminators ⊆ more) (back : List Lexeme) :
    collectFrom terminators true stack angle (front ++ back) =
      (collectFrom terminators true stack angle back).map
        fun (ts, ls) => (front.map Lexeme.token ++ ts, ls) := by
  have hwalk := Phrase.walk Lexeme.token
    (fun (s : List Token × Nat) => collectFrom terminators true s.1 s.2)
    (fun l r => r.map fun (ts, ls) => (l.token :: ts, ls))
    (fun s => s.1 = [] ∧ s.2 = 0) (s := (stack, angle)) ?flat ?group h
    (fun hs => hfree hs.1 hs.2) back
  case flat =>
    rintro ⟨stack, angle⟩ l ls hl hp
    obtain ⟨ho, hc, hlt, hgt⟩ := Token.isFlat_iff.mp hl
    dsimp only
    rw [collectFrom_step (fun h h' => hp ⟨h, h'⟩) (nest_of_plain ho hc stack),
      angleAfter_of_ne hlt hgt, ite_self]
  case group =>
    rintro ⟨stack, angle⟩ l m hc hp
    obtain ⟨stack', angle', hinside, hin, hout⟩ := collectFrom_group hc fun h h' => hp ⟨h, h'⟩
    exact ⟨(stack', angle'), hinside, hin, hout⟩
  refine hwalk.trans ?_
  clear hwalk h
  induction front with
  | nil => cases collectFrom terminators true stack angle back <;> rfl
  | cons l front ih =>
    rw [List.foldr_cons, ih]
    cases collectFrom terminators true stack angle back <;> rfl

variable {ws after : List Word} {w : Word}

/-- **A phrase is read** up to the terminator behind it. -/
theorem reads_collect_phrase (hw : Phrase more (ws.map Word.token)) (hsub : terminators ⊆ more)
    (hstop : w.token.stops terminators) :
    Reads (collect terminators true) ws (w :: after) (Spells ws) := by
  intro ls hs
  obtain ⟨front, back, rfl, hfront, hback⟩ := hs.exists_append
  obtain ⟨l, rest, rfl, hl, -⟩ := hback.exists_cons
  rw [Likeness.stops_eq hl] at hstop
  refine ⟨front.map Lexeme.token, l :: rest, ?_, hback, hfront⟩
  rw [collect, collectFrom_phrase (hw.of_runs hfront) (fun _ _ => hsub), collectFrom_stop hstop]
  simp [Except.map]

end Parser

end KlarAudit

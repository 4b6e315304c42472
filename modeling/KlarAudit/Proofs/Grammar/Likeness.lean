import KlarAudit.Grammar.Opening
import KlarAudit.Proofs.Grammar.Taken
import Mathlib.Data.List.Forall2

/-!
# Reading two inputs alike

Two inputs whose tokens are written alike are read alike, and more input behind the second one does
not matter as long as the first is not read to its end. What "alike" means is left open: the same
tokens, or tokens of the same category and text at other places. Either way the values that are read
correspond, and a reader that follows another one through its steps is put together from readers
that do so.

## Main definitions

* `Likeness`: when two tokens are alike
* `Follows L more ls ms`: `ms` starts like `ls` and goes on with `more`
* `Carries`, `Firm`: a reader succeeds on `ms` whenever one succeeds on `ls`; a firm reader does so
  even if it reads `ls` to the end

## Main results

* `Carries.bind`, `Carries.firm`: one reader after another
* `firm_collect`, `carries_group`: the two ways to read a run of tokens
-/

namespace KlarAudit

/-- **When two tokens are alike**: at least, they are of the same category and text. If the likeness
is exact, they are the same. -/
structure Likeness where
  /-- The tokens are alike. -/
  tokens : Token → Token → Prop
  /-- The inputs are the same. -/
  exact : Prop
  kind_eq : ∀ {a b}, tokens a b → a.kind = b.kind
  text_eq : ∀ {a b}, tokens a b → a.text = b.text
  eq_of_exact : exact → ∀ {a b}, tokens a b → a = b

theorem exists_of_some_rel {α β : Type} {R : α → β → Prop} {a : α} {o : Option β}
    (h : Option.Rel R (some a) o) : ∃ b, o = some b ∧ R a b := by
  cases h with
  | some h => exact ⟨_, rfl, h⟩

namespace Likeness

variable (L : Likeness)

/-- The lexemes are alike, their comments only if the likeness is exact. -/
def lexemes (l m : Lexeme) : Prop :=
  L.tokens l.token m.token ∧ (L.exact → l = m)

/-- The runs are alike, token by token. -/
abbrev runs : List Token → List Token → Prop :=
  List.Forall₂ L.tokens

/-- **The input `ms` follows `ls`**: it starts with a lexeme for each of `ls` and goes on with
`more`. -/
inductive Follows (more : List Lexeme) : List Lexeme → List Lexeme → Prop where
  /-- Nothing is left of the first input. -/
  | nil : Follows more [] more
  /-- One lexeme of each. -/
  | cons {l m : Lexeme} {ls ms : List Lexeme} (h : L.lexemes l m) (hs : Follows more ls ms) :
    Follows more (l :: ls) (m :: ms)

variable {L} {more : List Lexeme} {a b : Token} {ts us : List Token} {ls ms : List Lexeme}

/-! ## Tokens and runs -/

theorem is_eq (h : L.tokens a b) (s : String) : a.is s = b.is s := by
  rw [Token.is, Token.is, L.text_eq h, L.kind_eq h]

theorem isOperator_eq (h : L.tokens a b) (s : String) : a.isOperator s = b.isOperator s := by
  rw [Token.isOperator, Token.isOperator, L.text_eq h, L.kind_eq h]

theorem opens?_eq (h : L.tokens a b) : a.opens? = b.opens? := by
  rw [Token.opens?, Token.opens?, L.text_eq h, L.kind_eq h]

theorem closes?_eq (h : L.tokens a b) : a.closes? = b.closes? := by
  rw [Token.closes?, Token.closes?, L.text_eq h, L.kind_eq h]

theorem eq_of_runs (he : L.exact) (h : L.runs ts us) : ts = us := by
  induction h with
  | nil => rfl
  | cons h _ ih => rw [L.eq_of_exact he h, ih]

theorem getElem?_rel (h : L.runs ts us) (k : Nat) : Option.Rel L.tokens ts[k]? us[k]? := by
  induction h generalizing k with
  | nil => exact .none
  | cons h _ ih =>
    cases k with
    | zero => exact .some h
    | succ k => exact ih k

theorem getLast?_rel (h : L.runs ts us) : Option.Rel L.tokens ts.getLast? us.getLast? := by
  induction h with
  | nil => exact .none
  | @cons a b ts us h _ ih =>
    rw [List.getLast?_cons, List.getLast?_cons]
    cases hts : ts.getLast? with
    | none => rw [hts] at ih; cases hus : us.getLast? <;> simp_all
    | some t => rw [hts] at ih; cases hus : us.getLast? <;> simp_all

/-- Alike runs nest alike. -/
theorem nest_rel {stack stack' : List Token} (hs : L.runs stack stack') (h : L.tokens a b) :
    Option.Rel L.runs (nest stack a) (nest stack' b) := by
  unfold nest
  rw [← opens?_eq h, ← closes?_eq h]
  cases a.opens? with
  | some d => exact .some (.cons h hs)
  | none =>
    cases a.closes? with
    | none => exact .some hs
    | some d =>
      cases hs with
      | nil => exact .none
      | @cons o o' outer outer' ho houter =>
        dsimp only
        rw [← opens?_eq ho]
        split
        · exact .some houter
        · exact .none

theorem piece_eq {before before' : Option Token} (hb : Option.Rel L.tokens before before')
    (h : L.tokens a b) : Run.piece before a = Run.piece before' b := by
  have hbefore : before.any (·.kind.isWordlike) = before'.any (·.kind.isWordlike) := by
    cases hb with
    | none => rfl
    | some hb => simp [L.kind_eq hb]
  simp only [Run.piece, is_eq h, L.kind_eq h, L.text_eq h, hbefore]

/-- Alike runs are written alike. -/
theorem render_eq (h : L.runs ts us) : Run.render ts = Run.render us := by
  suffices key : ∀ before before', Option.Rel L.tokens before before' →
      Run.pieces before ts = Run.pieces before' us by
    rw [Run.render, Run.render, key none none .none]
  induction h with
  | nil => exact fun _ _ _ => rfl
  | cons h _ ih =>
    intro before before' hb
    rw [Run.pieces, Run.pieces, piece_eq hb h, ih _ _ (.some h)]

theorem depthAfter_eq (h : L.tokens a b) (depth : Nat) :
    Run.depthAfter depth a = Run.depthAfter depth b := by
  simp only [Run.depthAfter, isOperator_eq h, opens?_eq h, closes?_eq h]

theorem colonFrom?_eq (h : L.runs ts us) (depth : Nat) :
    Run.colonFrom? depth ts = Run.colonFrom? depth us := by
  induction h generalizing depth with
  | nil => rfl
  | cons h _ ih => simp only [Run.colonFrom?, isOperator_eq h, depthAfter_eq h, ih]

theorem colon?_eq (h : L.runs ts us) : Run.colon? ts = Run.colon? us :=
  colonFrom?_eq h 0

theorem splitFrom_rel (h : L.runs ts us) (depth : Nat) :
    L.runs (Run.splitFrom depth ts).1 (Run.splitFrom depth us).1 ∧
      List.Forall₂ L.runs (Run.splitFrom depth ts).2 (Run.splitFrom depth us).2 := by
  induction h generalizing depth with
  | nil => exact ⟨.nil, .nil⟩
  | cons h _ ih =>
    obtain ⟨hfirst, hothers⟩ := ih (Run.depthAfter depth _)
    simp only [Run.splitFrom, ← isOperator_eq h, ← depthAfter_eq h]
    split
    · exact ⟨.nil, .cons hfirst hothers⟩
    · exact ⟨.cons h hfirst, hothers⟩

/-- Alike runs are cut alike. -/
theorem splitCommas_rel (h : L.runs ts us) :
    List.Forall₂ L.runs (Run.splitCommas ts) (Run.splitCommas us) :=
  .cons (splitFrom_rel h 0).1 (splitFrom_rel h 0).2

/-! ## Inputs -/

namespace Follows

theorem eq_more (h : L.Follows more [] ms) : ms = more := by
  cases h
  rfl

theorem exists_append (h : L.Follows more ls ms) :
    ∃ ms', ms = ms' ++ more ∧ L.Follows [] ls ms' := by
  induction h with
  | nil => exact ⟨[], rfl, .nil⟩
  | @cons l m ls ms h _ ih =>
    obtain ⟨ms', rfl, hs⟩ := ih
    exact ⟨m :: ms', rfl, .cons h hs⟩

theorem tail (h : L.Follows more ls ms) (hne : ls ≠ []) : L.Follows more ls.tail ms.tail := by
  cases h with
  | nil => exact absurd rfl hne
  | cons _ hs => exact hs

theorem drop (h : L.Follows more ls ms) {n : Nat} (hn : n ≤ ls.length) :
    L.Follows more (ls.drop n) (ms.drop n) := by
  induction h generalizing n with
  | nil => rw [Nat.eq_zero_of_le_zero hn]; exact .nil
  | cons h hs ih =>
    cases n with
    | zero => exact .cons h hs
    | succ n => exact ih (Nat.le_of_succ_le_succ hn)

theorem nextIs_eq (h : L.Follows more ls ms) (hne : ls ≠ []) (s : String) :
    nextIs s ls = nextIs s ms := by
  cases h with
  | nil => exact absurd rfl hne
  | cons h _ => simp [nextIs, is_eq h.1 s]

theorem of_nextIs (h : L.Follows more ls ms) {s : String} (hn : nextIs s ls) :
    nextIs s ms ∧ L.Follows more ls.tail ms.tail := by
  have hne := ne_nil_of_nextIs hn
  exact ⟨h.nextIs_eq hne s ▸ hn, h.tail hne⟩

/-- The first lexemes, if the end of the first input is the end of the second. -/
theorem head?_rel (h : L.Follows more ls ms) (hend : ls = [] → more = []) :
    Option.Rel L.lexemes ls.head? ms.head? := by
  cases h with
  | nil => rw [hend rfl]; exact .none
  | cons h _ => exact .some h

end Follows

end Likeness

/-! ## Readers -/

section Readers

variable {α β : Type} {L : Likeness}

variable (L) in
/-- **A reader carries over**: what `p` reads from an input, `q` reads from an input that follows
it, with a value that stands in the relation `R` to the first; unless `p` reads to the end and the
second input goes on there. -/
structure Carries (p q : Parser α) (R : α → α → Prop) : Prop where
  /-- Nothing is left of nothing. -/
  short : ∀ {a rest}, p [] = .ok (a, rest) → rest = []
  reads : ∀ {more ls ms a rest}, L.Follows more ls ms → p ls = .ok (a, rest) →
    (rest = [] → more = []) →
    ∃ b rest', q ms = .ok (b, rest') ∧ L.Follows more rest rest' ∧ R a b

variable (L) in
/-- **A firm reader**: it does not read from nothing, and what `p` reads, `q` reads from an input
that follows, even if `p` reads to the end. -/
structure Firm (p q : Parser α) (R : α → α → Prop) : Prop where
  /-- Something must be there to be read. -/
  ends : ∀ {r}, p [] ≠ .ok r
  reads : ∀ {more ls ms a rest}, L.Follows more ls ms → p ls = .ok (a, rest) →
    ∃ b rest', q ms = .ok (b, rest') ∧ L.Follows more rest rest' ∧ R a b

variable {p q : Parser α} {f g : α → Parser β} {R R' : α → α → Prop} {T : β → β → Prop}

theorem Firm.ne_nil (h : Firm L p q R) {ls : List Lexeme} {r : α × List Lexeme} (hp : p ls = .ok r) :
    ls ≠ [] := by
  rintro rfl
  exact h.ends hp

theorem Firm.carries (h : Firm L p q R) : Carries L p q R :=
  ⟨fun hp => absurd hp h.ends, fun hs hp _ => h.reads hs hp⟩

theorem carries_pure {a b : α} (h : R a b) : Carries L (pure a) (pure b) R := by
  refine ⟨fun hp => ?_, fun hs hp _ => ?_⟩ <;> cases hp
  · rfl
  · exact ⟨b, _, rfl, hs, h⟩

/-- What is read from an input is also read from one that is no longer. -/
theorem Carries.exists_rel (hp : Carries L p q R) {more ls ms rest : List Lexeme} {a : α}
    (hs : L.Follows more ls ms) (h : p ls = .ok (a, rest)) : ∃ b, R a b := by
  obtain ⟨ms', -, hs'⟩ := hs.exists_append
  obtain ⟨b, -, -, -, hb⟩ := hp.reads hs' h fun _ => rfl
  exact ⟨b, hb⟩

/-- A reader that has not read to the end. -/
theorem Carries.reads_of_ne_nil (hp : Carries L p q R) {more ls ms rest : List Lexeme} {a : α}
    (hs : L.Follows more ls ms) (h : p ls = .ok (a, rest)) (hne : rest ≠ []) :
    ∃ b rest', q ms = .ok (b, rest') ∧ L.Follows more rest rest' ∧ R a b :=
  hp.reads hs h fun hnil => absurd hnil hne

/-- **One reader after another.** -/
theorem Carries.bind (hp : Carries L p q R) (hf : ∀ a b, R a b → Carries L (f a) (g b) T) :
    Carries L (p >>= f) (q >>= g) T := by
  refine ⟨fun h => ?_, @fun more ls ms c rest hs h hend => ?_⟩ <;>
    obtain ⟨a, mid, h₁, h₂⟩ := Parser.bind_eq_ok.mp h
  · obtain rfl := hp.short h₁
    obtain ⟨b, hb⟩ := hp.exists_rel (Likeness.Follows.nil : L.Follows [] [] []) h₁
    exact (hf a b hb).short h₂
  · have hmid : mid = [] → more = [] := by
      rintro rfl
      obtain ⟨b, hb⟩ := hp.exists_rel hs h₁
      exact hend ((hf a b hb).short h₂)
    obtain ⟨b, mid', hq, hmid, hb⟩ := hp.reads hs h₁ hmid
    obtain ⟨c, rest', hg, hrest, hc⟩ := (hf a b hb).reads hmid h₂ hend
    exact ⟨c, rest', Parser.bind_eq_ok.mpr ⟨b, mid', hq, hg⟩, hrest, hc⟩

/-- **A firm reader at the end** makes the whole firm: the first one cannot have read to the end. -/
theorem Carries.firm (hp : Carries L p q R) (hf : ∀ a b, R a b → Firm L (f a) (g b) T) :
    Firm L (p >>= f) (q >>= g) T := by
  refine ⟨fun {r} h => ?_, fun hs h => ?_⟩ <;> obtain ⟨a, mid, h₁, h₂⟩ := Parser.bind_eq_ok.mp h
  · obtain rfl := hp.short h₁
    obtain ⟨b, hb⟩ := hp.exists_rel (Likeness.Follows.nil : L.Follows [] [] []) h₁
    exact (hf a b hb).ends h₂
  · obtain ⟨b, hb⟩ := hp.exists_rel hs h₁
    obtain ⟨b, mid', hq, hmid, hb⟩ := hp.reads_of_ne_nil hs h₁ ((hf a b hb).ne_nil h₂)
    obtain ⟨c, rest', hg, hrest, hc⟩ := (hf a b hb).reads hmid h₂
    exact ⟨c, rest', Parser.bind_eq_ok.mpr ⟨b, mid', hq, hg⟩, hrest, hc⟩

theorem firm_of_fails (h : ∀ ls r, p ls ≠ .ok r) : Firm L p q R :=
  ⟨h _ _, fun _ hp => absurd hp (h _ _)⟩

/-- A firm reader whose value is worked on. -/
theorem Firm.map (hp : Firm L p q R) {f g : α → β} (hf : ∀ a b, R a b → T (f a) (g b)) :
    Firm L (p >>= fun a => pure (f a)) (q >>= fun b => pure (g b)) T := by
  refine ⟨fun {r} h => ?_, fun hs h => ?_⟩ <;> obtain ⟨a, mid, h₁, h₂⟩ := Parser.bind_eq_ok.mp h
  · exact hp.ends h₁
  · cases h₂
    obtain ⟨b, mid', hq, hmid, hb⟩ := hp.reads hs h₁
    exact ⟨g b, mid', Parser.bind_eq_ok.mpr ⟨b, mid', hq, rfl⟩, hmid, hf a b hb⟩

end Readers

/-! ## The readers of the grammar -/

section Grammar

open KlarAudit.Parser

variable {L : Likeness}

theorem carries_peek? : Carries L peek? peek? (Option.Rel L.lexemes) := by
  refine ⟨fun hp => ?_, fun hs hp hend => ?_⟩ <;> cases hp
  · rfl
  · exact ⟨_, _, rfl, hs, hs.head?_rel hend⟩

/-- A token that is accepted is there in the other input, whatever is left behind it. -/
theorem accept_of_some {s : String} {more ls ms rest : List Lexeme} {t : Token}
    (hs : L.Follows more ls ms) (h : accept s ls = .ok (some t, rest)) :
    ∃ t' rest', accept s ms = .ok (some t', rest') ∧ L.Follows more rest rest' ∧ L.tokens t t' := by
  cases hs with
  | nil => cases h
  | @cons l m ls ms hl hs =>
    simp only [accept, Likeness.is_eq hl.1] at h ⊢
    by_cases hm : m.token.is s
    · rw [if_pos hm] at h ⊢
      cases h
      exact ⟨_, _, rfl, hs, hl.1⟩
    · rw [if_neg hm] at h
      cases h

theorem carries_accept (s : String) :
    Carries L (accept s) (accept s) (Option.Rel L.tokens) := by
  refine ⟨fun hp => ?_, @fun more ls ms t rest hs hp hend => ?_⟩
  · cases hp
    rfl
  · cases t with
    | some t =>
      obtain ⟨t', rest', ht', hrest, ht⟩ := accept_of_some hs hp
      exact ⟨some t', rest', ht', hrest, .some ht⟩
    | none =>
      cases hs with
      | nil => cases hp; rw [hend rfl]; exact ⟨none, [], rfl, .nil, .none⟩
      | @cons l m ls ms h hs =>
        simp only [accept, Likeness.is_eq h.1] at hp ⊢
        by_cases hm : m.token.is s
        · rw [if_pos hm] at hp
          cases hp
        · rw [if_neg hm] at hp ⊢
          cases hp
          exact ⟨_, _, rfl, .cons h hs, .none⟩

theorem firm_expect (s : String) : Firm L (expect s) (expect s) L.tokens := by
  refine ⟨nofun, fun hs hp => ?_⟩
  cases hs with
  | nil => cases hp
  | @cons l m ls ms h hs =>
    simp only [expect, Likeness.is_eq h.1] at hp ⊢
    split at hp <;> cases hp
    rename_i hm
    rw [if_pos hm]
    exact ⟨_, _, rfl, hs, h.1⟩

theorem firm_expectName (what : String) :
    Firm L (expectName what) (expectName what) L.tokens := by
  refine ⟨nofun, fun hs hp => ?_⟩
  cases hs with
  | nil => cases hp
  | @cons l m ls ms h hs =>
    simp only [expectName, L.kind_eq h.1] at hp ⊢
    split at hp <;> cases hp
    rename_i hm
    rw [if_pos hm]
    exact ⟨_, _, rfl, hs, h.1⟩

theorem firm_groupFrom {o o' : Token} {stack stack' : List Token} (ho : L.tokens o o')
    (hstack : L.runs stack stack') :
    Firm L (groupFrom o stack) (groupFrom o' stack') L.tokens := by
  refine ⟨nofun, fun hs hp => ?_⟩
  induction hs generalizing o o' stack stack' with
  | nil => cases hp
  | @cons l m ls ms h hs ih =>
    have hnest := Likeness.nest_rel (.cons ho hstack) h.1
    unfold groupFrom at hp ⊢
    split at hp
    · cases hp
    · rename_i hn
      cases hp
      rw [hn] at hnest
      obtain ⟨open', hn', hopen⟩ := exists_of_some_rel hnest
      cases hopen
      rw [hn']
      exact ⟨_, _, rfl, hs, h.1⟩
    · rename_i hn
      rw [hn] at hnest
      obtain ⟨open', hn', hopen⟩ := exists_of_some_rel hnest
      cases hopen with
      | cons ho hstack =>
        rw [hn']
        exact ih ho hstack hp

/-- **A bracket group** is followed by one with alike ends, whatever is left behind it. -/
theorem group_of_some {s : String} {more ls ms rest : List Lexeme} {g : Token × Token}
    (hs : L.Follows more ls ms) (h : group s ls = .ok (some g, rest)) :
    ∃ g' rest', group s ms = .ok (some g', rest') ∧ L.Follows more rest rest' ∧
      L.tokens g.1 g'.1 ∧ L.tokens g.2 g'.2 := by
  cases hs with
  | nil => cases h
  | @cons l m ls ms hl hs =>
    simp only [group, Likeness.is_eq hl.1] at h ⊢
    by_cases hm : m.token.is s
    · rw [if_pos hm] at h ⊢
      obtain ⟨⟨close, rest⟩, hf, hx⟩ := except_map_eq_ok.mp h
      cases hx
      obtain ⟨close', rest', hf', hrest, hclose⟩ := (firm_groupFrom hl.1 .nil).reads hs hf
      exact ⟨_, rest', except_map_eq_ok.mpr ⟨_, hf', rfl⟩, hrest, hl.1, hclose⟩
    · rw [if_neg hm] at h
      cases h

theorem carries_group (s : String) : Carries L (group s) (group s)
    (Option.Rel fun g g' => L.tokens g.1 g'.1 ∧ L.tokens g.2 g'.2) := by
  refine ⟨fun hp => ?_, @fun more ls ms g rest hs hp hend => ?_⟩
  · cases hp
    rfl
  · cases g with
    | some g =>
      obtain ⟨g', rest', hg', hrest, hends⟩ := group_of_some hs hp
      exact ⟨some g', rest', hg', hrest, .some hends⟩
    | none =>
      cases hs with
      | nil => cases hp; rw [hend rfl]; exact ⟨none, [], rfl, .nil, .none⟩
      | @cons l m ls ms h hs =>
        simp only [group, Likeness.is_eq h.1] at hp ⊢
        by_cases hm : m.token.is s
        · rw [if_pos hm] at hp
          obtain ⟨_, -, hx⟩ := except_map_eq_ok.mp hp
          cases hx
        · rw [if_neg hm] at hp ⊢
          cases hp
          exact ⟨_, _, rfl, .cons h hs, .none⟩

theorem firm_collectFrom {terminators : List String} {angles : Bool} {stack stack' : List Token}
    (hstack : L.runs stack stack') (angle : Nat) :
    Firm L (collectFrom terminators angles stack angle)
      (collectFrom terminators angles stack' angle) L.runs := by
  constructor
  case ends =>
    intro r hp
    unfold collectFrom at hp
    split at hp <;> cases hp
  case reads =>
    intro more ls ms ts rest hs hp
    induction hs generalizing stack stack' angle ts with
    | nil => unfold collectFrom at hp; split at hp <;> cases hp
    | @cons l m ls ms h hs ih =>
      have hempty : stack.isEmpty = stack'.isEmpty := by cases hstack <;> rfl
      have hangle : angleAfter angle l.token = angleAfter angle m.token := by
        simp only [angleAfter, Likeness.isOperator_eq h.1]
      unfold collectFrom at hp ⊢
      simp only [hempty, L.kind_eq h.1, L.text_eq h.1, hangle] at hp ⊢
      split at hp
      · rename_i hstop
        cases hp
        rw [if_pos hstop]
        exact ⟨_, _, rfl, .cons h hs, .nil⟩
      · rename_i hstop
        rw [if_neg hstop]
        have hnest := Likeness.nest_rel hstack h.1
        split at hp
        · cases hp
        · rename_i hn
          rw [hn] at hnest
          obtain ⟨open', hn', hopen⟩ := exists_of_some_rel hnest
          obtain ⟨⟨run, left⟩, hc, hx⟩ := except_map_eq_ok.mp hp
          cases hx
          obtain ⟨run', left', hc', hleft, hrun⟩ := ih hopen _ hc
          rw [hn']
          exact ⟨_, left', except_map_eq_ok.mpr ⟨_, hc', rfl⟩, hleft, .cons h.1 hrun⟩

/-- **A collected run** is followed by an alike one. -/
theorem firm_collect (terminators : List String) (angles : Bool) :
    Firm L (collect terminators angles) (collect terminators angles) L.runs :=
  firm_collectFrom .nil 0

end Grammar

end KlarAudit

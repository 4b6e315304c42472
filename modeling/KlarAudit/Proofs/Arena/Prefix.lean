import KlarAudit.Proofs.Arena.Layout
import KlarAudit.Proofs.Arena.Slots
import KlarAudit.Proofs.Grammar.Balance
import KlarAudit.Proofs.Token.Munch

/-!
# What stands in front stays

A later error never disturbs what stands before it: when more text is put behind a text that is
read without an issue, the tokens of the text, its declarations and its unsafe blocks come first in
the longer text, unchanged. The declarations stay since no reader looks beyond what it takes, with
the exception of an import at the end, which leaves no declaration. The unsafe blocks stay since a
block inside a declaration ends in it, brackets being balanced there.

## Main definitions

* `Likeness.identity`: the likeness of a token with itself
* `SplitsAt`: one list of entries goes on behind an offset before which another one ends

## Main results

* `braceEnd_append`: a closed group ends where it ends, whatever follows
* `over_topLevel_of_no_issues`: the tokens of a declaration are balanced
* `unsafeRegionsFrom_prefix`: more text adds blocks behind the ones there are
* `arena_prefix`: more text adds tokens, declarations and blocks behind the ones there are
-/

namespace KlarAudit

/-! ## The end of a brace group -/

theorem Token.Genuine.is_eq_isOperator {t : Token} (ht : t.Genuine) {s : String}
    (hs : Munch.keywords.contains s = false) : t.is s = t.isOperator s := by
  rw [Bool.eq_iff_iff]
  constructor
  · intro h
    simp [isOperator, ht.kind_of_is h hs, text_of_is h]
  · simp only [isOperator, is, Bool.and_eq_true, beq_iff_eq]
    rintro ⟨hk, htext⟩
    exact ⟨htext, by rw [hk]; rfl⟩

/-- **A brace group that a run closes** ends there, whatever follows the run: `depth` braces of the
group are open, and `outer` braces around it. -/
theorem braceEnd_append {outer depth : Nat} {ts : List Token} (hg : ∀ t ∈ ts, t.Genuine)
    (hd : 0 < depth) (h : bracesAfter (outer + depth) ts = some 0) (limit limit' : Nat)
    (us us' : List Token) :
    braceEnd limit depth (ts ++ us) = braceEnd limit' depth (ts ++ us') := by
  -- the run closes `outer` more braces than the group has, so the group ends before the run
  induction ts generalizing depth with
  | nil =>
    simp only [bracesAfter_nil, Option.some.injEq] at h
    omega
  | cons t ts ih =>
    obtain ⟨ht, hg⟩ := List.forall_mem_cons.mp hg
    rw [bracesAfter_cons, countBrace, ← ht.is_eq_isOperator (by decide +kernel),
      ← ht.is_eq_isOperator (by decide +kernel)] at h
    simp only [List.cons_append, braceEnd]
    split
    · rename_i ho
      rw [if_pos ho] at h
      exact ih hg (Nat.succ_pos _) h
    · rename_i ho
      rw [if_neg ho] at h
      split
      · rename_i hc
        rw [if_pos hc, if_neg (by omega)] at h
        split
        · rfl
        · refine ih hg (by omega) ?_
          rwa [show outer + (depth - 1) = outer + depth - 1 by omega]
      · rename_i hc
        rw [if_neg hc] at h
        exact ih hg hd h

/-- In a well-nested run, the brace group that starts with `t` ends in the run. -/
theorem braceEnd_of_wellNested {before ts : List Token} {t : Token}
    (hg : ∀ u ∈ before ++ t :: ts, u.Genuine) (hw : WellNested (before ++ t :: ts))
    (ht : t.is "\x7b") (limit limit' : Nat) (us us' : List Token) :
    braceEnd limit 0 (t :: ts ++ us) = braceEnd limit' 0 (t :: ts ++ us') := by
  have hbraces : bracesAfter 0 (before ++ t :: ts) = some 0 := bracesAfter_of_nestAll hw
  rw [bracesAfter_append] at hbraces
  obtain ⟨outer, -, hbraces⟩ := Option.bind_eq_some_iff.mp hbraces
  have hopen : t.isOperator "\x7b" := by
    rw [← (hg t (by simp)).is_eq_isOperator (by decide +kernel)]
    exact ht
  rw [bracesAfter_cons, countBrace, if_pos hopen] at hbraces
  have hend := braceEnd_append (fun u hu => hg u (by simp [hu])) Nat.one_pos hbraces limit limit'
    us us'
  simpa [braceEnd, ht] using hend

/-! ## The tokens of a declaration -/

/-- A part of the things stands on a part of the run. -/
theorem InOrder.exists_append {α : Type} {R : α → List Token → Prop} {as bs : List α}
    {ts : List Token} (h : InOrder R (as ++ bs) ts) :
    ∃ us vs, ts = us ++ vs ∧ InOrder R as us ∧ InOrder R bs vs := by
  induction as generalizing ts with
  | nil => exact ⟨[], ts, rfl, .nil [], h⟩
  | cons a as ih =>
    cases h with
    | @cons _ _ skipped here more ha hs =>
      obtain ⟨us, vs, rfl, hus, hvs⟩ := ih hs
      exact ⟨skipped ++ (here ++ us), vs, by simp, .cons ha hus, hvs⟩

/-- A declaration ends with a semicolon or a closing bracket. -/
theorem DeclTree.Over.terminal {t : DeclTree} {ts : List Token} (h : t.Over ts) :
    ∀ u ∈ ts.getLast?, u.Terminal := by
  cases h with
  | leaf _ hlast => exact hlast
  | container _ _ hlast _ _ =>
    intro u hu
    rw [← List.append_assoc, List.getLast?_concat] at hu
    cases hu
    exact hlast

theorem DeclTree.Over.extent {t : DeclTree} {ts : List Token} (h : t.Over ts) (ho : Ordered ts) :
    Extent ts t.decl.span := by
  cases h with
  | leaf h _ => exact (h ho).1
  | container _ _ _ h _ => exact h

theorem Token.Terminal.is_unsafe_eq_false {t : Token} (h : t.Terminal) : t.is "unsafe" = false := by
  rw [Bool.eq_false_iff]
  intro hu
  rcases h with h | ⟨d, h⟩
  · exact absurd ((text_of_is hu).symm.trans (text_of_is h)) (by decide)
  · refine absurd ((text_of_is hu).symm.trans (text_of_is h)) ?_
    cases d <;> decide

/-- **The tokens of a declaration** that is read without an issue are balanced. -/
theorem over_topLevel_of_no_issues {ls : List Lexeme} (hg : ∀ t ∈ ls.map Lexeme.token, t.Genuine)
    (hi : (topLevel ls).1 = []) :
    InOrder (fun t ts => t.Over ts ∧ WellNested ts) (topLevel ls).2 (ls.map Lexeme.token) := by
  induction ls using topLevel_induction with
  | nil => simpa [topLevel_nil] using InOrder.nil []
  | @read l tail r h ih =>
    rw [topLevel_of_item h] at hi ⊢
    obtain ⟨hi, hrest⟩ := List.append_eq_nil_iff.mp hi
    obtain ⟨taken, hls, hover⟩ := over_item.1 _ _ _ h
    have htokens : (l :: tail).map Lexeme.token =
        taken.map Lexeme.token ++ r.rest.map Lexeme.token := by
      rw [← List.map_append, ← hls]
    rw [htokens] at hg ⊢
    refine InOrder.append (InOrder.toList fun t ht => ⟨hover t ht, ?_⟩)
      (ih (fun t ht => hg t (List.mem_append_right _ ht)) hrest)
    -- without an issue a declaration is balanced, or it is an import that runs to the end
    rcases nests_item_of_no_issues.1 _ _ _ h hi with ⟨taken', hls', hleads⟩ | ⟨hnone, -⟩
    · obtain rfl : taken = taken' := List.append_cancel_right (hls.symm.trans hls')
      exact wellNested_iff_shifts.mpr (hleads fun t ht => hg t (List.mem_append_left _ ht))
    · rw [hnone] at ht
      cases ht
  | skipped h ih =>
    rw [topLevel_of_error h] at hi
    exact absurd hi (by simp)

/-! ## Entries before an offset and entries behind it -/

namespace DeclTree

mutual

theorem parent_ne_none_of_tree (index p : Nat) (t : DeclTree) :
    ∀ e ∈ flattenTree index (some p) t, e.parent ≠ none :=
  match t with
  | node d ts => by
    rw [flattenTree, List.forall_mem_cons]
    exact ⟨Option.some_ne_none p, parent_ne_none_of_forest (index + 1) index ts⟩

theorem parent_ne_none_of_forest (index p : Nat) (ts : List DeclTree) :
    ∀ e ∈ flattenForest index (some p) ts, e.parent ≠ none :=
  match ts with
  | [] => fun _ he => absurd he List.not_mem_nil
  | t :: ts => by
    rw [flattenForest, List.forall_mem_append]
    exact ⟨parent_ne_none_of_tree index p t, parent_ne_none_of_forest _ p ts⟩

end

/-- The entries at the top level are the roots of the forest. -/
theorem exists_root {index : Nat} {ts : List DeclTree} {e : Entry}
    (he : e ∈ flattenForest index none ts) (hp : e.parent = none) : ∃ t ∈ ts, t.decl = e.decl := by
  induction ts generalizing index with
  | nil => cases he
  | cons t ts ih =>
    rw [flattenForest, List.mem_append] at he
    rcases he with he | he
    · cases t with
      | node d members =>
        rw [flattenTree, List.mem_cons] at he
        rcases he with rfl | he
        · exact ⟨_, List.mem_cons_self, rfl⟩
        · exact absurd hp (parent_ne_none_of_forest _ _ _ e he)
    · obtain ⟨t', ht', hd⟩ := ih he
      exact ⟨t', List.mem_cons_of_mem t ht', hd⟩

end DeclTree

/-- **The entries `more` behind `entries`**: an offset separates them. -/
structure SplitsAt (cut : Int) (entries more : List Entry) : Prop where
  /-- The first entries stop before the offset. -/
  stop_le : ∀ e ∈ entries, e.decl.span.stop ≤ cut
  /-- The other ones start behind it. -/
  le_start : ∀ e ∈ more, cut ≤ e.decl.span.start
  /-- Their bodies lie in them. -/
  fits : ∀ e ∈ more, e.decl.Fits

namespace SplitsAt

variable {cut offset : Int} {entries more : List Entry}

/-- Behind the cut there is none of the first entries. -/
theorem insideDeclaration_of_le (h : SplitsAt cut entries more) (ho : cut ≤ offset) :
    insideDeclaration entries offset = false := by
  rw [insideDeclaration, List.any_eq_false]
  intro e he hin
  simp only [Bool.and_eq_true, decide_eq_true_eq] at hin
  have := h.stop_le e he
  have := hin.2.2
  omega

/-- Before the cut there is none of the other entries. -/
theorem insideDeclaration_of_lt (h : SplitsAt cut entries more) (ho : offset < cut) :
    insideDeclaration (entries ++ more) offset = insideDeclaration entries offset := by
  have hmore :
      (more.any fun e => e.parent.isNone && decide (e.decl.span.Holds offset)) = false := by
    rw [List.any_eq_false]
    intro e he hin
    simp only [Bool.and_eq_true, decide_eq_true_eq] at hin
    have := h.le_start e he
    have := hin.2.1
    omega
  rw [insideDeclaration, insideDeclaration, List.any_append, hmore, Bool.or_false]

theorem mem_bodies {index : Nat} {b : Nat × Span} (h : b ∈ bodies index entries) :
    ∃ e ∈ entries, e.decl.body? = some b.2 := by
  induction entries generalizing index with
  | nil => cases h
  | cons e entries ih =>
    rw [bodies, List.mem_append] at h
    rcases h with h | h
    · obtain ⟨s, hs, rfl⟩ := Option.map_eq_some_iff.mp (Option.mem_toList.mp h)
      exact ⟨e, List.mem_cons_self, hs⟩
    · obtain ⟨f, hf, hs⟩ := ih h
      exact ⟨f, List.mem_cons_of_mem e hf, hs⟩

theorem innermostFunction?_of_lt (h : SplitsAt cut entries more) (ho : offset < cut) :
    innermostFunction? (entries ++ more) offset = innermostFunction? entries offset := by
  have hmore : ((bodies (0 + entries.length) more).filter fun b => decide (b.2.Holds offset)) =
      [] := by
    rw [List.filter_eq_nil_iff]
    intro b hb hin
    obtain ⟨e, he, hs⟩ := mem_bodies hb
    have := h.le_start e he
    have := ((h.fits e he).body hs).2.1.1
    have := (of_decide_eq_true hin).1
    omega
  rw [innermostFunction?_eq_foldl, innermostFunction?_eq_foldl, bodies_append, List.filter_append,
    hmore, List.append_nil]

end SplitsAt

/-! ## The unsafe blocks of a longer text -/

/-- The block that starts at the token `t`, if there is one, between the tokens before it, nearest
first, and the tokens after it. -/
def blockAt (entries : List Entry) (limit : Nat) (before : List Token) (t : Token)
    (after : List Token) : List UnsafeRegion :=
  if t.is "unsafe" && insideDeclaration entries t.start &&
      (significant after).head?.any (·.is "\x7b") then
    [unsafeRegionAt entries limit before t (significant after)]
  else []

theorem unsafeRegionsFrom_cons (entries : List Entry) (limit : Nat) (before : List Token)
    (t : Token) (ts : List Token) : unsafeRegionsFrom entries limit before (t :: ts) =
      blockAt entries limit before t ts ++ unsafeRegionsFrom entries limit (t :: before) ts := by
  have hnext : ts.find? (!·.isComment) = (significant ts).head? := List.head?_filter.symm
  rw [unsafeRegionsFrom, blockAt, hnext, Bool.and_right_comm]

theorem unsafeRegionsFrom_eq_nil {entries : List Entry} {ts : List Token}
    (h : ∀ t ∈ ts, insideDeclaration entries t.start = false) (limit : Nat) (before : List Token) :
    unsafeRegionsFrom entries limit before ts = [] := by
  induction ts generalizing before with
  | nil => rfl
  | cons t ts ih =>
    rw [unsafeRegionsFrom_cons, ih fun u hu => h u (List.mem_cons_of_mem t hu), blockAt,
      if_neg (by simp [h t List.mem_cons_self])]
    rfl

/-- **What is open at the end of `ts`** before the tokens `more`: nothing, if the next token is one
of `ts` and the block that it may open ends among them. -/
def EndsBefore (more ts : List Token) : Prop :=
  (significant (ts ++ more)).head? = (significant ts).head? ∧
    ((significant ts).head?.any (·.is "\x7b") → ∀ limit limit',
      braceEnd limit 0 (significant (ts ++ more)) = braceEnd limit' 0 (significant ts))

variable {cut : Int} {entries entries' : List Entry} {ts more : List Token}

/-- Before the cut, the block that starts at a token is the same in the longer text. -/
theorem blockAt_append (hsplit : SplitsAt cut entries entries') {t : Token} (hlt : t.start < cut)
    (hends : t.is "unsafe" → insideDeclaration entries t.start → EndsBefore more ts)
    (limit limit' : Nat) (before : List Token) :
    blockAt (entries ++ entries') limit' before t (ts ++ more) =
      blockAt entries limit before t ts := by
  rw [blockAt, blockAt, hsplit.insideDeclaration_of_lt hlt]
  cases hin : t.is "unsafe" && insideDeclaration entries t.start with
  | false => rfl
  | true =>
    simp only [Bool.and_eq_true] at hin
    obtain ⟨hhead, hend⟩ := hends hin.1 hin.2
    rw [hhead]
    split
    · rename_i hopen
      rw [unsafeRegionAt, unsafeRegionAt, hend hopen limit' limit,
        hsplit.innermostFunction?_of_lt hlt]
    · rfl

/-- **More text adds unsafe blocks** behind the ones there are. -/
theorem unsafeRegionsFrom_prefix (hsplit : SplitsAt cut entries entries')
    (hne : ∀ t ∈ ts, t.start < t.stop) (hapart : ts.Pairwise fun a b => a.stop ≤ b.start)
    (hends : ∀ front t back, ts = front ++ t :: back → t.is "unsafe" →
      insideDeclaration entries t.start → EndsBefore more back)
    (limit limit' : Nat) (before : List Token) :
    unsafeRegionsFrom entries limit before ts <+:
      unsafeRegionsFrom (entries ++ entries') limit' before (ts ++ more) := by
  induction ts generalizing before with
  | nil => exact List.nil_prefix
  | cons t ts ih =>
    rw [List.forall_mem_cons] at hne
    rw [List.pairwise_cons] at hapart
    -- `cut` parts the tokens: before it only the first entries are looked at, behind it none
    rcases Int.lt_or_le t.start cut with hlt | hle
    · rw [List.cons_append, unsafeRegionsFrom_cons, unsafeRegionsFrom_cons,
        blockAt_append hsplit hlt (hends [] t ts rfl) limit]
      exact (List.prefix_append_right_inj _).mpr <| ih hne.2 hapart.2
        (fun front u back h => hends (t :: front) u back (congrArg (t :: ·) h)) _
    · -- from here on no token is inside one of the first entries
      rw [unsafeRegionsFrom_eq_nil]
      · exact List.nil_prefix
      · intro u hu
        refine hsplit.insideDeclaration_of_le ?_
        rcases List.mem_cons.mp hu with rfl | hu
        · exact hle
        · have := hapart.1 u hu
          omega

/-! ## More text behind a text -/

/-- The likeness of a token with itself. -/
def Likeness.identity : Likeness where
  tokens := Eq
  exact := True
  kind_eq := congrArg Token.kind
  text_eq := congrArg Token.text
  eq_of_exact _ _ _ h := h

theorem follows_identity (ls more : List Lexeme) :
    Likeness.identity.Follows more ls (ls ++ more) := by
  induction ls with
  | nil => exact .nil
  | cons l ls ih => exact .cons ⟨rfl, fun _ => rfl⟩ ih

theorem eq_of_entries {entries entries' : List Entry}
    (h : List.Forall₂ Likeness.identity.Entries entries entries') : entries = entries' := by
  induction h with
  | nil => rfl
  | @cons e e' _ _ h _ ih =>
    obtain ⟨d, p, ms⟩ := e
    obtain ⟨d', p', ms'⟩ := e'
    obtain rfl : d = d' := h.decl.agree.2 trivial
    obtain rfl : p = p' := h.parent_eq
    obtain rfl : ms = ms' := h.members_eq
    rw [ih]

/-- Comments at the end of the first tokens belong to the first lexeme behind them. -/
theorem Lexeme.exists_ofTokensAfter_append (lead ts us : List Token) :
    ∃ more, ofTokensAfter lead (ts ++ us) = ofTokensAfter lead ts ++ more := by
  induction ts generalizing lead with
  | nil => exact ⟨_, rfl⟩
  | cons t ts ih =>
    simp only [List.cons_append, ofTokensAfter]
    split
    · exact ih _
    · obtain ⟨more, h⟩ := ih []
      exact ⟨more, by rw [h, List.cons_append]⟩

/-- **More tokens add declarations** behind the ones there are. -/
theorem exists_topLevel_append {ts : List Token} (hi : (topLevel (Lexeme.ofTokens ts)).1 = [])
    (us : List Token) :
    ∃ trees extra, (topLevel (Lexeme.ofTokens (ts ++ us))).2 = trees ++ extra ∧
      DeclTree.flatten trees = DeclTree.flatten (topLevel (Lexeme.ofTokens ts)).2 := by
  obtain ⟨more, hmore⟩ := Lexeme.exists_ofTokensAfter_append [] ts us
  have hfollows := follows_identity (Lexeme.ofTokens ts) more
  obtain ⟨trees, extra, htop, hforests, -⟩ :=
    topLevel_counterpart (fun _ _ _ => trivial) hfollows hi
  refine ⟨trees, extra, ?_, (eq_of_entries (DeclTree.entries_of_forests hforests 0 none)).symm⟩
  rw [← htop]
  exact congrArg (fun ls => (topLevel ls).2) hmore

theorem Ordered.stop_le {ts : List Token} {last : Token} (h : Ordered (ts ++ [last])) :
    ∀ t ∈ ts ++ [last], t.stop ≤ last.stop := by
  intro t ht
  rcases List.mem_append.mp ht with ht | ht
  · have hacross := h.across ht (List.mem_singleton_self last)
    have hlast := h.nonempty last (by simp)
    omega
  · exact Nat.le_of_eq (congrArg Token.stop (List.mem_singleton.mp ht))

/-- Declarations that have been read one after another are separated by an offset. -/
theorem exists_splitsAt {trees extra : List DeclTree} {ts : List Token} (ho : Ordered ts)
    (h : InOrder DeclTree.Over (trees ++ extra) ts) :
    ∃ cut, SplitsAt cut (DeclTree.flatten trees)
      (DeclTree.flattenForest (0 + DeclTree.sizes trees) none extra) := by
  obtain ⟨us, vs, rfl, hus, hvs⟩ := h.exists_append
  have htop (index : Nat) : ∀ p ∈ (none : Option Nat), p < index := nofun
  have hend {v : Token} (hv : v ∈ vs) : v.stop ≤ ((vs.map Token.stop).max?).getD 0 :=
    List.le_max?_getD_of_mem (List.mem_map_of_mem hv)
  have key (cut : Nat) (hstop : ∀ u ∈ us, u.stop ≤ cut) (hstart : ∀ v ∈ vs, cut ≤ v.start) :
      SplitsAt cut (DeclTree.flatten trees)
        (DeclTree.flattenForest (0 + DeclTree.sizes trees) none extra) := by
    have hfirst := DeclTree.nest_flattenForest (htop 0) trees hus ho.left
      (fun u _ => Int.natCast_nonneg u.start) fun u hu => Int.ofNat_le.mpr (hstop u hu)
    have hmore := DeclTree.nest_flattenForest (htop (0 + DeclTree.sizes trees)) extra hvs ho.right
      (fun v hv => Int.ofNat_le.mpr (hstart v hv)) fun v hv => Int.ofNat_le.mpr (hend hv)
    exact ⟨fun e he => (hfirst.within e he).2.2, fun e he => (hmore.within e he).1, hmore.fits⟩
  rcases List.eq_nil_or_concat' us with rfl | ⟨before, last, rfl⟩
  · exact ⟨_, key 0 nofun fun v _ => Nat.zero_le _⟩
  · exact ⟨_, key last.stop ho.left.stop_le fun v hv => ho.across (by simp) hv⟩

/-- A token stands once in a run. -/
theorem Ordered.notMem {ts us : List Token} {t : Token} (ho : Ordered (ts ++ t :: us)) :
    t ∉ ts ∧ t ∉ us := by
  constructor
  · intro ht
    have hacross := ho.across ht List.mem_cons_self
    have hlt := ho.nonempty t (by simp)
    omega
  · intro ht
    have hacross := (List.pairwise_cons.mp ho.right.apart).1 t ht
    have hlt := ho.nonempty t (by simp)
    omega

/-- Two ways to split a run at the same token are the same. -/
theorem Ordered.append_cons_inj {ts us vs ws : List Token} {t : Token} (ho : Ordered (ts ++ t :: us))
    (h : ts ++ t :: us = vs ++ t :: ws) : ts = vs ∧ us = ws := by
  obtain ⟨h₁, -, h₂⟩ := (List.append_cons_inj_of_notMem ho.notMem.1 ho.notMem.2).mp h
  exact ⟨h₁, h₂⟩

/-- A token of the run whose start the extent of a stretch holds is one of the stretch. -/
theorem Ordered.mem_of_holds {before here after : List Token} {s : Span} {t : Token}
    (ho : Ordered (before ++ (here ++ after))) (hs : Extent here s)
    (ht : t ∈ before ++ (here ++ after)) (hin : s.Holds t.start) : t ∈ here := by
  obtain ⟨a, b, ha, hb, rfl⟩ := hs
  have ha := List.mem_of_mem_head? ha
  have hb := List.mem_of_mem_getLast? hb
  simp only [Span.Holds, Int.ofNat_le, Int.ofNat_lt] at hin
  rcases List.mem_append.mp ht with ht' | ht'
  · have hacross := ho.across ht' (List.mem_append_left after ha)
    have hlt := ho.nonempty t ht
    omega
  · rcases List.mem_append.mp ht' with ht' | ht'
    · exact ht'
    · have hacross := ho.right.across hb ht'
      omega

/-- **A block in a declaration ends in it**: the brackets of the declaration are balanced, and the
keyword is not its last token. -/
theorem endsBefore_of_over {trees : List DeclTree} {ts front back more : List Token} {t : Token}
    (hts : ts = front ++ t :: back) (ho : Ordered (significant ts))
    (hg : ∀ u ∈ significant ts, u.Genuine)
    (h : InOrder (fun t ts => t.Over ts ∧ WellNested ts) trees (significant ts))
    (ht : t.is "unsafe") (hin : insideDeclaration (DeclTree.flatten trees) t.start) :
    EndsBefore more back := by
  subst hts
  obtain ⟨e, he, hroot⟩ := List.any_eq_true.mp hin
  simp only [Bool.and_eq_true, Option.isNone_iff_eq_none, decide_eq_true_eq] at hroot
  obtain ⟨tree, htree, hdecl⟩ := DeclTree.exists_root he hroot.1
  obtain ⟨before, here, after, htokens, hover, hnested⟩ := h.exists_of_mem htree
  have hsplit := significant_append_cons ht front back
  -- the keyword is among the tokens on which the declaration around it stands
  have hmem : t ∈ here := by
    rw [htokens] at ho
    refine ho.mem_of_holds (hdecl ▸ hover.extent ho.right.left) ?_ hroot.2
    rw [← htokens, hsplit]
    simp
  obtain ⟨h₁, h₂, rfl⟩ := List.append_of_mem hmem
  cases h₂ with
  | nil =>
    -- no declaration ends with the keyword
    rw [(hover.terminal t (by simp)).is_unsafe_eq_false] at ht
    cases ht
  | cons u h₂ =>
    -- ordered tokens are distinct, so the run splits at the keyword in one way only
    have hback : significant back = u :: h₂ ++ after := by
      rw [hsplit] at ho htokens
      have hsame : significant front ++ t :: significant back =
          (before ++ h₁) ++ t :: (u :: h₂ ++ after) := by
        rw [htokens]
        simp
      exact (ho.append_cons_inj hsame).2
    have hmore : significant (back ++ more) = u :: h₂ ++ (after ++ significant more) := by
      rw [significant_append, hback, List.append_assoc]
    have hnested : WellNested ((h₁ ++ [t]) ++ u :: h₂) := by
      rw [List.append_assoc]
      exact hnested
    have hg' : ∀ v ∈ (h₁ ++ [t]) ++ u :: h₂, v.Genuine := by
      intro v hv
      refine hg v ?_
      rw [htokens]
      simp only [List.append_assoc, List.singleton_append] at hv
      exact List.mem_append_right _ (List.mem_append_left _ hv)
    rw [EndsBefore, hback, hmore]
    exact ⟨rfl, fun hopen limit limit' =>
      braceEnd_of_wellNested hg' hnested hopen limit limit' _ _⟩

/-- **What stands in front stays**: when more text is put on a new line behind a text that is read
without an issue and whose tokens are closed, the tokens, the declarations and the unsafe blocks of
the longer text start with those of the text, whatever is put there. -/
theorem arena_prefix {a : String} (hok : (parse (scan a)).ok)
    (hclosed : ∀ t ∈ scan a, ¬ t.isUnclosed) (b : String) :
    scan a <+: scan (a ++ "\n" ++ b) ∧
      (parse (scan a)).arena.entries <+: (parse (scan (a ++ "\n" ++ b))).arena.entries ∧
      (parse (scan a)).arena.regions <+: (parse (scan (a ++ "\n" ++ b))).arena.regions := by
  have hi : (topLevel (Lexeme.ofTokens (scan a))).1 = [] := by
    simpa [ParseResult.ok, parse] using hok
  obtain ⟨more, hscan⟩ := exists_scan_append_line hclosed b
  obtain ⟨trees, extra, htop, hflat⟩ := exists_topLevel_append hi more
  have hentries : (parse (scan (a ++ "\n" ++ b))).arena.entries =
      (parse (scan a)).arena.entries ++
        DeclTree.flattenForest (0 + DeclTree.sizes trees) none extra := by
    show DeclTree.flatten (topLevel (Lexeme.ofTokens (scan (a ++ "\n" ++ b)))).2 = _
    rw [hscan, htop, DeclTree.flatten, DeclTree.flattenForest_append]
    exact congrArg (· ++ _) hflat
  refine ⟨hscan ▸ List.prefix_append _ _, hentries ▸ List.prefix_append _ _, ?_⟩
  -- the longer text shows where the declarations of the text end
  have hover := over_topLevel (Lexeme.ofTokens (scan (a ++ "\n" ++ b)))
  rw [hscan, htop, ← hscan, Lexeme.map_token_ofTokens] at hover
  obtain ⟨cut, hsplit⟩ := exists_splitsAt (ordered_significant_scan _) hover
  rw [hflat] at hsplit
  have hg := genuine_ofTokens_scan a
  have hown := over_topLevel_of_no_issues hg hi
  rw [Lexeme.map_token_ofTokens] at hg hown
  show unsafeRegions (parse (scan a)).arena.entries (scan a) <+:
    unsafeRegions (parse (scan (a ++ "\n" ++ b))).arena.entries (scan (a ++ "\n" ++ b))
  rw [hentries, hscan]
  exact unsafeRegionsFrom_prefix hsplit (fun t ht => start_lt_stop_of_mem_scan ht)
    (pairwise_scan a)
    (fun front t back h => endsBefore_of_over h (ordered_significant_scan a) hg hown) _ _ []

/-- A function with an unsafe block and a comment behind it. -/
def earlierText : String :=
  "fn f() \x7b unsafe \x7b g() \x7d \x7d // last"

/-- A function whose body is never closed. -/
def brokenText : String :=
  "fn h( \x7b unsafe \x7b"

/-- The function and its block stay in front of the broken one. -/
theorem arena_prefix_broken :
    (parse (scan earlierText)).ok ∧
      (parse (scan (earlierText ++ "\n" ++ brokenText))).ok = false ∧
      scan earlierText <+: scan (earlierText ++ "\n" ++ brokenText) ∧
      (parse (scan earlierText)).arena.entries <+:
        (parse (scan (earlierText ++ "\n" ++ brokenText))).arena.entries ∧
      (parse (scan earlierText)).arena.regions <+:
        (parse (scan (earlierText ++ "\n" ++ brokenText))).arena.regions ∧
      (parse (scan earlierText)).arena.regions.length = 1 := by
  have hok : (parse (scan earlierText)).ok := by decide +kernel
  have hbroken : (parse (scan (earlierText ++ "\n" ++ brokenText))).ok = false := by
    decide +kernel
  obtain ⟨htokens, hentries, hregions⟩ := arena_prefix hok (by decide +kernel) brokenText
  exact ⟨hok, hbroken, htokens, hentries, hregions, by decide +kernel⟩

end KlarAudit

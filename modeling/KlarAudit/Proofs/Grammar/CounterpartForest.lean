import KlarAudit.Arena.Basic
import KlarAudit.Proofs.Grammar.Counterpart
import KlarAudit.Proofs.Grammar.Recovery

/-!
# Forests and their counterparts

Declarations with members have counterparts member by member, so the declarations of a file, read
without an issue, have theirs in every input that follows. More input behind the end does not take
anything back: what it adds comes after. The one thing that more input can change is an import at
the end that is still open, and an import leaves no declaration.

Only an implementation and an import look at places, so they need the likeness to be exact.

## Main definitions

* `Likeness.Suits`: the likeness is exact if a declaration of the input looks at places
* `Likeness.Trees`, `Likeness.Forests`: declaration trees and their counterparts
* `Likeness.Entries`: an entry of the arena and its counterpart

## Main results

* `opening_counterpart`: any declaration, whole or up to its members
* `topLevel_counterpart`: the declarations of a file
* `entries_of_forests`: the entries of a forest and of its counterpart
-/

namespace KlarAudit

/-! ## Declarations with members -/

/-- A block and its counterpart. -/
structure Likeness.Blocks (L : Likeness) (b b' : Block) : Prop where
  heading : L.Agree Heading.bare b.heading b'.heading
  first : L.tokens b.first b'.first
  publicMembers_eq : b.publicMembers = b'.publicMembers

/-- What a declaration turns out to be, and its counterpart. -/
inductive Likeness.Openings (L : Likeness) : Opening → Opening → Prop where
  | nothing : L.Openings (.complete none) (.complete none)
  | whole {d d' : Declaration} (h : L.Declarations d d') :
    L.Openings (.complete (some d)) (.complete (some d'))
  | block {b b' : Block} (h : L.Blocks b b') : L.Openings (.block b) (.block b')

section Blocks

open KlarAudit.Parser

variable {L : Likeness}

theorem firm_trait {pre pre' : Preamble} (hpre : L.Preambles pre pre') :
    Firm L (trait pre) (trait pre') L.Blocks := by
  refine (firm_expect _).carries.firm fun _ _ _ => (firm_expectName _).carries.firm
    fun name name' hname => carries_generics.firm fun g g' hg => (carries_typeAfter _ _).firm
      fun ty ty' hty => carries_whereBounds.firm fun bs bs' hbs =>
        (firm_expect _).map fun _ _ _ => ?_
  subst hg hty hbs
  refine ⟨⟨?_, fun he => ?_⟩, hpre.first, hpre.isPublic_eq⟩
  · simp only [Heading.bare, Shape.bare]
    rw [hpre.isPublic_eq, L.text_eq hname]
  · rw [hpre.eq he, L.eq_of_exact he hname]

/-- The generic parameters of an implementation: the bracket must touch the keyword. -/
theorem carries_implGenerics (he : L.exact) (keyword : Token) :
    Carries L (implGenerics keyword) (implGenerics keyword) Eq := by
  refine carries_peek?.bind fun next next' hnext => ?_
  obtain rfl : next = next' := Likeness.eq_of_rel (fun _ _ h => h.2 he) hnext
  split
  · exact carries_generics
  · exact carries_pure rfl

theorem carries_implTarget (keyword : Token) :
    Carries L (implTarget keyword) (implTarget keyword) Eq := by
  refine (firm_collect _ _).carries.bind fun run run' hrun => (carries_typeAfter _ _).bind
    fun target target' htarget => ?_
  subst htarget
  rw [Likeness.render_eq hrun]
  split
  · exact (firm_of_fails fun _ _ h => by cases h).carries
  · exact carries_pure rfl

theorem firm_impl (he : L.exact) {pre pre' : Preamble} (hpre : L.Preambles pre pre') :
    Firm L (impl pre) (impl pre') L.Blocks := by
  refine (firm_expect _).carries.firm fun keyword keyword' hkeyword => ?_
  obtain rfl := L.eq_of_exact he hkeyword
  refine (carries_implGenerics he keyword).firm fun g g' hg => (carries_implTarget keyword).firm
    fun t t' ht => ?_
  subst hg ht
  refine carries_whereBounds.firm fun bs bs' hbs => (firm_expect _).map fun _ _ _ => ?_
  subst hbs
  exact ⟨⟨rfl, fun _ => rfl⟩, hpre.first, rfl⟩

/-- A module ends with a semicolon, or its members follow. -/
theorem firm_module (keyword : String) {pre pre' : Preamble} (hpre : L.Preambles pre pre') :
    Firm L (module keyword pre) (module keyword pre') L.Openings := by
  refine (firm_expect _).carries.firm fun _ _ _ => (firm_expectName _).carries.firm
    fun name name' hname => ?_
  refine ⟨fun h => (by cases h), @fun more ls ms o rest hs h => ?_⟩
  obtain ⟨t, mid, ht, h⟩ := bind_eq_ok.mp h
  cases t with
  | some t =>
    cases h
    obtain ⟨t', rest', ht', hrest, -⟩ := accept_of_some hs ht
    exact ⟨_, rest', bind_eq_ok.mpr ⟨some t', rest', ht', rfl⟩, hrest, .nothing⟩
  | none =>
    have hmid : mid ≠ [] := by
      rintro rfl
      cases h
    obtain ⟨t', mid', ht', hmid', hnone⟩ :=
      (carries_accept _).reads_of_ne_nil hs ht hmid
    cases hnone
    obtain ⟨brace, left, hbrace, h⟩ := bind_eq_ok.mp h
    cases h
    obtain ⟨brace', rest', hbrace', hrest, -⟩ := (firm_expect _).reads hmid' hbrace
    refine ⟨_, rest', bind_eq_ok.mpr ⟨none, mid', ht', bind_eq_ok.mpr ⟨_, _, hbrace', rfl⟩⟩, hrest,
      .block ⟨⟨?_, fun he => ?_⟩, hpre.first, rfl⟩⟩
    · simp only [Heading.bare, Shape.bare]
      rw [hpre.isPublic_eq, L.text_eq hname]
    · rw [hpre.eq he, L.eq_of_exact he hname]

/-! ## Imports and aliases -/

theorem carries_importFrom (he : L.exact) (line : Nat) (stack : List Token) :
    Carries L (importFrom line stack) (importFrom line stack) fun _ _ => True := by
  refine ⟨fun h => (by cases h; rfl), @fun more ls ms r rest hs h hend => ?_⟩
  induction hs generalizing stack with
  | nil => cases h; rw [hend rfl]; exact ⟨(), [], rfl, .nil, trivial⟩
  | @cons l m ls ms hl hs ih =>
    -- where an import ends depends on lines, so the inputs have to be the same
    obtain rfl := hl.2 he
    simp only [importFrom] at h ⊢
    split at h
    · rename_i hstop
      cases h
      rw [if_pos hstop]
      exact ⟨(), ms, rfl, hs, trivial⟩
    · rename_i hstop
      rw [if_neg hstop]
      split at h
      · rename_i hline
        cases h
        rw [if_pos hline]
        exact ⟨(), _, rfl, .cons hl hs, trivial⟩
      · rename_i hline
        rw [if_neg hline]
        cases hn : nest stack l.token with
        | none => rw [hn] at h; cases h
        | some stack' =>
          rw [hn] at h
          exact ih _ h

theorem carries_importItem (he : L.exact) (keyword : String) :
    Carries L (importItem keyword) (importItem keyword) fun _ _ => True := by
  refine (firm_expect _).carries.bind fun head head' hhead => ?_
  rw [L.eq_of_exact he hhead]
  exact carries_importFrom he _ []

theorem firm_typeAlias : Firm L typeAlias typeAlias Eq :=
  (firm_expect _).carries.firm fun _ _ _ => (firm_collect _ _).carries.firm fun _ _ _ =>
    (firm_expect _).map fun _ _ _ => rfl

end Blocks

/-! ## Any declaration -/

/-- The keywords of declarations that look at places: whether an import goes on depends on the line,
and whether a bracket belongs to an implementation on its touching the keyword. -/
def placeKeywords : List String :=
  ["use", "import", "impl"]

/-- The likeness suits the input: it is exact if a declaration in it may look at places. -/
def Likeness.Suits (L : Likeness) (ls : List Lexeme) : Prop :=
  ∀ l ∈ ls, l.token.isKeywordIn placeKeywords → L.exact

section Any

variable {L : Likeness} {more ls ms rest : List Lexeme} {pre pre' : Preamble} {o : Opening}

theorem Likeness.Suits.suffix (h : L.Suits ls) (hs : rest <:+ ls) : L.Suits rest :=
  fun l hl => h l (hs.subset hl)

theorem introduces?_eq {a b : Token} (h : L.tokens a b) : a.introduces? = b.introduces? := by
  rw [Token.introduces?, Token.introduces?, L.kind_eq h, L.text_eq h]

theorem open_counterpart {i : Introducer} {t t' : Token} (ht : L.tokens t t')
    (hpre : L.Preambles pre pre') (hexact : i = .impl ∨ i = .importItem → L.exact)
    (hs : L.Follows more ls ms) (h : i.open t pre ls = ⟨[], .ok (o, rest)⟩)
    (hend : o = .complete none → rest = [] → more = []) :
    ∃ o' rest', i.open t' pre' ms = ⟨[], .ok (o', rest')⟩ ∧ L.Follows more rest rest' ∧
      L.Openings o o' := by
  -- all introducers but a structure run a parser and only wrap what it reads
  have firm {α : Type} {p q : Parser α} {f : α → Opening} {R : α → α → Prop} (hp : Firm L p q R)
      (hf : ∀ a b, R a b → L.Openings (f a) (f b))
      (h : Attempt.ofParser (f <$> p) ls = ⟨[], .ok (o, rest)⟩) :
      ∃ o' rest', Attempt.ofParser (f <$> q) ms = ⟨[], .ok (o', rest')⟩ ∧
        L.Follows more rest rest' ∧ L.Openings o o' := by
    obtain ⟨a, ha, rfl⟩ := Parser.map_eq_ok.mp (congrArg Attempt.outcome h)
    obtain ⟨b, rest', hb, hrest, hab⟩ := hp.reads hs ha
    exact ⟨_, rest', Attempt.eq_of_ok rfl (Parser.map_eq_ok.mpr ⟨b, hb, rfl⟩), hrest, hf _ _ hab⟩
  unfold Introducer.open at h ⊢
  rw [← L.text_eq ht]
  cases i with
  | function => exact firm (firm_function hpre) (fun _ _ => .whole) h
  | struct =>
    obtain ⟨⟨d, left⟩, hd, hx⟩ := Attempt.outcome_map_eq_ok.mp (congrArg Attempt.outcome h)
    cases hx
    have hissues := congrArg Attempt.issues h
    rw [Attempt.issues_map] at hissues
    obtain ⟨d', rest', hd', hrest, hdd⟩ :=
      structItem_counterpart hpre hs (Attempt.eq_of_ok hissues hd)
    exact ⟨_, rest', by rw [hd']; rfl, hrest, .whole hdd⟩
  | enumeration => exact firm (firm_enumeration hpre) (fun _ _ => .whole) h
  | trait => exact firm (firm_trait hpre) (fun _ _ => .block) h
  | impl => exact firm (firm_impl (hexact (.inl rfl)) hpre) (fun _ _ => .block) h
  | constant => exact firm (firm_constant _ hpre) (fun _ _ => .whole) h
  | module =>
    obtain ⟨o', rest', ho', hrest, hoo⟩ :=
      (firm_module _ hpre).reads hs (congrArg Attempt.outcome h)
    exact ⟨o', rest', Attempt.eq_of_ok rfl ho', hrest, hoo⟩
  | importItem =>
    obtain ⟨⟨⟩, ha, rfl⟩ := Parser.map_eq_ok.mp (congrArg Attempt.outcome h)
    obtain ⟨⟨⟩, rest', hb, hrest, -⟩ :=
      (carries_importItem (hexact (.inr rfl)) _).reads hs ha (hend rfl)
    exact ⟨_, rest', Attempt.eq_of_ok rfl (Parser.map_eq_ok.mpr ⟨(), hb, rfl⟩), hrest, .nothing⟩
  | typeAlias => exact firm firm_typeAlias (fun _ _ _ => .nothing) h

/-- **Any declaration**, whole or up to its members, and its counterpart. -/
theorem opening_counterpart {byPlace : Bool} (hL : L.Suits ls) (hs : L.Follows more ls ms)
    (h : opening byPlace ls = ⟨[], .ok (o, rest)⟩)
    (hend : o = .complete none → rest = [] → more = []) :
    ∃ o' rest', opening byPlace ms = ⟨[], .ok (o', rest')⟩ ∧ L.Follows more rest rest' ∧
      L.Openings o o' := by
  obtain ⟨l, tail, pre, after, rfl, hpre, hbefore, ho, hissues⟩ :=
    opening_split (congrArg Attempt.outcome h)
  rw [show (opening byPlace (l :: tail)).issues = [] by rw [h]] at hissues
  obtain ⟨l₂, tail₂, i, rfl, hi, hopen⟩ := exists_introducer ho
  cases hs with
  | @cons _ m _ ms hl hs =>
    obtain ⟨pre', after', hpre', hafter, hpp⟩ :=
      (carries_preamble byPlace hl).reads (.cons hl hs) hpre nofun
    rw [opening_of_preamble hpre']
    cases hafter with
    | @cons _ m₂ _ ms₂ hl₂ hs₂ =>
      have hopen' : openAfter pre' (m₂ :: ms₂) = i.open m₂.token pre' (m₂ :: ms₂) := by
        simp only [openAfter, ← introduces?_eq hl₂.1, hi]
      rw [hopen']
      rw [hopen] at ho hissues
      refine open_counterpart hl₂.1 hpp (fun hexact => ?_) (.cons hl₂ hs₂)
        (Attempt.eq_of_ok hissues.symm ho) hend
      -- the keyword tells what is introduced, and it is a token of the input
      refine hL l₂ (hbefore.suffix.subset List.mem_cons_self) ?_
      obtain ⟨hkind, hmem⟩ := Token.introduces?_eq_some hi
      have hword : placeKeywords.contains l₂.token.text :=
        (by decide : ∀ p ∈ Introducer.keywords, p.2 = .impl ∨ p.2 = .importItem →
          placeKeywords.contains p.1) _ hmem hexact
      rw [Token.isKeywordIn, hkind, hword]
      rfl

end Any

/-! ## Declarations with their members -/

mutual

/-- **A declaration tree and its counterpart.** -/
inductive Likeness.Trees (L : Likeness) : DeclTree → DeclTree → Prop where
  | node {d d' : Declaration} {ts ts' : List DeclTree} (h : L.Declarations d d')
    (hs : L.Forests ts ts') : L.Trees (.node d ts) (.node d' ts')

/-- **A forest and its counterpart**, tree by tree. -/
inductive Likeness.Forests (L : Likeness) : List DeclTree → List DeclTree → Prop where
  | nil : L.Forests [] []
  | cons {t t' : DeclTree} {ts ts' : List DeclTree} (h : L.Trees t t') (hs : L.Forests ts ts') :
    L.Forests (t :: ts) (t' :: ts')

end

section Forest

variable {L : Likeness} {more ls ms : List Lexeme}

theorem Likeness.Forests.append {ts ts' us us' : List DeclTree} (h : L.Forests ts ts')
    (k : L.Forests us us') : L.Forests (ts ++ us) (ts' ++ us') := by
  induction ts generalizing ts' with
  | nil => cases h; exact k
  | cons t ts ih =>
    cases h with
    | cons ht hs => exact .cons ht (ih hs)

theorem Likeness.Forests.toList {t t' : Option DeclTree} (h : Option.Rel L.Trees t t') :
    L.Forests t.toList t'.toList := by
  cases h with
  | none => exact .nil
  | some h => exact .cons h .nil

theorem isContainer_bare (s : Shape) : s.bare.isContainer = s.isContainer := by
  cases s <;> rfl

/-- A closed block and its counterpart. -/
theorem Likeness.Blocks.declarations {b b' : Block} (h : L.Blocks b b')
    (hc : b.heading.shape.isContainer) {close close' : Token} (hclose : L.tokens close close') :
    L.Declarations (b.declaration close) (b'.declaration close') := by
  have hc' : b'.heading.shape.isContainer := by
    rw [← isContainer_bare, ← (Heading.mk.inj h.heading.1).1, isContainer_bare]
    exact hc
  refine ⟨⟨?_, fun he => ?_⟩, ⟨_, _, _, _, h.first, hclose, rfl, rfl⟩, ?_⟩
  · exact congrArg (Declaration.mk · Span.nowhere) h.heading.1
  · rw [Block.declaration, Block.declaration, h.heading.2 he, L.eq_of_exact he h.first,
      L.eq_of_exact he hclose]
  · rw [body?_of_isContainer (d := b.declaration close) hc,
      body?_of_isContainer (d := b'.declaration close') hc']
    exact .none

/-- **A declaration with its members**, read without an issue, and its counterpart. -/
theorem item_counterpart (L : Likeness) (more : List Lexeme) :
    (∀ byPlace ls (r : ItemResult ls), (item byPlace ls).outcome = .ok r →
      (item byPlace ls).issues = [] → L.Suits ls → ∀ ms, L.Follows more ls ms →
      (r.tree = none → r.rest = [] → more = []) →
      ∃ r', item byPlace ms = ⟨[], .ok r'⟩ ∧ L.Follows more r.rest r'.rest ∧
        Option.Rel L.Trees r.tree r'.tree) ∧
    ∀ first byPlace ls (m : BodyResult ls), (members first byPlace ls).outcome = .ok m →
      (members first byPlace ls).issues = [] → L.Suits ls → ∀ first' ms, L.Follows more ls ms →
      ∃ m', members first' byPlace ms = ⟨[], .ok m'⟩ ∧ L.Follows more m.rest m'.rest ∧
        L.Forests m.trees m'.trees ∧ L.tokens m.close m'.close := by
  refine reading_induction ?complete ?block ?close ?member ?skipped
  case complete =>
    intro byPlace ls d rest h hi hL ms hs hend
    rw [item_of_complete h] at hi
    obtain ⟨o', rest', ho', hrest, ho⟩ := opening_counterpart hL hs (Attempt.eq_of_ok hi h)
      fun hd => hend (by cases hd; rfl)
    cases ho with
    | nothing => exact ⟨_, item_of_complete_ok ho', hrest, .none⟩
    | whole hd => exact ⟨_, item_of_complete_ok ho', hrest, .some (Likeness.Trees.node hd .nil)⟩
  case block =>
    intro byPlace ls b rest m h hm ih hi hL ms hs hend
    rw [item_of_block h] at hi
    obtain ⟨hi, hi'⟩ := List.append_eq_nil_iff.mp hi
    obtain ⟨o', rest', ho', hrest, ho⟩ := opening_counterpart hL hs (Attempt.eq_of_ok hi h) nofun
    cases ho with
    | @block _ b' hb =>
      obtain ⟨_, _, -, -, hc, -⟩ := block_of_opening h
      have hL' := hL.suffix (opening_of_block h).1.suffix
      obtain ⟨m', hm', hrest', htrees, hclose⟩ := ih hi' hL' b'.first rest' hrest
      rw [hb.publicMembers_eq] at hm'
      have htree := Likeness.Trees.node (hb.declarations hc hclose) htrees
      exact ⟨_, item_of_block_ok ho' hm', hrest', .some htree⟩
  case close =>
    intro first byPlace l tail h hl hi hL first' ms hs
    cases hs with
    | @cons _ m _ ms hm hs =>
      rw [Likeness.is_eq hm.1] at hl
      exact ⟨_, members_of_close hl, hs, .nil, hm.1⟩
  case member =>
    intro first byPlace l tail r m hl hr hm ihItem ihBody hi hL first' ms hs
    rw [members_of_item hl hr] at hi
    obtain ⟨hi, hi'⟩ := List.append_eq_nil_iff.mp hi
    -- the body goes on behind the member, so what follows the input cannot reach the member
    have hne : r.rest ≠ [] := fun h => absurd m.shorter (by simp [h])
    obtain ⟨r', hr', hrest, htree⟩ := ihItem hi hL ms hs fun _ h => absurd h hne
    have hL' := hL.suffix (suffix_of_item hr)
    obtain ⟨m', hm', hrest', htrees, hclose⟩ := ihBody hi' hL' first' r'.rest hrest
    cases hs with
    | @cons _ l' _ ms hl' hs =>
      rw [Likeness.is_eq hl'.1] at hl
      exact ⟨_, members_of_item_ok hl hr' hm', hrest',
        (Likeness.Forests.toList htree).append htrees, hclose⟩
  case skipped =>
    intro first byPlace l tail e rest m h hl he hs hm ih hi
    rw [members_of_resync hl he hs] at hi
    exact absurd hi (by simp)

/-- **The declarations of a file**, read without an issue, and their counterparts. What more input
adds comes behind them. -/
theorem topLevel_counterpart (hL : L.Suits ls) (hs : L.Follows more ls ms)
    (hi : (topLevel ls).1 = []) :
    ∃ trees extra, (topLevel ms).2 = trees ++ extra ∧ L.Forests (topLevel ls).2 trees ∧
      (more = [] → (topLevel ms).1 = [] ∧ extra = []) := by
  induction ls using topLevel_induction generalizing ms with
  | nil =>
    rw [hs.eq_more, topLevel_nil]
    refine ⟨[], (topLevel more).2, rfl, .nil, ?_⟩
    rintro rfl
    rw [topLevel_nil]
    exact ⟨rfl, rfl⟩
  | @read l tail r h ih =>
    rw [topLevel_of_item h] at hi ⊢
    obtain ⟨hi, hi'⟩ := List.append_eq_nil_iff.mp hi
    -- a declaration that leaves no entry may be read on into what is added
    by_cases hend : r.tree = none → r.rest = [] → more = []
    · obtain ⟨r', hr', hrest, htree⟩ := (item_counterpart L more).1 _ _ _ h hi hL _ hs hend
      obtain ⟨trees, extra, htop, hforest, hnone⟩ := ih (hL.suffix (suffix_of_item h)) hrest hi'
      cases hs with
      | @cons _ m _ ms _ _ =>
        rw [topLevel_of_item (congrArg Attempt.outcome hr')]
        refine ⟨r'.tree.toList ++ trees, extra, ?_, ?_, fun hmore => ?_⟩
        · rw [htop, List.append_assoc]
        · exact (Likeness.Forests.toList htree).append hforest
        · rw [hr', (hnone hmore).1]
          exact ⟨rfl, (hnone hmore).2⟩
    · -- the last declaration leaves none, and it may be read otherwise when there is more
      simp only [Classical.not_imp] at hend
      obtain ⟨htree, hrest, hmore⟩ := hend
      refine ⟨[], (topLevel ms).2, rfl, ?_, fun h => absurd h hmore⟩
      rw [htree, hrest, topLevel_nil]
      exact .nil
  | skipped h ih =>
    rw [topLevel_of_error h] at hi
    exact absurd hi (by simp)

end Forest

/-! ## The entries of the arena -/

/-- **An entry and its counterpart.** -/
structure Likeness.Entries (L : Likeness) (e e' : Entry) : Prop where
  decl : L.Declarations e.decl e'.decl
  parent_eq : e.parent = e'.parent
  members_eq : e.members = e'.members

namespace DeclTree

variable {L : Likeness}

theorem isFunction_bare (s : Shape) : s.bare.isFunction = s.isFunction := by
  cases s <;> rfl

theorem linked_bare (s : Shape) (roots : List (Nat × DeclTree)) :
    linked s.bare roots = linked s roots := by
  cases s <;> rfl

mutual

theorem size_of_trees {t t' : DeclTree} (h : L.Trees t t') : t.size = t'.size :=
  match t, t', h with
  | node _ _, node _ _, .node _ hs => by rw [size, size, sizes_of_forests hs]

theorem sizes_of_forests {ts ts' : List DeclTree} (h : L.Forests ts ts') : sizes ts = sizes ts' :=
  match ts, ts', h with
  | [], [], .nil => rfl
  | _ :: _, _ :: _, .cons h hs => by rw [sizes, sizes, size_of_trees h, sizes_of_forests hs]

end

/-- The links of a declaration are those of its counterpart. -/
theorem linked_of_forests (s : Shape) {ts ts' : List DeclTree} (h : L.Forests ts ts')
    (index : Nat) : linked s (roots index ts) = linked s (roots index ts') := by
  -- which roots are linked depends on shapes alone, and these agree but for places
  have key (p : Shape → Bool) (hp : ∀ s, p s.bare = p s) :
      ((roots index ts).filter (p ·.2.decl.shape)).map (·.1) =
        ((roots index ts').filter (p ·.2.decl.shape)).map (·.1) := by
    induction ts generalizing ts' index with
    | nil => cases h; rfl
    | cons t ts ih =>
      cases h with
      | @cons _ t' _ ts' ht hs =>
        have hroot : p t.decl.shape = p t'.decl.shape := by
          cases ht with
          | node hd _ =>
            have hbare := congrArg (p ·.shape) hd.agree.1
            exact (hp _).symm.trans (hbare.trans (hp _))
        rw [roots, roots, List.filter_cons, List.filter_cons, hroot, size_of_trees ht]
        split
        · rw [List.map_cons, List.map_cons, ih hs]
        · exact ih hs _
  cases s with
  | module => simpa [linked] using key (fun _ => true) fun _ => rfl
  | trait | impl => exact key Shape.isFunction isFunction_bare
  | _ => rfl

mutual

theorem entries_of_trees {t t' : DeclTree} (h : L.Trees t t') (index : Nat)
    (parent : Option Nat) :
    List.Forall₂ L.Entries (flattenTree index parent t) (flattenTree index parent t') :=
  match t, t', h with
  | node d ts, node d' ts', .node hd hs => by
    rw [flattenTree, flattenTree]
    refine .cons ⟨hd, rfl, ?_⟩ (entries_of_forests hs _ _)
    dsimp only
    rw [linked_of_forests d.shape hs, ← linked_bare d.shape, ← linked_bare d'.shape]
    exact congrArg (linked ·.shape _) hd.agree.1

/-- **The entries of a forest** and those of its counterpart. -/
theorem entries_of_forests {ts ts' : List DeclTree} (h : L.Forests ts ts') (index : Nat)
    (parent : Option Nat) :
    List.Forall₂ L.Entries (flattenForest index parent ts) (flattenForest index parent ts') :=
  match ts, ts', h with
  | [], [], .nil => .nil
  | _ :: _, _ :: _, .cons h hs => by
    rw [flattenForest, flattenForest, ← size_of_trees h]
    exact List.rel_append (entries_of_trees h _ _) (entries_of_forests hs _ _)

end

end DeclTree

end KlarAudit

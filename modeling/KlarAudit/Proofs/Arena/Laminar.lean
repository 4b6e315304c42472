import KlarAudit.Proofs.Arena.Body
import KlarAudit.Proofs.Grammar.Extent

/-!
# The spans of the arena

The spans of the declarations of a file form an ordered laminar family: they start in the order in
which the declarations are listed, a member lies strictly inside the declaration that holds it, and
two declarations in the same place never overlap. Recovery steps back in the input, but only after
dropping what was read from there, so the declarations that are kept have been read from stretches
of the input one after another.

## Main definitions

* `DeclTree.Over t ts`: the tree has been read from the tokens `ts`
* `Nest`: the entries of a forest, nested between two offsets
* `Laminar entries`: the spans of the entries and of their parts are nested and ordered

## Main results

* `over_topLevel`: the declarations of a file have been read from stretches of it in order
* `arena_laminar`: the arena of a text is laminar
-/

namespace KlarAudit

/-! ## Extents of tokens that stand in order -/

/-- The tokens stand one after another, and none is empty. -/
structure Ordered (ts : List Token) : Prop where
  /-- A token stops behind its start. -/
  nonempty : ∀ t ∈ ts, t.start < t.stop
  /-- A token stops before the next one starts. -/
  apart : ts.Pairwise fun a b => a.stop ≤ b.start

namespace Ordered

variable {ts us : List Token} {s : Span}

/-- The starts of tokens in order are ascending. -/
theorem pairwise_start (h : Ordered ts) :
    ts.Pairwise fun a b => a.start < b.start :=
  h.apart.imp_of_mem fun {a _} ha _ hab => Nat.lt_of_lt_of_le (h.nonempty a ha) hab

theorem left (h : Ordered (ts ++ us)) : Ordered ts :=
  ⟨fun t ht => h.nonempty t (List.mem_append_left _ ht), (List.pairwise_append.mp h.apart).1⟩

theorem right (h : Ordered (ts ++ us)) : Ordered us :=
  ⟨fun t ht => h.nonempty t (List.mem_append_right _ ht), (List.pairwise_append.mp h.apart).2.1⟩

theorem across (h : Ordered (ts ++ us)) {a b : Token} (ha : a ∈ ts) (hb : b ∈ us) :
    a.stop ≤ b.start :=
  (List.pairwise_append.mp h.apart).2.2 a ha b hb

/-- The extent of a run covers each of its tokens. -/
theorem covers (h : Ordered ts) (hs : Extent ts s) {t : Token} (ht : t ∈ ts) :
    s.start ≤ t.start ∧ t.stop ≤ s.stop := by
  obtain ⟨a, b, ha, hb, rfl⟩ := hs
  constructor
  · obtain ⟨more, rfl⟩ := List.head?_eq_some_iff.mp ha
    rcases List.mem_cons.mp ht with rfl | ht
    · exact Int.le_refl _
    · have hat := (List.pairwise_cons.mp h.apart).1 t ht
      have ha := h.nonempty a List.mem_cons_self
      exact Int.ofNat_le.mpr (by omega)
  · obtain ⟨before, rfl⟩ := List.getLast?_eq_some_iff.mp hb
    rcases List.mem_append.mp ht with ht | ht
    · have htb := h.across ht (List.mem_singleton_self b)
      have hb := h.nonempty b (by simp)
      exact Int.ofNat_le.mpr (by omega)
    · obtain rfl := List.mem_singleton.mp ht
      exact Int.le_refl _

/-- The extent of a run is not empty. -/
theorem start_lt_stop (h : Ordered ts) (hs : Extent ts s) : s.start < s.stop := by
  obtain ⟨a, b, ha, hb, rfl⟩ := id hs
  have hmem : a ∈ ts := List.mem_of_mem_head? ha
  have hstop := (h.covers hs hmem).2
  have hlt := Int.ofNat_lt.mpr (h.nonempty a hmem)
  exact Int.lt_of_lt_of_le hlt hstop

/-- The extents of stretches lie in the extent of the run. -/
theorem covers_of_append {before here after : List Token} {r : Span}
    (h : Ordered (before ++ (here ++ after))) (hs : Extent (before ++ (here ++ after)) s)
    (hr : Extent here r) : s.Covers r := by
  obtain ⟨a, b, ha, hb, rfl⟩ := hr
  have ha : a ∈ here := List.mem_of_mem_head? ha
  have hb : b ∈ here := List.mem_of_mem_getLast? hb
  exact ⟨(h.covers hs (by simp [ha])).1, (h.covers hs (by simp [hb])).2⟩

/-- Spans on stretches are nonempty, and each stands on a stretch of the run. -/
theorem forall_inOrder {ss : List Span} (h : Ordered ts)
    (hs : InOrder (fun s ts => Extent ts s) ss ts) :
    ∀ s ∈ ss, s.start < s.stop ∧ ∃ before here after,
      ts = before ++ (here ++ after) ∧ Extent here s := by
  induction hs with
  | nil => simp
  | @cons s ss skipped here more hhere _ ih =>
    intro r hr
    rcases List.mem_cons.mp hr with rfl | hr
    · exact ⟨h.right.left.start_lt_stop hhere, skipped, here, more, rfl, hhere⟩
    · obtain ⟨hlt, before, here', after, rfl, hextent⟩ := ih h.right.right r hr
      exact ⟨hlt, skipped ++ (here ++ before), here', after, by simp, hextent⟩

/-- Spans on stretches come one after another. -/
theorem pairwise_inOrder {ss : List Span} (h : Ordered ts)
    (hs : InOrder (fun s ts => Extent ts s) ss ts) : ss.Pairwise fun s r => s.stop ≤ r.start := by
  induction hs with
  | nil => exact List.Pairwise.nil
  | @cons s ss skipped here more hhere hmore ih =>
    refine List.Pairwise.cons (fun r hr => ?_) (ih h.right.right)
    obtain ⟨-, before, here', after, rfl, hextent⟩ := h.right.right.forall_inOrder hmore r hr
    obtain ⟨a, b, -, hb, rfl⟩ := hhere
    obtain ⟨c, d, hc, -, rfl⟩ := hextent
    refine Int.ofNat_le.mpr (h.right.across (List.mem_of_mem_getLast? hb) ?_)
    simp [List.mem_of_mem_head? hc]

end Ordered

/-! ## Trees over tokens -/

/-- **The parts of a declaration lie in it**: a body, up to the end of the declaration, and the
fields or variants, one after another. -/
structure Declaration.Fits (d : Declaration) : Prop where
  /-- A body is not empty, lies in the declaration and ends where the declaration ends. -/
  body : ∀ {s}, d.body? = some s → s.start < s.stop ∧ d.span.Covers s ∧ s.stop = d.span.stop
  /-- A field or variant is not empty and lies in the declaration. -/
  parts : ∀ s ∈ d.shape.parts, s.start < s.stop ∧ d.span.Covers s
  /-- The fields or variants come one after another. -/
  apart : d.shape.parts.Pairwise fun s t => s.stop ≤ t.start

/-- A declaration read whole, from tokens that stand in order. -/
theorem Placed.fits {pre : Preamble} {d : Declaration} {ts : List Token} (h : Placed pre d ts)
    (hfirst : ts.head? = some pre.first) (ho : Ordered ts) : Extent ts d.span ∧ d.Fits := by
  obtain ⟨last, hlast, -, hspan⟩ := h.span
  have hextent : Extent ts d.span := ⟨pre.first, last, hfirst, hlast, hspan⟩
  refine ⟨hextent, ⟨?_, ?_, ho.pairwise_inOrder h.parts⟩⟩
  · intro s hs
    obtain ⟨before, here, rfl, hhere⟩ := h.body s hs
    obtain ⟨a, b, ha, hb, rfl⟩ := id hhere
    refine ⟨ho.right.start_lt_stop hhere, ?_, ?_⟩
    · rw [← List.append_nil here] at ho hextent
      exact ho.covers_of_append hextent hhere
    · rw [List.getLast?_append, hb] at hlast
      obtain rfl : b = last := by simpa using hlast
      rw [hspan]
  · intro s hs
    obtain ⟨hlt, before, here, after, rfl, hhere⟩ := ho.forall_inOrder h.parts s hs
    exact ⟨hlt, ho.covers_of_append hextent hhere⟩

/-- **A tree over tokens**: the tokens from which the declaration has been read, those of its
members standing between its heading and its last token. -/
inductive DeclTree.Over : DeclTree → List Token → Prop where
  /-- A declaration without members. -/
  | leaf {d : Declaration} {ts : List Token} (h : Ordered ts → Extent ts d.span ∧ d.Fits)
    (hlast : ∀ t ∈ ts.getLast?, t.Terminal) : Over (node d []) ts
  /-- A declaration with members. -/
  | container {d : Declaration} {trees : List DeclTree} {heading inner : List Token} {close : Token}
    (hc : d.shape.isContainer) (hne : heading ≠ []) (hlast : close.Terminal)
    (h : Extent (heading ++ (inner ++ [close])) d.span) (hs : InOrder Over trees inner) :
    Over (node d trees) (heading ++ (inner ++ [close]))

/-- Modules, traits and implementations have no parts of their own. -/
theorem Declaration.fits_of_isContainer {d : Declaration} (h : d.shape.isContainer) : d.Fits := by
  have hparts : d.shape.parts = [] := by
    cases hd : d.shape <;> simp_all [Shape.isContainer, Shape.parts]
  refine ⟨fun hs => ?_, ?_, ?_⟩
  · rw [body?_of_isContainer h] at hs
    cases hs
  · simp [hparts]
  · simp [hparts]

/-! ## What is read -/

/-- What is read has been read from the tokens that are taken. -/
theorem over_item :
    (∀ byPlace ls (r : ItemResult ls), (item byPlace ls).outcome = .ok r →
      Between ls r.rest fun ts => ∀ t ∈ r.tree, t.Over ts) ∧
    ∀ first byPlace ls (m : BodyResult ls), (members first byPlace ls).outcome = .ok m →
      Between ls m.rest fun ts => ∃ inner, ts = inner ++ [m.close] ∧ m.close.Terminal ∧
        InOrder DeclTree.Over m.trees inner := by
  refine reading_induction ?complete ?block ?close ?member ?skipped
  case complete =>
    intro byPlace ls d rest h
    cases d with
    | none =>
      obtain ⟨taken, hls⟩ := suffix_of_item (congrArg Attempt.outcome (item_of_complete h))
      exact ⟨taken, hls.symm, nofun⟩
    | some d =>
      obtain ⟨pre, hfirst, taken, rfl, hplaced⟩ := placed_of_opening h
      obtain ⟨last, hlast, hterminal, -⟩ := hplaced.span
      have hhead : (taken.map Lexeme.token).head? = some pre.first := by
        cases taken with
        | nil => cases hlast
        | cons l taken => exact hfirst
      refine ⟨taken, rfl, ?_⟩
      rintro t ⟨⟩
      refine .leaf (fun ho => hplaced.fits hhead ho) fun t ht => ?_
      cases hlast.symm.trans ht
      exact hterminal
  case block =>
    intro byPlace ls b rest m h hm ih
    obtain ⟨l, tail, hl, hfirst, hc, heading, opener, hls, -⟩ := block_of_opening h
    obtain ⟨taken, hrest, inner, htaken, hterminal, hinner⟩ := ih
    refine ⟨(heading ++ [opener]) ++ taken, by simp [hls, ← hrest], ?_⟩
    rw [List.map_append, htaken]
    rintro t ⟨⟩
    refine .container hc (by simp) hterminal ⟨b.first, m.close, ?_, ?_, rfl⟩ hinner
    · rw [hfirst]
      rw [hl] at hls
      cases heading <;> cases hls <;> rfl
    · rw [← List.append_assoc, List.getLast?_concat]
  case close =>
    intro first byPlace l tail h hl
    exact ⟨[l], rfl, [], rfl, .inr ⟨.brace, hl⟩, .nil []⟩
  case member =>
    intro first byPlace l tail r m hl hr hm ihItem ihBody
    refine ihItem.trans ihBody ?_
    rintro ts us hts ⟨inner, rfl, hclose, hinner⟩
    exact ⟨ts ++ inner, (List.append_assoc ..).symm, hclose, (InOrder.toList hts).append hinner⟩
  case skipped =>
    -- recovery steps back to the start of the member, so what it skips stands behind what is kept
    intro first byPlace l tail e rest m h hl he hs hm ih
    refine (counts_skipped byPlace hl hs).trans ih ?_
    rintro ts us - ⟨inner, rfl, hclose, hinner⟩
    exact ⟨ts ++ inner, (List.append_assoc ..).symm, hclose, hinner.prepend ts⟩

/-- **The declarations of a file** have been read from stretches of it, one after another. -/
theorem over_topLevel (ls : List Lexeme) :
    InOrder DeclTree.Over (topLevel ls).2 (ls.map Lexeme.token) := by
  induction ls using topLevel_induction with
  | nil => simpa [topLevel_nil] using InOrder.nil []
  | @read l tail r h ih =>
    rw [topLevel_of_item h]
    obtain ⟨taken, hls, htaken⟩ := over_item.1 _ _ _ h
    have hover := (InOrder.toList htaken).append ih
    rw [← List.map_append, ← hls] at hover
    exact hover
  | @skipped l tail e h ih =>
    rw [topLevel_of_error h]
    obtain ⟨taken, hls⟩ := (List.dropWhile_suffix _).trans (List.suffix_cons l tail)
    rw [← hls, List.map_append]
    exact ih.prepend _

/-! ## The entries of a forest -/

/-- The span `t` lies strictly inside the span `s`. -/
def Span.Encloses (s t : Span) : Prop :=
  s.start < t.start ∧ t.stop < s.stop

/-- **Nested entries**: the entries of a forest, the first of which has the given index, under
`parent` and between two offsets. -/
structure Nest (index : Nat) (parent : Option Nat) (lo hi : Int) (entries : List Entry) :
    Prop where
  /-- The entries are not empty and stand between the offsets. -/
  within : ∀ e ∈ entries,
    lo ≤ e.decl.span.start ∧ e.decl.span.start < e.decl.span.stop ∧ e.decl.span.stop ≤ hi
  /-- The entries start one after another. -/
  ascending : entries.Pairwise fun e f => e.decl.span.start < f.decl.span.start
  /-- An entry is under `parent` or strictly inside the entry that it is under. -/
  under : ∀ e ∈ entries, e.parent = parent ∨
    ∃ k f, e.parent = some (index + k) ∧ entries[k]? = some f ∧
      f.decl.span.Encloses e.decl.span
  /-- Entries in the same place stand one after another. -/
  apart : entries.Pairwise fun e f => e.parent = f.parent → e.decl.span.stop ≤ f.decl.span.start
  /-- The parts of a declaration lie in it. -/
  fits : ∀ e ∈ entries, e.decl.Fits

namespace Nest

variable {index : Nat} {parent : Option Nat} {lo mid hi : Int} {here more entries : List Entry}

theorem nil (index : Nat) (parent : Option Nat) (lo hi : Int) : Nest index parent lo hi [] := by
  constructor <;> simp

theorem widen (h : Nest index parent lo hi entries) {lo' hi' : Int} (hlo : lo' ≤ lo)
    (hhi : hi ≤ hi') : Nest index parent lo' hi' entries := by
  refine ⟨fun e he => ?_, h.ascending, h.under, h.apart, h.fits⟩
  have := h.within e he
  omega

/-- One forest behind another. -/
theorem append (h : Nest index parent lo mid here)
    (k : Nest (index + here.length) parent mid hi more) (hlo : lo ≤ mid) (hhi : mid ≤ hi) :
    Nest index parent lo hi (here ++ more) := by
  constructor
  case within =>
    intro e he
    rcases List.mem_append.mp he with he | he
    · have := h.within e he
      omega
    · have := k.within e he
      omega
  case ascending =>
    refine List.pairwise_append.mpr ⟨h.ascending, k.ascending, fun e he f hf => ?_⟩
    have := h.within e he
    have := k.within f hf
    omega
  case under =>
    intro e he
    rcases List.mem_append.mp he with he | he
    · rcases h.under e he with hp | ⟨i, f, hp, hf, hin⟩
      · exact .inl hp
      · have hi : i < here.length := (List.getElem?_eq_some_iff.mp hf).1
        exact .inr ⟨i, f, hp, by rw [List.getElem?_append_left hi]; exact hf, hin⟩
    · rcases k.under e he with hp | ⟨i, f, hp, hf, hin⟩
      · exact .inl hp
      · rw [Nat.add_assoc] at hp
        refine .inr ⟨here.length + i, f, hp, ?_, hin⟩
        rw [List.getElem?_append_right (Nat.le_add_right _ _), Nat.add_sub_cancel_left]
        exact hf
  case apart =>
    refine List.pairwise_append.mpr ⟨h.apart, k.apart, fun e he f hf _ => ?_⟩
    have := h.within e he
    have := k.within f hf
    omega
  case fits =>
    intro e he
    rcases List.mem_append.mp he with he | he
    · exact h.fits e he
    · exact k.fits e he

/-- A declaration around the entries below it, which stand strictly inside. -/
theorem around {d : Declaration} {links : List Nat} (hparent : ∀ p ∈ parent, p < index)
    (hlt : d.span.start < d.span.stop) (hfits : d.Fits)
    (h : Nest (index + 1) (some index) (d.span.start + 1) (d.span.stop - 1) entries) :
    Nest index parent d.span.start d.span.stop (⟨d, parent, links⟩ :: entries) := by
  constructor
  case within =>
    intro e he
    rcases List.mem_cons.mp he with rfl | he
    · exact ⟨Int.le_refl _, hlt, Int.le_refl _⟩
    · have := h.within e he
      omega
  case ascending =>
    refine List.Pairwise.cons (fun e he => ?_) h.ascending
    have := h.within e he
    dsimp only
    omega
  case under =>
    intro e he
    rcases List.mem_cons.mp he with rfl | he
    · exact .inl rfl
    · rcases h.under e he with hp | ⟨k, f, hp, hf, hin⟩
      · have := h.within e he
        exact .inr ⟨0, _, hp, rfl, by dsimp only; omega, by dsimp only; omega⟩
      · rw [Nat.add_right_comm] at hp
        exact .inr ⟨k + 1, f, hp, by rw [List.getElem?_cons_succ]; exact hf, hin⟩
  case apart =>
    refine List.Pairwise.cons (fun e he hp => ?_) h.apart
    dsimp only at hp
    -- an entry below is under the root or under another entry below, and the root is not
    rcases h.under e he with hu | ⟨k, f, hu, -, -⟩
    · have := hparent index (by rw [hp, hu]; rfl)
      omega
    · have := hparent (index + 1 + k) (by rw [hp, hu]; rfl)
      omega
  case fits =>
    intro e he
    rcases List.mem_cons.mp he with rfl | he
    · exact hfits
    · exact h.fits e he

end Nest

namespace DeclTree

mutual

/-- The entries of a tree are nested in the extent of its tokens. -/
theorem nest_flattenTree {index : Nat} {parent : Option Nat} (hp : ∀ p ∈ parent, p < index)
    (t : DeclTree) {ts : List Token} (h : t.Over ts) (ho : Ordered ts) :
    Extent ts t.decl.span ∧
      Nest index parent t.decl.span.start t.decl.span.stop (flattenTree index parent t) :=
  match t with
  | node d trees => by
    rw [flattenTree]
    cases h with
    | leaf h _ =>
      obtain ⟨hextent, hfits⟩ := h ho
      exact ⟨hextent, Nest.around hp (ho.start_lt_stop hextent) hfits (Nest.nil _ _ _ _)⟩
    | @container _ _ heading inner close hc hne _ hextent hs =>
      refine ⟨hextent, Nest.around hp (ho.start_lt_stop hextent)
        (Declaration.fits_of_isContainer hc) ?_⟩
      -- the first token and the closing one keep what is between them off both ends
      obtain ⟨first, heading, rfl⟩ := List.exists_cons_of_ne_nil hne
      have hfirst := hextent.start_eq
      have hlast : d.span.stop = close.stop :=
        hextent.stop_eq (by rw [← List.append_assoc, List.getLast?_concat])
      have hopen := ho.nonempty first (by simp)
      have hclose := ho.nonempty close (by simp)
      have hinner : ∀ t ∈ inner, first.stop ≤ t.start ∧ t.stop ≤ close.start := fun t ht =>
        ⟨ho.across (by simp) (by simp [ht]), ho.right.across ht (by simp)⟩
      refine nest_flattenForest (by rintro p ⟨⟩; omega) trees hs ho.right.left ?_ ?_
      · intro t ht
        have := hinner t ht
        simp only [decl]
        omega
      · intro t ht
        have := hinner t ht
        simp only [decl]
        omega

/-- **The entries of a forest** are nested between two offsets around its tokens. -/
theorem nest_flattenForest {index : Nat} {parent : Option Nat} (hp : ∀ p ∈ parent, p < index)
    (trees : List DeclTree) {ts : List Token} {lo hi : Int} (h : InOrder Over trees ts)
    (ho : Ordered ts) (hlo : ∀ t ∈ ts, lo ≤ t.start) (hhi : ∀ t ∈ ts, t.stop ≤ hi) :
    Nest index parent lo hi (flattenForest index parent trees) :=
  match trees with
  | [] => Nest.nil index parent lo hi
  | t :: trees => by
    cases h with
    | @cons _ _ skipped here more h hs =>
      obtain ⟨hextent, hhere⟩ := nest_flattenTree hp t h ho.right.left
      obtain ⟨a, b, ha, hb, hspan⟩ := id hextent
      have ha := List.mem_of_mem_head? ha
      have hb := List.mem_of_mem_getLast? hb
      have hlt := ho.right.left.start_lt_stop hextent
      have hstart := hlo a (by simp [ha])
      have hstop := hhi b (by simp [hb])
      simp only [hspan] at hlt hhere
      -- the forest goes on behind the last token of the first tree
      have hmore : Nest (index + (flattenTree index parent t).length) parent b.stop hi
          (flattenForest (index + t.size) parent trees) := by
        rw [length_flattenTree]
        refine nest_flattenForest (fun p hpp => ?_) trees hs ho.right.right (fun u hu => ?_)
          (fun u hu => hhi u (by simp [hu]))
        · have := hp p hpp
          omega
        · exact Int.ofNat_le.mpr (ho.right.across hb hu)
      rw [flattenForest]
      exact (hhere.widen hstart (Int.le_refl _)).append hmore (by omega) hstop

end

end DeclTree

/-! ## The arena of a text -/

/-- **Laminar entries**: their spans are ordered, members lie strictly inside the declarations that
hold them, and declarations in the same place do not overlap; nor do the parts of one. -/
structure Laminar (entries : List Entry) : Prop where
  /-- No span is empty. -/
  nonempty : ∀ e ∈ entries, e.decl.span.start < e.decl.span.stop
  /-- The spans start in the order of the entries. -/
  ascending : entries.Pairwise fun e f => e.decl.span.start < f.decl.span.start
  /-- A member lies strictly inside the declaration that holds it. -/
  inside : ∀ e ∈ entries, ∀ p, e.parent = some p →
    ∃ f, entries[p]? = some f ∧ f.decl.span.Encloses e.decl.span
  /-- Two declarations in the same place do not overlap. -/
  apart : ∀ {i j : Nat} {e f : Entry}, entries[i]? = some e → entries[j]? = some f → i ≠ j →
    e.parent = f.parent → ¬ e.decl.span.Overlaps f.decl.span
  /-- A body ends its function, and the fields or variants are ordered and disjoint. -/
  fits : ∀ e ∈ entries, e.decl.Fits

theorem Nest.laminar {lo hi : Int} {entries : List Entry} (h : Nest 0 none lo hi entries) :
    Laminar entries := by
  constructor
  case nonempty => exact fun e he => (h.within e he).2.1
  case ascending => exact h.ascending
  case inside =>
    intro e he p hp
    rcases h.under e he with hn | ⟨k, f, hk, hf, hin⟩
    · rw [hn] at hp
      cases hp
    · rw [hk, Nat.zero_add] at hp
      cases hp
      exact ⟨f, hf, hin⟩
  case apart =>
    intro i j e f hi hj hne hparent hover
    obtain ⟨hi', rfl⟩ := List.getElem?_eq_some_iff.mp hi
    obtain ⟨hj', rfl⟩ := List.getElem?_eq_some_iff.mp hj
    have hapart := List.pairwise_iff_getElem.mp h.apart
    obtain ⟨hover₁, hover₂⟩ := hover
    -- siblings are listed in order, and overlapping does not depend on which comes first
    rcases Nat.lt_or_gt_of_ne hne with hlt | hlt
    · have := hapart i j hi' hj' hlt hparent
      omega
    · have := hapart j i hj' hi' hlt hparent.symm
      omega
  case fits => exact h.fits

/-- The significant tokens of a text stand in order. -/
theorem ordered_significant_scan (text : String) : Ordered (significant (scan text)) :=
  ⟨fun _ ht => start_lt_stop_of_mem_scan (List.mem_filter.mp ht).1, (pairwise_scan text).filter _⟩

/-- The entries of a text are nested. -/
theorem exists_nest_scan (text : String) :
    ∃ hi, Nest 0 none 0 hi (parse (scan text)).arena.entries := by
  have hover := over_topLevel (Lexeme.ofTokens (scan text))
  rw [Lexeme.map_token_ofTokens] at hover
  have hstop {t : Token} (ht : t ∈ significant (scan text)) :
      t.stop ≤ ((significant (scan text)).map Token.stop).max?.getD 0 :=
    List.le_max?_getD_of_mem (List.mem_map_of_mem ht)
  exact ⟨_, DeclTree.nest_flattenForest (by simp) _ hover (ordered_significant_scan text)
    (fun t _ => Int.natCast_nonneg t.start) fun t ht => Int.ofNat_le.mpr (hstop ht)⟩

/-- **The arena of a text is laminar**, whether it could be read without errors or not. -/
theorem arena_laminar (text : String) : Laminar (parse (scan text)).arena.entries := by
  obtain ⟨hi, hnest⟩ := exists_nest_scan text
  exact hnest.laminar

end KlarAudit

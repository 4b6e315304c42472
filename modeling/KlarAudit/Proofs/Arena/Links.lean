import KlarAudit.Arena.Basic
import KlarAudit.Proofs.Grammar.Heading

/-!
# The links of the arena

The entries of a forest stand in one list, each after its parent. The links of an entry are counted
out while the forest is laid out; here they are shown to be what a search through the whole list
finds. The entries of a tree take an unbroken range of indices, and no entry outside the range has
its parent inside.

## Main definitions

* `heldBy parent p index slots`: the search for the members of a declaration
* `DeclTree.WellShaped`: only modules, traits and implementations have members
* `WellFormed entries`: all links of the entries are right

## Main results

* `heldBy_flattenForest`: the entries under a declaration outside a forest are its roots
* `wellFormed_flatten`: the entries of a well-shaped forest are well formed
* `wellShaped_topLevel`: the declarations of a file are well shaped
-/

namespace KlarAudit

/-! ## Searching for members -/

/-- **The members of a declaration, searched for**: the indices of the filled slots under `parent`
whose declarations satisfy `p`, when the first slot has the given index. -/
def heldBy (parent : Option Nat) (p : Declaration → Bool) (index : Nat)
    (slots : List (Option Entry)) : List Nat :=
  ((slots.zipIdx index).filter fun (s, _) => s.any fun e => e.parent == parent && p e.decl).map
    (·.2)

/-- The members that a declaration of the given shape at index `i` should link to. -/
def membersOf (shape : Shape) (i index : Nat) (slots : List (Option Entry)) : List Nat :=
  match shape with
  | .module => heldBy (some i) (fun _ => true) index slots
  | .trait .. | .impl .. => heldBy (some i) (·.shape.isFunction) index slots
  | _ => []

section Search

variable {parent : Option Nat} {p : Declaration → Bool} {index : Nat}

@[simp] theorem heldBy_nil : heldBy parent p index [] = [] := rfl

theorem heldBy_append (slots more : List (Option Entry)) :
    heldBy parent p index (slots ++ more) =
      heldBy parent p index slots ++ heldBy parent p (index + slots.length) more := by
  simp [heldBy, List.zipIdx_append]

theorem heldBy_none : heldBy parent p index [none] = [] := rfl

theorem heldBy_some (e : Entry) : heldBy parent p index [some e] =
    if e.parent = parent ∧ p e.decl then [index] else [] := by
  by_cases h : e.parent = parent ∧ p e.decl
  · simp [heldBy, h]
  · have hs : ¬ (e.parent == parent && p e.decl) = true := by simpa using h
    rw [heldBy, List.zipIdx_singleton, List.filter_cons_of_neg (by simpa using hs), if_neg h]
    rfl

theorem membersOf_append_nil {shape : Shape} {i : Nat} {slots more : List (Option Entry)}
    (h : ∀ p, heldBy (some i) p (index + slots.length) more = []) :
    membersOf shape i index (slots ++ more) = membersOf shape i index slots := by
  cases shape <;> simp [membersOf, heldBy_append, h]

theorem membersOf_nil_append {shape : Shape} {i : Nat} {slots more : List (Option Entry)}
    (h : ∀ p, heldBy (some i) p index slots = []) :
    membersOf shape i index (slots ++ more) = membersOf shape i (index + slots.length) more := by
  cases shape <;> simp [membersOf, heldBy_append, h]

end Search

/-! ## The entries of a forest -/

namespace DeclTree

mutual

/-- Of the entries of a tree, only the root can be under a declaration outside the tree. -/
theorem heldBy_flattenTree {index : Nat} {parent q : Option Nat} (p : Declaration → Bool)
    (t : DeclTree) (hq : ∀ j ∈ q, j < index ∨ index + t.size ≤ j) :
    heldBy q p index ((flattenTree index parent t).map some) =
      if parent = q ∧ p t.decl then [index] else [] :=
  match t with
  | node d ts => by
    rw [size] at hq
    -- what stands below the root is under the root, and the root is in the tree
    have hne : some index ≠ q := by
      intro h
      have := hq index h.symm
      omega
    have hbelow : heldBy q p (index + 1) ((flattenForest (index + 1) (some index) ts).map some) =
        [] := by
      rw [heldBy_flattenForest p ts fun j hj => by have := hq j hj; omega, if_neg hne]
    rw [flattenTree, List.map_cons, ← List.singleton_append, heldBy_append, List.length_singleton,
      hbelow, List.append_nil, heldBy_some, decl]

/-- **Of the entries of a forest**, only the roots can be under a declaration outside the forest. -/
theorem heldBy_flattenForest {index : Nat} {parent q : Option Nat} (p : Declaration → Bool)
    (ts : List DeclTree) (hq : ∀ j ∈ q, j < index ∨ index + sizes ts ≤ j) :
    heldBy q p index ((flattenForest index parent ts).map some) =
      if parent = q then ((roots index ts).filter (p ·.2.decl)).map (·.1) else [] :=
  match ts with
  | [] => by simp [flattenForest, roots]
  | t :: ts => by
    rw [sizes] at hq
    rw [flattenForest, List.map_append, heldBy_append, List.length_map, length_flattenTree,
      heldBy_flattenTree p t fun j hj => by have := hq j hj; omega,
      heldBy_flattenForest p ts fun j hj => by have := hq j hj; omega, roots]
    by_cases h : parent = q
    · by_cases hp : p t.decl <;> simp [h, hp]
    · simp [h]

end

/-- The links of a declaration are what the search finds. -/
theorem linked_eq_membersOf (shape : Shape) (i : Nat) (ts : List DeclTree) :
    linked shape (roots (i + 1) ts) =
      membersOf shape i (i + 1) ((flattenForest (i + 1) (some i) ts).map some) := by
  have key (p : Declaration → Bool) :
      heldBy (some i) p (i + 1) ((flattenForest (i + 1) (some i) ts).map some) =
        ((roots (i + 1) ts).filter (p ·.2.decl)).map (·.1) := by
    rw [heldBy_flattenForest p ts fun j hj => by cases hj; omega, if_pos rfl]
  cases shape with
  | module => rw [linked, membersOf, key, List.filter_eq_self.mpr fun _ _ => rfl]
  | trait | impl => rw [linked, membersOf, key]
  | _ => rfl

/-- **Well-shaped declarations**: only modules, traits and implementations have members. -/
inductive WellShaped : DeclTree → Prop where
  /-- A declaration without members. -/
  | leaf (d : Declaration) : WellShaped (node d [])
  /-- A declaration that may have members. -/
  | container {d : Declaration} {ts : List DeclTree} (h : d.shape.isContainer)
    (hs : ∀ t ∈ ts, WellShaped t) : WellShaped (node d ts)

end DeclTree

/-- The entry `e` at index `i` is linked rightly among `entries`, the first of which has the given
index: it is under `parent` or under a container before it, and it names its members. -/
structure LinkedIn (parent : Option Nat) (index : Nat) (entries : List Entry) (i : Nat)
    (e : Entry) : Prop where
  /-- The entry is under `parent`, or under a container that stands before it. -/
  under : e.parent = parent ∨ ∃ k f, e.parent = some (index + k) ∧ index + k < i ∧
    entries[k]? = some f ∧ f.decl.shape.isContainer
  /-- The entry names its members. -/
  names : e.members = membersOf e.decl.shape i index (entries.map some)

namespace LinkedIn

variable {parent : Option Nat} {index i : Nat} {entries more : List Entry} {e : Entry}

/-- Entries that follow do not matter if none of them is a member. -/
theorem append_right (h : LinkedIn parent index entries i e)
    (hm : ∀ p, heldBy (some i) p (index + entries.length) (more.map some) = []) :
    LinkedIn parent index (entries ++ more) i e := by
  constructor
  · rcases h.under with hp | ⟨k, f, hp, hlt, hf, hc⟩
    · exact .inl hp
    · have hk : k < entries.length := (List.getElem?_eq_some_iff.mp hf).1
      exact .inr ⟨k, f, hp, hlt, by rw [List.getElem?_append_left hk]; exact hf, hc⟩
  · rw [List.map_append, membersOf_append_nil (by simpa using hm)]
    exact h.names

/-- Entries that stand before do not matter if none of them is a member. -/
theorem append_left (h : LinkedIn parent (index + entries.length) more i e)
    (hm : ∀ p, heldBy (some i) p index (entries.map some) = []) :
    LinkedIn parent index (entries ++ more) i e := by
  constructor
  · rcases h.under with hp | ⟨k, f, hp, hlt, hf, hc⟩
    · exact .inl hp
    · rw [Nat.add_assoc] at hp hlt
      refine .inr ⟨entries.length + k, f, hp, hlt, ?_, hc⟩
      rw [List.getElem?_append_right (Nat.le_add_right _ _), Nat.add_sub_cancel_left]
      exact hf
  · rw [List.map_append, membersOf_nil_append hm, List.length_map]
    exact h.names

/-- An entry that is under a container, seen from around the container. -/
theorem below {root : Entry} (h : LinkedIn (some index) (index + 1) entries i e) (hi : index < i)
    (hc : root.decl.shape.isContainer) (hm : ∀ p, heldBy (some i) p index [some root] = []) :
    LinkedIn parent index (root :: entries) i e := by
  constructor
  · rcases h.under with hp | ⟨k, f, hp, hlt, hf, hcf⟩
    · exact .inr ⟨0, root, hp, hi, rfl, hc⟩
    · rw [Nat.add_right_comm] at hp hlt
      exact .inr ⟨k + 1, f, hp, hlt, by rw [List.getElem?_cons_succ]; exact hf, hcf⟩
  · rw [List.map_cons, ← List.singleton_append, membersOf_nil_append hm]
    exact h.names

end LinkedIn

namespace DeclTree

mutual

/-- The entries of a well-shaped tree are linked rightly among themselves. -/
theorem linkedIn_flattenTree {index : Nat} {parent : Option Nat} (hp : ∀ p ∈ parent, p < index)
    (t : DeclTree) (ht : t.WellShaped) {k : Nat} {e : Entry}
    (h : (flattenTree index parent t)[k]? = some e) :
    LinkedIn parent index (flattenTree index parent t) (index + k) e :=
  match t with
  | node d ts => by
    -- the root is under `parent`, so it is no member of any entry of the tree
    have hroot (j : Nat) (p : Declaration → Bool) :
        heldBy (some (index + j)) p index
          [some ⟨d, parent, linked d.shape (roots (index + 1) ts)⟩] = [] := by
      rw [heldBy_some, if_neg]
      rintro ⟨rfl, -⟩
      have := hp (index + j) rfl
      omega
    rw [flattenTree] at h ⊢
    cases k with
    | zero =>
      cases h
      refine ⟨.inl rfl, ?_⟩
      rw [List.map_cons, ← List.singleton_append, membersOf_nil_append (hroot 0)]
      exact linked_eq_membersOf d.shape index ts
    | succ k =>
      rw [List.getElem?_cons_succ] at h
      cases ht with
      | leaf => cases h
      | container hc hs =>
        have hbelow := linkedIn_flattenForest (by rintro p ⟨⟩; omega) ts hs h
        rw [Nat.add_assoc, Nat.add_comm 1 k] at hbelow
        exact hbelow.below (by omega) hc (hroot (k + 1))

/-- **The entries of a well-shaped forest** are linked rightly among themselves. -/
theorem linkedIn_flattenForest {index : Nat} {parent : Option Nat} (hp : ∀ p ∈ parent, p < index)
    (ts : List DeclTree) (hts : ∀ t ∈ ts, t.WellShaped) {k : Nat} {e : Entry}
    (h : (flattenForest index parent ts)[k]? = some e) :
    LinkedIn parent index (flattenForest index parent ts) (index + k) e :=
  match ts with
  | [] => by cases h
  | t :: ts => by
    have hne (j : Nat) : parent ≠ some (index + j) := by
      rintro rfl
      have := hp (index + j) rfl
      omega
    have hlen := length_flattenTree index parent t
    rw [flattenForest] at h ⊢
    -- an entry of the first tree has no members in the others, nor the other way round
    by_cases hk : k < t.size
    · rw [List.getElem?_append_left (by omega)] at h
      have here := linkedIn_flattenTree hp t (hts t List.mem_cons_self) h
      refine here.append_right fun p => ?_
      rw [hlen, heldBy_flattenForest p ts (by rintro j ⟨⟩; omega), if_neg (hne k)]
    · rw [List.getElem?_append_right (by omega)] at h
      have later := linkedIn_flattenForest (fun p k => by have := hp p k; omega) ts
        (fun t ht => hts t (List.mem_cons_of_mem _ ht)) h
      have hi : index + t.size + (k - (flattenTree index parent t).length) = index + k := by omega
      rw [hi, ← hlen] at later
      rw [← hlen]
      refine later.append_left fun p => ?_
      rw [heldBy_flattenTree p t (by rintro j ⟨⟩; omega), if_neg fun h => hne k h.1]

end

end DeclTree

/-! ## The whole arena -/

theorem mem_indexed {α : Type} {xs : List α} {i : Nat} {x : α} :
    (i, x) ∈ indexed xs ↔ xs[i]? = some x := by
  simp only [indexed, List.mem_map, Prod.exists, List.mem_zipIdx_iff_getElem?, Prod.mk.injEq]
  constructor
  · rintro ⟨y, j, h, rfl, rfl⟩
    exact h
  · exact fun h => ⟨x, i, h, rfl, rfl⟩

theorem childrenOf_pairwise (entries : List Entry) (parent : Option Nat) :
    (childrenOf entries parent).Pairwise (· < ·) := by
  have hidx : ((indexed entries).map (·.1)).Pairwise (· < ·) := by
    simpa [indexed, Function.comp_def] using List.pairwise_lt_range'
  exact List.Pairwise.map _ (fun _ _ h => h) ((List.pairwise_map.mp hidx).filter _)

/-- Looking up children and keeping some is searching for these. -/
theorem filter_childrenOf (entries : List Entry) (parent : Option Nat) (p : Declaration → Bool) :
    (childrenOf entries parent).filter (fun i => entries[i]?.any (p ·.decl)) =
      heldBy parent p 0 (entries.map some) := by
  have hslots : heldBy parent p 0 (entries.map some) =
      ((indexed entries).filter fun x => x.2.parent == parent && p x.2.decl).map (·.1) := by
    simp [heldBy, indexed, List.zipIdx_map, List.filter_map, Function.comp_def]
  rw [hslots, childrenOf, List.filter_map, List.filter_filter]
  congr 1
  apply List.filter_congr
  rintro ⟨i, e⟩ h
  simp [mem_indexed.mp h, Bool.and_comm]

theorem childrenOf_eq_heldBy (entries : List Entry) (parent : Option Nat) :
    childrenOf entries parent = heldBy parent (fun _ => true) 0 (entries.map some) := by
  rw [← filter_childrenOf, eq_comm, List.filter_eq_self]
  intro i hi
  obtain ⟨⟨j, e⟩, he, rfl⟩ := List.mem_map.mp hi
  simp [mem_indexed.mp (List.mem_filter.mp he).1]

/-- **A well-formed arena**: parents are containers that stand before their members, and containers
link to the members of their kind. -/
structure WellFormed (entries : List Entry) : Prop where
  /-- A parent stands before its members and is a container. -/
  parent_before : ∀ {i p : Nat} {e : Entry}, entries[i]? = some e → e.parent = some p →
    p < i ∧ ∃ f, entries[p]? = some f ∧ f.decl.shape.isContainer
  /-- A trait or an implementation links to those of its children that are functions. -/
  methods : ∀ {i : Nat} {e : Entry}, entries[i]? = some e → e.decl.shape.isContainer →
    e.decl.shape ≠ .module →
    e.members = (childrenOf entries (some i)).filter fun j =>
      entries[j]?.any (·.decl.shape.isFunction)
  /-- A module links to all its children. -/
  items : ∀ {i : Nat} {e : Entry}, entries[i]? = some e → e.decl.shape = .module →
    e.members = childrenOf entries (some i)
  /-- Children are listed in order, each once. -/
  ascending : ∀ parent, (childrenOf entries parent).Pairwise (· < ·)

/-- **The entries of a well-shaped forest** form a well-formed arena. -/
theorem wellFormed_flatten {ts : List DeclTree} (hts : ∀ t ∈ ts, t.WellShaped) :
    WellFormed (DeclTree.flatten ts) := by
  -- whatever is said of an entry follows from how it is linked
  have linked {i e} (h : (DeclTree.flatten ts)[i]? = some e) :
      LinkedIn none 0 (DeclTree.flatten ts) i e := by
    rw [← Nat.zero_add i]
    exact DeclTree.linkedIn_flattenForest (by simp) ts hts h
  constructor
  case parent_before =>
    intro i p e h hp
    rcases (linked h).under with hn | ⟨k, f, hk, hlt, hf, hc⟩
    · rw [hn] at hp
      cases hp
    · rw [hk, Nat.zero_add] at hp
      cases hp
      exact ⟨by omega, f, hf, hc⟩
  case methods =>
    intro i e h hc hm
    rw [filter_childrenOf _ _ (·.shape.isFunction), (linked h).names]
    cases hs : e.decl.shape with
    | module => exact absurd hs hm
    | trait | impl => rfl
    | _ => rw [hs] at hc; cases hc
  case items =>
    intro i e h hs
    rw [childrenOf_eq_heldBy, (linked h).names, hs]
    rfl
  case ascending => exact childrenOf_pairwise _

/-! ## The declarations of a file -/

/-- What is read is well shaped. -/
theorem wellShaped_item :
    (∀ byPlace ls (r : ItemResult ls), (item byPlace ls).outcome = .ok r →
      ∀ t ∈ r.tree, t.WellShaped) ∧
    ∀ first byPlace ls (m : BodyResult ls), (members first byPlace ls).outcome = .ok m →
      ∀ t ∈ m.trees, t.WellShaped := by
  refine reading_induction ?complete ?block ?close ?member ?skipped
  case complete =>
    intro byPlace ls d rest h t ht
    obtain ⟨d, rfl, rfl⟩ := Option.map_eq_some_iff.mp ht
    exact .leaf d
  case block =>
    rintro byPlace ls b rest m h hm ih t ⟨⟩
    obtain ⟨l, tail, rfl, -, hc, -⟩ := block_of_opening h
    exact .container hc ih
  case close => exact fun _ _ t ht => nomatch ht
  case member =>
    intro first byPlace l tail r m hl hr hm ihItem ihBody t ht
    rcases List.mem_append.mp ht with ht | ht
    · exact ihItem t (by simpa using ht)
    · exact ihBody t ht
  case skipped =>
    intro first byPlace l tail e rest m _ hl he hs hm ih
    exact ih

/-- **The declarations of a file** are well shaped. -/
theorem wellShaped_topLevel (ls : List Lexeme) : ∀ t ∈ (topLevel ls).2, t.WellShaped := by
  induction ls using topLevel_induction with
  | nil => simp [topLevel_nil]
  | read h ih =>
    rw [topLevel_of_item h]
    intro t ht
    rcases List.mem_append.mp ht with ht | ht
    · exact wellShaped_item.1 _ _ _ h t (by simpa using ht)
    · exact ih t ht
  | skipped h ih =>
    rw [topLevel_of_error h]
    exact ih

end KlarAudit

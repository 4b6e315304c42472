import KlarAudit.Arena.Parse
import KlarAudit.Proofs.Arena.Links
import KlarAudit.Token.Scan

/-!
# Filling the arena while reading

The arena can be filled while the declarations are read. A declaration with members reserves a slot
before its body is read, so that its members can name it, and fills the slot when the body has been
read, with links that a search through the slots finds. A declaration that cannot be read gives back
all slots that have been taken since it began, reserved ones included, and their indices are used
again.

Nothing of this shows in the end: every slot is filled, and the slots are the entries of the forest
that has been read.

## Main definitions

* `placeItem`, `placeMembers`, `placeTopLevel`: reading into slots
* `Fresh slots`: no slot names a parent that has no slot yet

## Main results

* `place_eq`: reading into slots adds the entries of what is read
* `placeTopLevel_eq`: after the last declaration the slots are the entries of the forest
* `arena_wellFormed`: the arena of a text is well formed, and no slot of it stays reserved
-/

namespace KlarAudit

/-- **The arena under construction**: a slot is empty while it is only reserved. -/
abbrev Slots := List (Option Entry)

/-! ## Reading into slots -/

mutual

/-- **A declaration read into slots**, under `parent`. -/
def placeItem (parent : Option Nat) (byPlace : Bool) (slots : Slots) (ls : List Lexeme) :
    Slots × Except SyntaxError { rest : List Lexeme // rest.length < ls.length } :=
  match h : (opening byPlace ls).outcome with
  | .error e => (slots, .error e)
  | .ok (.complete d, rest) =>
    (slots ++ d.toList.map fun d => some ⟨d, parent, []⟩, .ok ⟨rest, opening_shorter h⟩)
  | .ok (.block b, rest) =>
    match placeMembers slots.length b.first b.publicMembers (slots ++ [none]) rest with
    | (filled, .error e) => (filled, .error e)
    | (filled, .ok (close, ⟨left, hleft⟩)) =>
      let d := b.declaration close
      let entry := ⟨d, parent, membersOf d.shape slots.length 0 filled⟩
      (filled.set slots.length (some entry),
        .ok ⟨left, Nat.lt_trans hleft (opening_shorter h)⟩)
termination_by 2 * ls.length
decreasing_by
  have := opening_shorter h
  omega

/-- **The members of a body read into slots**, for the declaration that has reserved slot `i`. -/
def placeMembers (i : Nat) (first : Token) (byPlace : Bool) (slots : Slots) (ls : List Lexeme) :
    Slots × Except SyntaxError (Token × { rest : List Lexeme // rest.length < ls.length }) :=
  match ls with
  | [] => (slots, .error (.at .unterminated first))
  | l :: tail =>
    if l.token.is "\x7d" then (slots, .ok (l.token, ⟨tail, by simp⟩))
    else
      match placeItem (some i) byPlace slots (l :: tail) with
      | (filled, .ok ⟨rest, hrest⟩) =>
        let (filled, r) := placeMembers i first byPlace filled rest
        (filled, r.map fun (close, left) => (close, ⟨left.1, Nat.lt_trans left.2 hrest⟩))
      | (filled, .error e) =>
        match h : resyncInBody l.token 0 tail with
        | none => (filled.take slots.length, .error e)
        | some rest =>
          have hrest : rest.length < (l :: tail).length :=
            Nat.lt_succ_of_le (length_resyncInBody_le h)
          let (filled, r) := placeMembers i first byPlace (filled.take slots.length) rest
          (filled, r.map fun (close, left) => (close, ⟨left.1, Nat.lt_trans left.2 hrest⟩))
termination_by 2 * ls.length + 1
decreasing_by
  all_goals omega

end

/-- **The declarations of a file read into slots.** -/
def placeTopLevel (slots : Slots) (ls : List Lexeme) : Slots :=
  match ls with
  | [] => slots
  | l :: tail =>
    match placeItem none false slots (l :: tail) with
    | (filled, .ok ⟨rest, _⟩) => placeTopLevel filled rest
    | (filled, .error _) => placeTopLevel (filled.take slots.length) (resync tail)
termination_by ls.length
decreasing_by
  · assumption
  · exact Nat.lt_succ_of_le (length_resync_le tail)

/-! ## The equations -/

section Equations

variable {parent : Option Nat} {byPlace : Bool} {slots : Slots} {ls : List Lexeme} {l : Lexeme}
  {tail : List Lexeme} {i : Nat} {first : Token}

theorem placeItem_of_error {e : SyntaxError} (h : (opening byPlace ls).outcome = .error e) :
    placeItem parent byPlace slots ls = (slots, .error e) := by
  rw [placeItem]
  split
  · rename_i h'
    rw [h] at h'
    cases h'
    rfl
  · rename_i h'
    rw [h] at h'
    cases h'
  · rename_i h'
    rw [h] at h'
    cases h'

theorem placeItem_of_complete {d : Option Declaration} {rest : List Lexeme}
    (h : (opening byPlace ls).outcome = .ok (.complete d, rest)) :
    placeItem parent byPlace slots ls =
      (slots ++ d.toList.map fun d => some ⟨d, parent, []⟩, .ok ⟨rest, opening_shorter h⟩) := by
  rw [placeItem]
  split
  · rename_i h'
    rw [h] at h'
    cases h'
  · rename_i h'
    rw [h] at h'
    cases h'
    rfl
  · rename_i h'
    rw [h] at h'
    cases h'

theorem placeItem_of_block {b : Block} {rest : List Lexeme} {filled : Slots} {close : Token}
    {left : { left : List Lexeme // left.length < rest.length }}
    (h : (opening byPlace ls).outcome = .ok (.block b, rest))
    (hm : placeMembers slots.length b.first b.publicMembers (slots ++ [none]) rest =
      (filled, .ok (close, left))) :
    placeItem parent byPlace slots ls =
      (filled.set slots.length (some ⟨b.declaration close, parent,
          membersOf (b.declaration close).shape slots.length 0 filled⟩),
        .ok ⟨left.1, Nat.lt_trans left.2 (opening_shorter h)⟩) := by
  rw [placeItem]
  split
  · rename_i h'
    rw [h] at h'
    cases h'
  · rename_i h'
    rw [h] at h'
    cases h'
  · rename_i h'
    rw [h] at h'
    cases h'
    rw [hm]

theorem placeItem_of_block_error {b : Block} {rest : List Lexeme} {filled : Slots}
    {e : SyntaxError} (h : (opening byPlace ls).outcome = .ok (.block b, rest))
    (hm : placeMembers slots.length b.first b.publicMembers (slots ++ [none]) rest =
      (filled, .error e)) :
    placeItem parent byPlace slots ls = (filled, .error e) := by
  rw [placeItem]
  split
  · rename_i h'
    rw [h] at h'
    cases h'
  · rename_i h'
    rw [h] at h'
    cases h'
  · rename_i h'
    rw [h] at h'
    cases h'
    rw [hm]

theorem placeMembers_of_close (hl : l.token.is "\x7d") :
    placeMembers i first byPlace slots (l :: tail) =
      (slots, .ok (l.token, ⟨tail, Nat.lt_succ_self _⟩)) := by
  rw [placeMembers, if_pos hl]

theorem placeMembers_of_item {filled : Slots} {rest : List Lexeme}
    {hrest : rest.length < (l :: tail).length} (hl : ¬ l.token.is "\x7d")
    (h : placeItem (some i) byPlace slots (l :: tail) = (filled, .ok ⟨rest, hrest⟩)) :
    placeMembers i first byPlace slots (l :: tail) =
      ((placeMembers i first byPlace filled rest).1,
        (placeMembers i first byPlace filled rest).2.map fun (close, left) =>
          (close, ⟨left.1, Nat.lt_trans left.2 hrest⟩)) := by
  rw [placeMembers, if_neg hl, h]

theorem placeMembers_of_end {filled : Slots} {e : SyntaxError} (hl : ¬ l.token.is "\x7d")
    (h : placeItem (some i) byPlace slots (l :: tail) = (filled, .error e))
    (hr : resyncInBody l.token 0 tail = none) :
    placeMembers i first byPlace slots (l :: tail) = (filled.take slots.length, .error e) := by
  rw [placeMembers, if_neg hl, h]
  dsimp only
  split
  · rfl
  · rename_i h'
    rw [hr] at h'
    cases h'

theorem placeMembers_of_resync {filled : Slots} {e : SyntaxError} {rest : List Lexeme}
    (hl : ¬ l.token.is "\x7d")
    (h : placeItem (some i) byPlace slots (l :: tail) = (filled, .error e))
    (hr : resyncInBody l.token 0 tail = some rest) :
    placeMembers i first byPlace slots (l :: tail) =
      ((placeMembers i first byPlace (filled.take slots.length) rest).1,
        (placeMembers i first byPlace (filled.take slots.length) rest).2.map
          fun (close, left) => (close, ⟨left.1, Nat.lt_trans left.2
            (Nat.lt_succ_of_le (length_resyncInBody_le hr))⟩)) := by
  rw [placeMembers, if_neg hl, h]
  dsimp only
  split
  · rename_i h'
    rw [hr] at h'
    cases h'
  · rename_i h'
    rw [hr] at h'
    cases h'
    rfl

end Equations

/-! ## Fresh slots -/

/-- **Fresh slots**: every parent that is named has a slot, so the next slot has no members yet. -/
def Fresh (slots : Slots) : Prop :=
  ∀ e, some e ∈ slots → ∀ p ∈ e.parent, p < slots.length

theorem Fresh.reserve {slots : Slots} (h : Fresh slots) : Fresh (slots ++ [none]) := by
  intro e he p hp
  rcases List.mem_append.mp he with he | he
  · have := h e he p hp
    rw [List.length_append]
    omega
  · exact absurd (List.mem_singleton.mp he) (by simp)

/-- A search through fresh slots finds no members of the next slot. -/
theorem Fresh.heldBy {slots : Slots} (h : Fresh slots) (p : Declaration → Bool) (index : Nat) :
    heldBy (some slots.length) p index slots = [] := by
  rw [KlarAudit.heldBy, List.map_eq_nil_iff, List.filter_eq_nil_iff]
  rintro ⟨s, i⟩ hs hany
  cases s with
  | none => cases hany
  | some e =>
    have hp : e.parent = some slots.length := by
      simp only [Option.any_some, Bool.and_eq_true, beq_iff_eq] at hany
      exact hany.1
    exact absurd (h e (List.fst_mem_of_mem_zipIdx hs) _ hp) (Nat.lt_irrefl _)

/-- The entries of a forest that is under a slot are fresh. -/
theorem Fresh.append {slots : Slots} (h : Fresh slots) (parent : Option Nat) (ts : List DeclTree)
    (hp : ∀ p ∈ parent, p < slots.length) (hts : ∀ t ∈ ts, t.WellShaped) :
    Fresh (slots ++ (DeclTree.flattenForest slots.length parent ts).map some) := by
  intro e he p hpe
  rw [List.length_append, List.length_map]
  rcases List.mem_append.mp he with he | he
  · have := h e he p hpe
    omega
  · obtain ⟨e', he', ⟨⟩⟩ := List.mem_map.mp he
    obtain ⟨k, hk, rfl⟩ := List.getElem_of_mem he'
    -- an entry of the forest is under `parent`, or under one that stands before it
    have hlinked := DeclTree.linkedIn_flattenForest hp ts hts (List.getElem?_eq_getElem hk)
    rcases hlinked.under with hu | ⟨j, f, hu, hlt, -⟩
    · rw [hu] at hpe
      have := hp p hpe
      omega
    · rw [hu] at hpe
      cases hpe
      omega

/-! ## Reading into slots adds the entries of what is read -/

/-- A search for the members of the slot that has been reserved finds the links of the forest that
has been placed behind it. -/
theorem membersOf_filled {slots : Slots} (h : Fresh slots) (shape : Shape) (ts : List DeclTree) :
    membersOf shape slots.length 0 (slots ++ none ::
        (DeclTree.flattenForest (slots.length + 1) (some slots.length) ts).map some) =
      DeclTree.linked shape (DeclTree.roots (slots.length + 1) ts) := by
  rw [membersOf_nil_append fun p => h.heldBy p 0, Nat.zero_add, ← List.singleton_append,
    membersOf_nil_append fun p => heldBy_none, List.length_singleton, DeclTree.linked_eq_membersOf]

theorem DeclTree.flattenForest_append (index : Nat) (parent : Option Nat) (ts us : List DeclTree) :
    flattenForest index parent (ts ++ us) =
      flattenForest index parent ts ++ flattenForest (index + sizes ts) parent us := by
  induction ts generalizing index with
  | nil => rfl
  | cons t ts ih =>
    rw [List.cons_append, flattenForest, flattenForest, ih, sizes, List.append_assoc, Nat.add_assoc]

/-- Reading the declaration in front of `ls` into slots adds its entries, or nothing that is not
given back. -/
def PlacesItem (byPlace : Bool) (ls : List Lexeme) : Prop :=
  ∀ parent slots, Fresh slots → (∀ p ∈ parent, p < slots.length) →
    (∀ e, (item byPlace ls).outcome = .error e →
      ∃ more, placeItem parent byPlace slots ls = (slots ++ more, .error e)) ∧
    ∀ r, (item byPlace ls).outcome = .ok r → placeItem parent byPlace slots ls =
      (slots ++ (DeclTree.flattenForest slots.length parent r.tree.toList).map some,
        .ok ⟨r.rest, r.shorter⟩)

/-- Reading the members in front of `ls` into slots adds their entries. -/
def PlacesMembers (first : Token) (byPlace : Bool) (ls : List Lexeme) : Prop :=
  ∀ i slots, Fresh slots → i < slots.length →
    (∀ e, (members first byPlace ls).outcome = .error e →
      ∃ more, placeMembers i first byPlace slots ls = (slots ++ more, .error e)) ∧
    ∀ m, (members first byPlace ls).outcome = .ok m → placeMembers i first byPlace slots ls =
      (slots ++ (DeclTree.flattenForest slots.length (some i) m.trees).map some,
        .ok (m.close, ⟨m.rest, m.shorter⟩))

section Steps

variable {byPlace : Bool} {first : Token} {ls tail rest : List Lexeme} {l : Lexeme}

/-- A declaration with members: they are placed behind the slot that it has reserved. -/
theorem placesItem_of_block {b : Block} (ho : (opening byPlace ls).outcome = .ok (.block b, rest))
    (ih : PlacesMembers b.first b.publicMembers rest) : PlacesItem byPlace ls := by
  intro parent slots hf hp
  rw [item_of_block ho]
  obtain ⟨herr, hok⟩ := ih slots.length (slots ++ [none]) hf.reserve (by simp)
  cases hm : (members b.first b.publicMembers rest).outcome with
  | error e =>
    obtain ⟨more, hplace⟩ := herr e hm
    rw [placeItem_of_block_error ho hplace]
    constructor
    · -- the reserved slot is among those that will be given back
      rintro e' ⟨⟩
      exact ⟨none :: more, by rw [List.append_assoc]; rfl⟩
    · rintro r ⟨⟩
  | ok m =>
    have hplace := hok m hm
    rw [List.append_assoc, List.singleton_append, List.length_append,
      List.length_singleton] at hplace
    rw [placeItem_of_block ho hplace]
    constructor
    · rintro e ⟨⟩
    · -- the search finds the links of the forest, and the entry takes the reserved slot
      rintro r ⟨⟩
      rw [membersOf_filled hf, List.set_append_right _ _ (Nat.le_refl _), Nat.sub_self,
        List.set_cons_zero]
      simp [DeclTree.flattenForest, DeclTree.flattenTree]

/-- A member that is read: the body goes on behind its entries, which leave the slots fresh. -/
theorem placesMembers_of_item {r : ItemResult (l :: tail)} (hl : ¬ l.token.is "\x7d")
    (hr : (item byPlace (l :: tail)).outcome = .ok r) (ihItem : PlacesItem byPlace (l :: tail))
    (ihBody : PlacesMembers first byPlace r.rest) : PlacesMembers first byPlace (l :: tail) := by
  intro i slots hf hi
  have hplace := (ihItem (some i) slots hf (by rintro p ⟨⟩; exact hi)).2 r hr
  have hfresh := hf.append (some i) r.tree.toList (by rintro p ⟨⟩; exact hi)
    fun t ht => wellShaped_item.1 _ _ _ hr t (by simpa using ht)
  obtain ⟨herr, hok⟩ := ihBody i _ hfresh (by rw [List.length_append]; omega)
  rw [members_of_item hl hr, placeMembers_of_item hl hplace]
  cases hm : (members first byPlace r.rest).outcome with
  | error e =>
    obtain ⟨more, hmore⟩ := herr e hm
    rw [hmore]
    constructor
    · rintro e' ⟨⟩
      exact ⟨_, by rw [List.append_assoc]; rfl⟩
    · rintro m ⟨⟩
  | ok m =>
    rw [hok m hm]
    constructor
    · rintro e ⟨⟩
    · rintro m' ⟨⟩
      rw [DeclTree.flattenForest_append, List.map_append, List.append_assoc, List.length_append,
        List.length_map, DeclTree.length_flattenForest]
      rfl

/-- A member that is skipped: whatever it has placed is given back, and the body goes on there. -/
theorem placesMembers_of_resync {e : SyntaxError} (hl : ¬ l.token.is "\x7d")
    (hi : (item byPlace (l :: tail)).outcome = .error e)
    (hr : resyncInBody l.token 0 tail = some rest) (ihItem : PlacesItem byPlace (l :: tail))
    (ihBody : PlacesMembers first byPlace rest) : PlacesMembers first byPlace (l :: tail) := by
  intro i slots hf hs
  obtain ⟨more, hplace⟩ := (ihItem (some i) slots hf (by rintro p ⟨⟩; exact hs)).1 e hi
  obtain ⟨herr, hok⟩ := ihBody i slots hf hs
  rw [members_of_resync hl hi hr, placeMembers_of_resync hl hplace hr, List.take_left]
  cases hm : (members first byPlace rest).outcome with
  | error e' =>
    obtain ⟨more', hmore⟩ := herr e' hm
    rw [hmore]
    constructor
    · rintro e'' ⟨⟩
      exact ⟨more', rfl⟩
    · rintro m ⟨⟩
  | ok m =>
    rw [hok m hm]
    constructor
    · rintro e' ⟨⟩
    · rintro m' ⟨⟩
      rfl

end Steps

/-- **Reading into slots** adds the entries of what is read. -/
theorem place_eq : (∀ byPlace ls, PlacesItem byPlace ls) ∧
    ∀ first byPlace ls, PlacesMembers first byPlace ls := by
  refine forest_induction ?failed ?complete placesItem_of_block ?nil ?close
    placesMembers_of_item ?ended placesMembers_of_resync
  case failed =>
    intro byPlace ls e ho parent slots _ _
    rw [item_of_error ho, placeItem_of_error ho]
    constructor
    · rintro e ⟨⟩
      exact ⟨[], by rw [List.append_nil]⟩
    · rintro r ⟨⟩
  case complete =>
    intro byPlace ls d rest ho parent slots _ _
    rw [item_of_complete ho, placeItem_of_complete ho]
    constructor
    · rintro e ⟨⟩
    · rintro r ⟨⟩
      cases d with
      | none => rfl
      | some d =>
        have : DeclTree.linked d.shape [] = [] := by cases d.shape <;> rfl
        simp [DeclTree.flattenForest, DeclTree.flattenTree, DeclTree.roots, this]
  case nil =>
    intro first byPlace i slots _ _
    rw [members, placeMembers]
    constructor
    · rintro e ⟨⟩
      exact ⟨[], by rw [List.append_nil]⟩
    · rintro m ⟨⟩
  case close =>
    intro first byPlace l tail hl i slots _ _
    rw [members_of_close hl, placeMembers_of_close hl]
    constructor
    · rintro e ⟨⟩
    · rintro m ⟨⟩
      simp [DeclTree.flattenForest]
  case ended =>
    intro first byPlace l tail e hl hi hr ih i slots hf hs
    obtain ⟨more, hplace⟩ := (ih (some i) slots hf (by rintro p ⟨⟩; exact hs)).1 e hi
    -- the body ends with the member, and whatever it has placed is given back
    rw [members_of_end hl hi hr, placeMembers_of_end hl hplace hr, List.take_left]
    constructor
    · rintro e' ⟨⟩
      exact ⟨[], by rw [List.append_nil]⟩
    · rintro m ⟨⟩

/-! ## The whole file -/

/-- **After the last declaration** the slots hold the entries of the declarations that have been
read, and none is left empty. -/
theorem placeTopLevel_eq (ls : List Lexeme) (slots : Slots) (hf : Fresh slots) :
    placeTopLevel slots ls =
      slots ++ (DeclTree.flattenForest slots.length none (topLevel ls).2).map some := by
  induction ls using topLevel_induction generalizing slots with
  | nil => rw [placeTopLevel, topLevel_nil]; simp [DeclTree.flattenForest]
  | @read l tail r h ih =>
    have hplace := (place_eq.1 false (l :: tail) none slots hf (by simp)).2 r h
    have hfresh := hf.append none r.tree.toList (by simp)
      fun t ht => wellShaped_item.1 _ _ _ h t (by simpa using ht)
    rw [placeTopLevel, hplace, topLevel_of_item h]
    dsimp only
    rw [ih _ hfresh, DeclTree.flattenForest_append, List.map_append, List.append_assoc,
      List.length_append, List.length_map, DeclTree.length_flattenForest]
  | @skipped l tail e h ih =>
    obtain ⟨more, hplace⟩ := (place_eq.1 false (l :: tail) none slots hf (by simp)).1 e h
    rw [placeTopLevel, hplace, topLevel_of_error h]
    dsimp only
    rw [List.take_left]
    exact ih slots hf

/-- **The arena of a text is well formed**: parents are containers before their members, links name
exactly the children of the right kind, and the slots that were filled while reading are the entries
of the arena, one for one, with no slot left empty. -/
theorem arena_wellFormed (text : String) :
    WellFormed (parse (scan text)).arena.entries ∧
      placeTopLevel [] (Lexeme.ofTokens (scan text)) =
        (parse (scan text)).arena.entries.map some := by
  constructor
  · exact wellFormed_flatten (wellShaped_topLevel _)
  · rw [placeTopLevel_eq _ _ (by simp [Fresh])]
    rfl

end KlarAudit

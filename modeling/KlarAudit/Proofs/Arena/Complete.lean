import KlarAudit.Proofs.Arena.Layout
import KlarAudit.Proofs.Grammar.Complete

/-!
# Reading is complete

Whatever declarations are written down, with members to any depth, the text is read without an
issue, and its arena lists the declarations that are meant, each before its members, with their
links. The readers of declarations and of bodies call each other, so both are followed by one
induction over what is written.

## Main definitions

* `DeclTree.bare`: a tree of declarations without places and documentation
* `Surface.Stands`, `Surface.StandInOrder`: where in an arena what is written down stands, with its
  links

## Main results

* `reads_item`, `reads_members`: a declaration with its members, and the members of a body
* `standInOrder_of_flattenForest`: the entries of a forest stand as they are meant to
* `arena_complete`: what is written down is read
-/

namespace KlarAudit

open Surface

/-! ## Forgetting places in trees -/

namespace DeclTree

mutual

/-- **A tree of declarations** without places and documentation. -/
def bare : DeclTree → DeclTree
  | node d ts => node d.bare (bareForest ts)

/-- Trees of declarations without places and documentation. -/
def bareForest : List DeclTree → List DeclTree
  | [] => []
  | t :: ts => t.bare :: bareForest ts

end

theorem bareForest_append (ts us : List DeclTree) :
    bareForest (ts ++ us) = bareForest ts ++ bareForest us := by
  induction ts with
  | nil => rfl
  | cons t ts ih => rw [List.cons_append, bareForest, bareForest, ih, List.cons_append]

mutual

theorem size_bare (t : DeclTree) : t.bare.size = t.size :=
  match t with
  | node _ ts => by rw [bare, size, size, sizes_bareForest]

theorem sizes_bareForest (ts : List DeclTree) : sizes (bareForest ts) = sizes ts :=
  match ts with
  | [] => rfl
  | t :: ts => by rw [bareForest, sizes, sizes, size_bare, sizes_bareForest]

end

theorem roots_bareForest (index : Nat) (ts : List DeclTree) :
    roots index (bareForest ts) = (roots index ts).map fun (i, t) => (i, t.bare) := by
  induction ts generalizing index with
  | nil => rfl
  | cons t ts ih => rw [bareForest, roots, roots, size_bare, ih, List.map_cons]

/-- The links of a declaration do not depend on places. -/
theorem linked_roots_bareForest (s : Shape) (index : Nat) (ts : List DeclTree) :
    linked s.bare (roots index (bareForest ts)) = linked s (roots index ts) := by
  have hfunction (t : DeclTree) : t.bare.decl.shape.isFunction = t.decl.shape.isFunction := by
    cases t
    exact isFunction_bare _
  rw [linked_bare, roots_bareForest]
  cases s <;> simp [linked, List.filter_map, Function.comp_def, hfunction]

mutual

theorem flattenTree_bare (index : Nat) (parent : Option Nat) (t : DeclTree) :
    flattenTree index parent t.bare = (flattenTree index parent t).map Entry.bare :=
  match t with
  | node d ts => by
    rw [bare, flattenTree, flattenTree, List.map_cons, flattenForest_bareForest, Entry.bare]
    congr 2
    exact linked_roots_bareForest d.shape _ ts

/-- **The entries of a forest** without places are those of the forest without places. -/
theorem flattenForest_bareForest (index : Nat) (parent : Option Nat) (ts : List DeclTree) :
    flattenForest index parent (bareForest ts) =
      (flattenForest index parent ts).map Entry.bare :=
  match ts with
  | [] => rfl
  | t :: ts => by
    rw [bareForest, flattenForest, flattenForest, size_bare, flattenTree_bare,
      flattenForest_bareForest, List.map_append]

end

end DeclTree

/-! ## Declarations with their members -/

/-- No declaration starts with the brace that closes a body. -/
theorem headIs_lines (i : Item) (ws : List Word) :
    headIs "\x7d" (i.lines.flatten ++ ws) = false := by
  cases i with
  | whole v =>
    obtain ⟨isPublic, name, kind⟩ := v
    cases isPublic
    · cases kind with
      | function f =>
        obtain ⟨isUnsafe, generics, receiver, params, returns, body⟩ := f
        cases isUnsafe <;> rfl
      | struct s => rfl
      | enum vs => rfl
      | const isStatic type init => cases isStatic <;> rfl
    · rfl
  | block h members =>
    cases h with
    | module isPublic name => cases isPublic <;> rfl
    | trait isPublic name => cases isPublic <;> rfl
    | impl trait? target => rfl

mutual

/-- **A declaration with its members** is read. -/
theorem reads_item (byPlace : Bool) (i : Item) {after : List Word} {ls : List Lexeme}
    (hs : Spelled (i.lines.flatten ++ after) ls) :
    ∃ r : ItemResult ls, item byPlace ls = ⟨[], .ok r⟩ ∧ Spelled after r.rest ∧
      r.tree.map DeclTree.bare = some (i.tree byPlace) :=
  match i with
  | .whole v => by
    have hs : Spelled (v.words ++ after) ls := by simpa [Item.lines] using hs
    obtain ⟨_, rest, ho, hrest, d, rfl, hd⟩ := reads_whole byPlace v ls hs
    refine ⟨_, item_of_complete_ok ho, hrest, ?_⟩
    rw [Option.map_some, Option.map_some, DeclTree.bare, hd]
    rfl
  | .block h is => by
    have hs : Spelled (h.words ++
        ((Item.allLines is).flatten ++ Mark.closeBrace.word :: after)) ls := by
      simpa [Item.lines] using hs
    obtain ⟨_, mid, ho, hmid, b, rfl, hb, hmembers⟩ := reads_head byPlace h ls hs
    obtain ⟨m, hm, hrest, htrees⟩ := reads_members b.first b.publicMembers is hmid
    refine ⟨_, item_of_block_ok ho hm, hrest, ?_⟩
    rw [Option.map_some, DeclTree.bare, htrees, hmembers, Item.tree, ← hb]
    rfl

/-- **The members of a body** are read, up to the brace that closes it. -/
theorem reads_members (first : Token) (byPlace : Bool) (is : List Item) {after : List Word}
    {ls : List Lexeme}
    (hs : Spelled ((Item.allLines is).flatten ++ Mark.closeBrace.word :: after) ls) :
    ∃ m : BodyResult ls, members first byPlace ls = ⟨[], .ok m⟩ ∧ Spelled after m.rest ∧
      DeclTree.bareForest m.trees = Item.forest byPlace is :=
  match is with
  | [] => by
    obtain ⟨l, rest, rfl, -, hrest, -⟩ := hs.exists_cons
    exact ⟨_, members_of_close (hs.nextIs_of_headIs rfl), hrest, rfl⟩
  | i :: is => by
    have hs : Spelled (i.lines.flatten ++
        ((Item.allLines is).flatten ++ Mark.closeBrace.word :: after)) ls := by
      simpa [Item.allLines] using hs
    obtain ⟨l, tail, rfl⟩ := hs.exists_of_ne_nil (by simp)
    obtain ⟨r, hr, hmid, htree⟩ := reads_item byPlace i hs
    obtain ⟨m, hm, hrest, htrees⟩ := reads_members first byPlace is hmid
    have hl : ¬ l.token.is "\x7d" := hs.not_nextIs (headIs_lines i _)
    refine ⟨_, members_of_item_ok hl hr hm, hrest, ?_⟩
    obtain ⟨t, ht, hbare⟩ := Option.map_eq_some_iff.mp htree
    rw [ht, DeclTree.bareForest_append, htrees, Item.forest, ← hbare]
    rfl

end

/-- **The declarations of a file** are read. -/
theorem reads_topLevel (is : List Item) {ls : List Lexeme}
    (hs : Spelled (Item.allLines is).flatten ls) :
    (topLevel ls).1 = [] ∧ DeclTree.bareForest (topLevel ls).2 = Item.forest false is := by
  induction is generalizing ls with
  | nil =>
    obtain rfl := hs.eq_nil
    rw [topLevel_nil]
    exact ⟨rfl, rfl⟩
  | cons i is ih =>
    have hs : Spelled (i.lines.flatten ++ (Item.allLines is).flatten) ls := by
      simpa [Item.allLines] using hs
    obtain ⟨r, hr, hrest, htree⟩ := reads_item false i hs
    obtain ⟨hissues, htrees⟩ := ih hrest
    cases ls with
    | nil => exact absurd r.shorter (Nat.not_lt_zero _)
    | cons l tail =>
      rw [topLevel_of_item (congrArg Attempt.outcome hr), hr]
      obtain ⟨t, ht, hbare⟩ := Option.map_eq_some_iff.mp htree
      refine ⟨hissues, ?_⟩
      rw [ht, DeclTree.bareForest_append, htrees, Item.forest, ← hbare]
      rfl

/-! ## Places in the arena -/

namespace Surface

/-- The declaration is a function. -/
def Item.isFunction : Item → Bool
  | whole ⟨_, _, .function _⟩ => true
  | _ => false

/-- **The links of a declaration** to its members, which are given with their indices: a module is
linked to all of them, a trait or an implementation to the functions among them. -/
def Head.links (members : List (Nat × Item)) : Head → List Nat
  | module .. => members.map (·.1)
  | trait .. | impl .. => (members.filter (·.2.isFunction)).map (·.1)

mutual

/-- **A declaration stands in the arena** at an index, under the given parent, and its members stand
right behind it, up to the index `next`. -/
inductive Stands (entries : List Entry) :
    (parent : Option Nat) → (byPlace : Bool) → (index : Nat) → Item → (next : Nat) → Prop where
  /-- A declaration without members takes one place. -/
  | whole {parent : Option Nat} {byPlace : Bool} {index : Nat} {w : Whole}
    (h : entries[index]? = some ⟨w.declaration byPlace, parent, []⟩) :
    Stands entries parent byPlace index (.whole w) (index + 1)
  /-- The members of a declaration have it for their parent. -/
  | block {parent : Option Nat} {byPlace : Bool} {index next : Nat} {head : Head}
    {items : List Item} {members : List (Nat × Item)}
    (h : entries[index]? = some ⟨head.declaration byPlace, parent, head.links members⟩)
    (hs : StandInOrder entries (some index) (head.publicMembers byPlace) (index + 1) items members
      next) :
    Stands entries parent byPlace index (.block head items) next

/-- **Declarations stand in the arena in order**, each right behind the members of the one before;
`members` are the declarations with their indices. -/
inductive StandInOrder (entries : List Entry) :
    (parent : Option Nat) → (byPlace : Bool) → (index : Nat) → List Item →
      (members : List (Nat × Item)) → (next : Nat) → Prop where
  /-- Nothing takes no place. -/
  | nil {parent : Option Nat} {byPlace : Bool} {index : Nat} :
    StandInOrder entries parent byPlace index [] [] index
  /-- The first one, and the others behind it. -/
  | cons {parent : Option Nat} {byPlace : Bool} {index mid next : Nat} {item : Item}
    {items : List Item} {members : List (Nat × Item)}
    (h : Stands entries parent byPlace index item mid)
    (hs : StandInOrder entries parent byPlace mid items members next) :
    StandInOrder entries parent byPlace index (item :: items) ((index, item) :: members) next

end

end Surface

theorem isFunction_tree (byPlace : Bool) (i : Item) :
    (i.tree byPlace).decl.shape.isFunction = i.isFunction := by
  match i with
  | .whole ⟨_, _, kind⟩ => cases kind <;> rfl
  | .block head _ => cases head <;> rfl

/-- The links that a declaration has in the arena are those that it is meant to have. -/
theorem linked_roots {head : Head} {byPlace : Bool} {ts : List (Nat × DeclTree)}
    {members : List (Nat × Item)} (b : Bool) (h : ts = members.map fun m => (m.1, m.2.tree b)) :
    DeclTree.linked (head.declaration byPlace).shape ts = head.links members := by
  subst h
  cases head <;>
    simp [DeclTree.linked, Head.declaration, declaration, Head.links, List.filter_map,
      Function.comp_def, isFunction_tree]

mutual

theorem stands_of_flattenTree {entries : List Entry} (before after : List Entry)
    (parent : Option Nat) (byPlace : Bool) (i : Item)
    (h : entries =
      before ++ (DeclTree.flattenTree before.length parent (i.tree byPlace) ++ after)) :
    Stands entries parent byPlace before.length i (before.length + (i.tree byPlace).size) :=
  match i with
  | .whole w => by
    have hlinks : DeclTree.linked (w.declaration byPlace).shape [] = [] := by
      cases (w.declaration byPlace).shape <;> rfl
    refine .whole ?_
    rw [h, Item.tree, DeclTree.flattenTree, DeclTree.roots, hlinks]
    simp
  | .block head is => by
    rw [Item.tree, DeclTree.flattenTree] at h
    obtain ⟨members, hroots, hs⟩ := standInOrder_of_flattenForest (before ++ [_]) after
      (some before.length) (head.publicMembers byPlace) is (by simpa using h)
    rw [List.length_append, List.length_singleton] at hroots hs
    rw [linked_roots _ hroots] at h
    rw [Item.tree, DeclTree.size, Nat.add_comm (DeclTree.sizes _), ← Nat.add_assoc]
    refine .block ?_ hs
    rw [h]
    simp

theorem standInOrder_of_flattenForest {entries : List Entry} (before after : List Entry)
    (parent : Option Nat) (byPlace : Bool) (is : List Item)
    (h : entries = before ++
      (DeclTree.flattenForest before.length parent (Item.forest byPlace is) ++ after)) :
    ∃ members, DeclTree.roots before.length (Item.forest byPlace is) =
        members.map (fun m => (m.1, m.2.tree byPlace)) ∧
      StandInOrder entries parent byPlace before.length is members
        (before.length + DeclTree.sizes (Item.forest byPlace is)) :=
  match is with
  | [] => ⟨[], rfl, .nil⟩
  | i :: is => by
    rw [Item.forest, DeclTree.flattenForest, List.append_assoc] at h
    have here := stands_of_flattenTree before _ parent byPlace i h
    obtain ⟨members, hroots, hs⟩ := standInOrder_of_flattenForest
      (before ++ DeclTree.flattenTree before.length parent (i.tree byPlace)) after parent byPlace is
      (by simpa [DeclTree.length_flattenTree, List.append_assoc] using h)
    rw [List.length_append, DeclTree.length_flattenTree] at hroots hs
    refine ⟨(before.length, i) :: members, ?_, ?_⟩
    · rw [Item.forest, DeclTree.roots, hroots, List.map_cons]
    · rw [Item.forest, DeclTree.sizes, ← Nat.add_assoc]
      exact .cons here hs

end

/-! ## The arena -/

/-- **Reading is complete**: whatever declarations are written down, each starting on a line of its
own, they are read without an issue, and the arena is made of the declarations that are meant, each
before its members: their kinds, names, visibility, parts, types as they are rendered, and links.
They stand in the order in which they are written, from the first place to the last one. -/
theorem arena_complete (items : List Item) :
    (parse (scan (print items))).ok ∧
      (parse (scan (print items))).arena.entries.map Entry.bare =
        DeclTree.flatten (Item.forest false items) ∧
      ∃ members, StandInOrder ((parse (scan (print items))).arena.entries.map Entry.bare) none false
        0 items members (parse (scan (print items))).arena.entries.length := by
  obtain ⟨hissues, htrees⟩ := reads_topLevel items (spelled_scan_print (Item.allLines items))
  have hentries : (parse (scan (print items))).arena.entries.map Entry.bare =
      DeclTree.flatten (Item.forest false items) := by
    rw [← htrees, DeclTree.flatten, DeclTree.flattenForest_bareForest]
    rfl
  have hlength : (parse (scan (print items))).arena.entries.length =
      DeclTree.sizes (Item.forest false items) := by
    rw [← List.length_map (f := Entry.bare), hentries, DeclTree.flatten,
      DeclTree.length_flattenForest]
  refine ⟨by simpa [parse, ParseResult.ok, print] using hissues, hentries, ?_⟩
  rw [hlength, hentries]
  obtain ⟨members, -, hs⟩ := standInOrder_of_flattenForest [] [] none false items
    (List.append_nil _).symm
  exact ⟨members, by simpa [DeclTree.flatten] using hs⟩

/-- A name, as a word of its own. -/
def nameOf (text : String) (h : Munch.isAlone .identifier text) : Name :=
  ⟨⟨.identifier, text, rfl, Munch.scans_of_isAlone h⟩, rfl⟩

/-- A function without parameters and without a body. -/
def bareFunction (name : Name) : Item :=
  .whole ⟨false, name, .function ⟨false, none, none, [], none, none⟩⟩

/-- A module with a function, a trait, an implementation of the trait and a module in it, and a
function behind it. -/
def nestedItems : List Item :=
  let square : Name := nameOf "Square" (by decide +kernel)
  let shape : Name := nameOf "Shape" (by decide +kernel)
  let area : Name := nameOf "area" (by decide +kernel)
  let type (n : Name) : TypeRun := ⟨[n.1], by simp, .token n.isFlat (n.stops_eq _) .nil⟩
  [.block (.module true (nameOf "outer" (by decide +kernel)))
    [bareFunction (nameOf "first" (by decide +kernel)),
     .block (.trait true shape)
      [bareFunction area, .whole ⟨false, nameOf "Unit" (by decide +kernel), .enum []⟩],
     .block (.impl (some (type shape)) (type square)) [bareFunction area],
     .block (.module false (nameOf "inner" (by decide +kernel)))
      [.whole ⟨false, square, .struct .unit⟩]],
   bareFunction (nameOf "last" (by decide +kernel))]

/-- Parents and members by their indices: the trait is not linked to the enumeration in it, and what
is in the public trait is public. -/
example :
    (parse (scan (print nestedItems))).arena.entries.map
        (fun e => (e.decl.name, e.decl.isPublic, e.parent, e.members)) =
      [("outer", true, none, [1, 2, 5, 7]), ("first", false, some 0, []),
       ("Shape", true, some 0, [3]), ("area", true, some 2, []), ("Unit", true, some 2, []),
       ("Shape for Square", false, some 0, [6]), ("area", false, some 5, []),
       ("inner", false, some 0, [8]), ("Square", false, some 7, []),
       ("last", false, none, [])] := by
  decide +kernel

end KlarAudit

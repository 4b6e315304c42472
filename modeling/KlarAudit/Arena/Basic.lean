import KlarAudit.Grammar.Forest

/-!
# The arena of declarations

All declarations of a file in one list, each after its parent and before its next sibling. Links are
indices into the list: an entry names its parent and, if it is a container, the members that matter
for its kind.

## Main definitions

* `Entry`: a declaration with its links
* `DeclTree.flatten trees`: the entries of a forest
* `childrenOf`, `declarationsWhere`: the links and the declarations as look-ups
* `enclosingFunction?`: the innermost function around an offset

## Main results

* `length_flattenTree`: a tree takes as many entries as it has declarations
-/

namespace KlarAudit

/-- **A declaration in the arena.** -/
structure Entry where
  /-- The declaration. -/
  decl : Declaration
  /-- The index of the declaration that holds it. -/
  parent : Option Nat
  /-- The indices of the members: of a module all of them, of a trait or an implementation the
  functions. -/
  members : List Nat
deriving DecidableEq, Repr, Inhabited

namespace DeclTree

mutual

/-- The number of declarations in a tree. -/
def size : DeclTree → Nat
  | node _ ts => sizes ts + 1

/-- The number of declarations in a forest. -/
def sizes : List DeclTree → Nat
  | [] => 0
  | t :: ts => t.size + sizes ts

end

/-- The indices that the roots of a forest get when its first declaration gets `index`, each with
its tree. -/
def roots (index : Nat) : List DeclTree → List (Nat × DeclTree)
  | [] => []
  | t :: ts => (index, t) :: roots (index + t.size) ts

/-- The members that a declaration of the given shape links to. -/
def linked (shape : Shape) (members : List (Nat × DeclTree)) : List Nat :=
  match shape with
  | .module => members.map (·.1)
  | .trait .. | .impl .. => (members.filter (·.2.decl.shape.isFunction)).map (·.1)
  | _ => []

mutual

/-- The entries of a tree whose root gets the given index and parent. -/
def flattenTree (index : Nat) (parent : Option Nat) : DeclTree → List Entry
  | node d ts =>
    ⟨d, parent, linked d.shape (roots (index + 1) ts)⟩ :: flattenForest (index + 1) (some index) ts

/-- The entries of a forest whose first root gets the given index, under the given parent. -/
def flattenForest (index : Nat) (parent : Option Nat) : List DeclTree → List Entry
  | [] => []
  | t :: ts => flattenTree index parent t ++ flattenForest (index + t.size) parent ts

end

mutual

/-- A tree takes as many entries as it has declarations. -/
theorem length_flattenTree (index : Nat) (parent : Option Nat) (t : DeclTree) :
    (flattenTree index parent t).length = t.size :=
  match t with
  | node _ ts => by
    rw [flattenTree, size, List.length_cons, length_flattenForest]

theorem length_flattenForest (index : Nat) (parent : Option Nat) (ts : List DeclTree) :
    (flattenForest index parent ts).length = sizes ts :=
  match ts with
  | [] => rfl
  | t :: ts => by
    rw [flattenForest, sizes, List.length_append, length_flattenTree, length_flattenForest]

end

/-- **The entries of a forest.** -/
def flatten (ts : List DeclTree) : List Entry :=
  flattenForest 0 none ts

end DeclTree

/-- The members of a list with their indices. -/
def indexed {α : Type} (xs : List α) : List (Nat × α) :=
  xs.zipIdx.map fun (x, i) => (i, x)

/-- The indices of the direct members of the declaration `index`, or of the top-level declarations
for `none`. -/
def childrenOf (entries : List Entry) (index : Option Nat) : List Nat :=
  ((indexed entries).filter (·.2.parent == index)).map (·.1)

/-- The declarations that satisfy `p`, with their indices. -/
def declarationsWhere (entries : List Entry) (p : Declaration → Bool) : List (Nat × Declaration) :=
  ((indexed entries).filter (p ·.2.decl)).map fun (i, e) => (i, e.decl)

/-- The function whose body holds the offset and starts last, the first of several. -/
def enclosingFunction? (entries : List Entry) (offset : Int) : Option (Nat × Declaration) :=
  let step (best : Option (Nat × Declaration × Span)) (e : Nat × Declaration × Span) :=
    match best with
    | none => some e
    | some b => if e.2.2.start > b.2.2.start then some e else some b
  let bodies := (indexed entries).filterMap fun (i, e) => e.decl.body?.map fun s => (i, e.decl, s)
  ((bodies.filter fun b => decide (b.2.2.Holds offset)).foldl step none).map
    fun (i, d, _) => (i, d)

end KlarAudit

import KlarAudit.Yaml.Merge
import KlarAudit.Yaml.Scalar

/-!
# The values of documents

A sequence is a list of the values of its items, and a mapping holds the values of its pairs. The
nodes of a document get their values from the outside in: all items of a collection come before the
items of the collections in it. So of several faults that of the outermost node counts, and of faults
equally far inside the first one.

## Main definitions

* `Flaw`: a fault some way inside a node
* `Node.value`: the value of a node
* `load`: the value of a document
-/

namespace KlarAudit.Yaml

/-- **A fault some way inside a node.** -/
structure Flaw where
  /-- The number of collections around it. -/
  depth : Nat
  /-- What is wrong. -/
  fault : Fault
deriving DecidableEq, Repr, Inhabited

/-- A fault of the node itself. -/
def flawed {α : Type} : Except Fault α → Except Flaw α :=
  Except.mapError (⟨0, ·⟩)

/-- The flaws of a collection, from those of what is in it. -/
def inside {α : Type} : Except Flaw α → Except Flaw α :=
  Except.mapError fun e => { e with depth := e.depth + 1 }

/-- **Two readings, one after the other**; of two flaws the outer one counts. -/
def both {α β γ : Type} (f : α → β → γ) : Except Flaw α → Except Flaw β → Except Flaw γ
  | .ok a, .ok b => .ok (f a b)
  | .error e, .ok _ | .ok _, .error e => .error e
  | .error e, .error e' => .error (if e'.depth < e.depth then e' else e)

/-- The value of a key, which is no collection. An equals sign is a text here. -/
def keyValue : Node → Except Flaw Value
  | .scalar text plain =>
    if text == "=" then .ok (.text text) else flawed (scalarValue text plain)
  | .ragged codes => .ok (.ragged codes)
  | _ => .error ⟨0, .malformed⟩

mutual

/-- **The value of a node** without merge keys. Of several values for a key the last one counts. -/
def Node.value : Node → Except Flaw Value
  | .scalar text plain => flawed (scalarValue text plain)
  | .ragged codes => .ok (.ragged codes)
  | .sequence items => inside ((itemValues items).map .list)
  | .mapping pairs => inside ((pairValues pairs).map fun entries =>
      .mapping (entries.foldl (fun before (k, v) => Value.put k v before) []))

/-- The values of the items of a sequence. -/
def itemValues : List Node → Except Flaw (List Value)
  | [] => .ok []
  | n :: ns => both (· :: ·) n.value (itemValues ns)

/-- The values of the pairs of a mapping. -/
def pairValues : List (Node × Node) → Except Flaw (List (Value × Value))
  | [] => .ok []
  | (k, v) :: pairs => both (· :: ·) (both Prod.mk (keyValue k) v.value) (pairValues pairs)

end

/-- **The value of a document.** -/
def load (text : String) : Except Fault Value :=
  let (tokens, fault) := scan text
  (Node.ofTokens tokens fault).bind fun n => n.merged.value.mapError (·.fault)

end KlarAudit.Yaml

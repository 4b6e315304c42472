import KlarAudit.Yaml.Node

/-!
# Merge keys

The pairs of a mapping, or of several mappings in a sequence, are taken over into another mapping
under the key that is written as two signs `<`. They come before the mapping's own pairs, so that its
own values count; of several mappings the first one counts.

## Main definitions

* `spread`: the pairs of a mapping with those that it takes over
* `Node.merged`: a node without merge keys
-/

namespace KlarAudit.Yaml

/-- The key under which a mapping takes over pairs. -/
def mergeKey : Node :=
  .scalar "<<" true

/-- The node is the key under which a mapping takes over pairs. -/
def Node.isMergeKey : Node → Bool
  | .scalar text plain => plain && text == "<<"
  | _ => false

/-- The pairs of a mapping. -/
def Node.pairs? : Node → Option (List (Node × Node))
  | .mapping pairs => some pairs
  | _ => none

/-- The pairs that a node gives to a mapping: those of a mapping, or of the mappings of a sequence,
the last one first. -/
def Node.given? : Node → Option (List (Node × Node))
  | .sequence items => (items.mapM Node.pairs?).map (·.reverse.flatten)
  | n => n.pairs?

/-- **The pairs of a mapping with those that it takes over**, in front. Where that is impossible, only
a merge key is left, which has no value. -/
def spread (pairs : List (Node × Node)) : List (Node × Node) :=
  let (merges, own) := pairs.partition (·.1.isMergeKey)
  match merges.mapM (·.2.given?) with
  | some given =>
    let all := given.flatten ++ own
    if all.any (·.1.isMergeKey) then [(mergeKey, .empty)] else all
  | none => [(mergeKey, .empty)]

mutual

/-- **The node without merge keys**, in all mappings in it. -/
def Node.merged : Node → Node
  | .sequence items => .sequence (mergedItems items)
  | .mapping pairs => .mapping (spread (mergedPairs pairs))
  | n => n

/-- The items without merge keys. -/
def mergedItems : List Node → List Node
  | [] => []
  | n :: ns => n.merged :: mergedItems ns

/-- The pairs without merge keys in them. -/
def mergedPairs : List (Node × Node) → List (Node × Node)
  | [] => []
  | (k, v) :: pairs => (k.merged, v.merged) :: mergedPairs pairs

end

end KlarAudit.Yaml

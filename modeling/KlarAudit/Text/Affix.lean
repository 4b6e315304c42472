/-!
# Starts and ends of texts, and lists of texts

## Main definitions

* `startsWith p s`, `endsWith p s`: `s` starts or ends with `p`
* `startsWithAny ps s`: `s` starts with one of `ps`
* `joinWith sep ss`: the texts `ss` with `sep` between them
* `sortedSet ss`: the texts `ss` in order, each once
-/

namespace KlarAudit.Text

/-- The text `s` starts with `p`. -/
def startsWith (p s : String) : Bool :=
  p.toList.isPrefixOf s.toList

/-- The text `s` ends with `p`. -/
def endsWith (p s : String) : Bool :=
  p.toList.isSuffixOf s.toList

/-- The text `s` starts with one of `ps`. -/
def startsWithAny (ps : List String) (s : String) : Bool :=
  ps.any (startsWith · s)

/-- The texts `ss`, one after the other, with `sep` between neighbours. -/
def joinWith (sep : String) : List String → String
  | [] => ""
  | [s] => s
  | s :: t :: ss => s ++ sep ++ joinWith sep (t :: ss)

/-- **The texts in order**, each once. -/
def sortedSet (ss : List String) : List String :=
  ss.eraseDups.mergeSort fun a b => (compare a b).isLE

theorem mem_sortedSet_iff {s : String} {ss : List String} : s ∈ sortedSet ss ↔ s ∈ ss := by
  rw [sortedSet, List.mem_mergeSort, List.mem_eraseDups]

end KlarAudit.Text

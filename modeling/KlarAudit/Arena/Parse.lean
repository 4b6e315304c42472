import KlarAudit.Arena.UnsafeRegion

/-!
# Parsing a file

## Main definitions

* `Arena`: the declarations and the unsafe blocks of a file
* `parse`: the arena of a token sequence, and the issues recorded
-/

namespace KlarAudit

/-- **What a file declares**: its declarations and its unsafe blocks. -/
structure Arena where
  /-- The declarations, parents before members. -/
  entries : List Entry := []
  /-- The unsafe blocks, in order. -/
  regions : List UnsafeRegion := []
deriving DecidableEq, Repr, Inhabited

namespace Arena

/-- The declarations, without their links. -/
def declarations (a : Arena) : List Declaration :=
  a.entries.map (·.decl)

/-- The public declarations. -/
def publicDeclarations (a : Arena) : List Declaration :=
  a.declarations.filter (·.isPublic)

/-- The indices of the direct members of a declaration, or of the top-level declarations. -/
def children (a : Arena) (index : Option Nat) : List Nat :=
  childrenOf a.entries index

/-- The declaration that holds an entry. -/
def parentOf (a : Arena) (e : Entry) : Option Declaration :=
  e.parent.bind (a.entries[·]?) |>.map (·.decl)

/-- The innermost function around an offset. -/
def enclosingFunction? (a : Arena) (offset : Int) : Option (Nat × Declaration) :=
  KlarAudit.enclosingFunction? a.entries offset

/-- The number of public declarations, and how many of them are documented. -/
def docCounts (a : Arena) : Nat × Nat :=
  (a.publicDeclarations.length, (a.publicDeclarations.filter (·.doc.isSome)).length)

end Arena

/-- The outcome of parsing: an arena, and the errors recovered from. -/
structure ParseResult where
  /-- What could be read. -/
  arena : Arena
  /-- The errors, in the order in which they were recorded. -/
  issues : List ParseIssue
deriving DecidableEq, Repr, Inhabited

/-- Nothing had to be recovered from. -/
def ParseResult.ok (r : ParseResult) : Bool :=
  r.issues.isEmpty

/-- **Parsing**: the declarations of a token sequence. What cannot be read is recorded and left
out. -/
def parse (ts : List Token) : ParseResult :=
  let (issues, trees) := topLevel (Lexeme.ofTokens ts)
  let entries := DeclTree.flatten trees
  ⟨⟨entries, unsafeRegions entries ts⟩, issues.map (·.locate ts)⟩

end KlarAudit

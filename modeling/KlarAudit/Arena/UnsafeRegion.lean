import KlarAudit.Arena.Basic

/-!
# Unsafe regions

Every `unsafe` block inside a declaration, with the comment that precedes it. A block is justified
when the comments right above it, or those before it on its own line, contain a safety comment.

The blocks are found in the tokens, not in the grammar, since function bodies and initializers are
read as bracket groups.

## Main definitions

* `UnsafeRegion`: a block, its comment, and the function around it
* `nearestComment?`, `isJustifiedBy`: the comment that precedes a block, and the comments above it
* `unsafeRegions entries ts`: all blocks in the tokens `ts`
-/

namespace KlarAudit

/-- **An unsafe block.** -/
structure UnsafeRegion where
  /-- The offsets from the keyword to the closing brace. -/
  span : Span
  /-- The position of the keyword. -/
  pos : Position
  /-- The nearest comment on the same line or the line above. -/
  comment : Option Token
  /-- The unbroken comments that end there contain a safety comment. -/
  justified : Bool
  /-- The index of the innermost function around the block. -/
  function : Option Nat
deriving DecidableEq, Repr, Inhabited

/-- The nearest comment before a token on the given line, among the tokens before it, nearest first,
as long as they end on that line or the line above; and the tokens before the comment. -/
def nearestComment? (line : Nat) : List Token → Option (Token × List Token)
  | [] => none
  | t :: before =>
    if line ≤ t.endLine + 1 then
      if t.isComment then some (t, before) else nearestComment? line before
    else none

/-- **Justification**: among the tokens, nearest first, the unbroken comments that end on the given
line or the line above contain a safety comment. -/
def isJustifiedBy (line : Nat) : List Token → Bool
  | [] => false
  | t :: before =>
    t.isComment && line ≤ t.endLine + 1 && (t.isSafetyComment || isJustifiedBy t.line before)

/-- The end of the brace group in the tokens `ts` when `depth` braces are open; `limit` if it does
not end. -/
def braceEnd (limit : Nat) (depth : Nat) : List Token → Nat
  | [] => limit
  | t :: ts =>
    if t.is "\x7b" then braceEnd limit (depth + 1) ts
    else if t.is "\x7d" then
      if depth = 1 then t.stop else braceEnd limit (depth - 1) ts
    else braceEnd limit depth ts

/-- The function whose body holds the offset and starts last, the last of several. -/
def innermostFunction? (entries : List Entry) (offset : Int) : Option Nat :=
  let step (best : Option (Nat × Span)) (e : Nat × Span) :=
    match best with
    | none => some e
    | some b => if b.2.start ≤ e.2.start then some e else some b
  let bodies := (indexed entries).filterMap fun (i, e) => e.decl.body?.map fun s => (i, s)
  ((bodies.filter fun b => decide (b.2.Holds offset)).foldl step none).map (·.1)

/-- The offset lies in a top-level declaration. -/
def insideDeclaration (entries : List Entry) (offset : Int) : Bool :=
  entries.any fun e => e.parent.isNone && decide (e.decl.span.Holds offset)

/-- The block that starts at the keyword `t`, between the tokens before it, nearest first, and the
significant tokens after it. -/
def unsafeRegionAt (entries : List Entry) (limit : Nat) (before : List Token) (t : Token)
    (after : List Token) : UnsafeRegion :=
  let comment := nearestComment? t.line before
  { span := ⟨t.start, braceEnd limit 0 after⟩
    pos := t.pos
    comment := comment.map (·.1)
    justified := comment.any fun (c, before) => isJustifiedBy c.line (c :: before)
    function := innermostFunction? entries t.start }

/-- The blocks in the tokens `ts`, after the tokens `before`, nearest first. -/
def unsafeRegionsFrom (entries : List Entry) (limit : Nat) (before : List Token) :
    List Token → List UnsafeRegion
  | [] => []
  | t :: ts =>
    let here :=
      if t.is "unsafe" && (ts.find? (!·.isComment)).any (·.is "\x7b") &&
          insideDeclaration entries t.start then
        [unsafeRegionAt entries limit before t (significant ts)]
      else []
    here ++ unsafeRegionsFrom entries limit (t :: before) ts

/-- **All unsafe blocks** inside the declarations, in the order of the tokens. -/
def unsafeRegions (entries : List Entry) (ts : List Token) : List UnsafeRegion :=
  unsafeRegionsFrom entries ((ts.getLast?.map (·.stop)).getD 0) [] ts

end KlarAudit

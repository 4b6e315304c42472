import KlarAudit.Yaml.Token

/-!
# The nodes of a document

The tokens of a document make up a tree of scalars, sequences and mappings. The tree is built token
by token on a stack of the collections that are still open, the innermost on top. A key, value or
item that is left out is an empty plain scalar, and so is a node of which there is only an anchor.

## Main definitions

* `Node`: a scalar, a sequence or a mapping
* `Frame`: an open collection
* `deliver?`: a finished node goes to the collection on top of the stack
* `step?`: one more token
* `read?`: what has been read after some tokens
* `Node.ofTokens`: the only document of a token sequence
-/

namespace KlarAudit.Yaml

/-- **A node of a document.** -/
inductive Node where
  /-- A scalar, plain or in quotes. -/
  | scalar (text : String) (plain : Bool)
  /-- A scalar in quotes with code points that are no characters. -/
  | ragged (codes : List Nat)
  /-- Nodes in order. -/
  | sequence (items : List Node)
  /-- Pairs of nodes in order. -/
  | mapping (pairs : List (Node × Node))
deriving Repr, Inhabited

/-- The scalar in the place of a node that is left out. -/
def Node.empty : Node :=
  .scalar "" true

/-- **How far a document has been read.** -/
inductive Stage where
  /-- Nothing has been read. -/
  | fresh
  /-- Directives have been read; the mark that starts the document must follow. -/
  | directed (ds : List Directive)
  /-- The mark that starts the document has been read. -/
  | started
  /-- The content has been read. -/
  | content (n : Node)
  /-- The mark that ends the document has been read. -/
  | ended (n : Node)
deriving Repr, Inhabited

/-- **How far a pair of a mapping has been read.** -/
inductive PairStage where
  /-- The next pair may start. -/
  | idle
  /-- The mark of a key has been read. -/
  | key
  /-- The key has been read. -/
  | keyed (k : Node)
  /-- The mark of a value has been read. -/
  | value (k : Node)
  /-- The pair has been read; in braces a comma must follow before the next one. -/
  | done
deriving Repr, Inhabited

/-- **A collection that is still open**; what has been read of it comes last first. An anchor on top
waits for its node. -/
inductive Frame where
  /-- The document. -/
  | document (stage : Stage)
  /-- A block sequence; the flag says that a dash has been read and no item after it. A sequence
  without an indentation of its own ends before any other token. -/
  | blockSequence (indentless : Bool) (items : List Node) (dashed : Bool)
  /-- A block mapping. -/
  | blockMapping (pairs : List (Node × Node)) (stage : PairStage)
  /-- A flow sequence; the flag says that an item may follow, and not a comma. -/
  | flowSequence (items : List Node) (ready : Bool)
  /-- A pair without braces in a flow sequence. -/
  | flowPair (stage : PairStage)
  /-- A flow mapping; the flag says that nothing has been read since it was opened, or since a
  comma. -/
  | flowMapping (pairs : List (Node × Node)) (stage : PairStage)
  /-- The anchor of a node that comes next. -/
  | anchored
deriving Repr, Inhabited

/-- The pairs with the one that has been started, if any; what it lacks is empty. -/
def finishPair (pairs : List (Node × Node)) : PairStage → List (Node × Node)
  | .idle | .done => pairs
  | .key => (.empty, .empty) :: pairs
  | .keyed k | .value k => (k, .empty) :: pairs

/-- The items with an empty one after a dash that nothing follows. -/
def finishItems (items : List Node) (dashed : Bool) : List Node :=
  if dashed then .empty :: items else items

/-- **A finished node** goes to the collection on top; `none` if it has no place there. -/
def deliver? (n : Node) : List Frame → Option (List Frame)
  | .document .fresh :: fs | .document .started :: fs => some (.document (.content n) :: fs)
  | .blockSequence indentless items true :: fs =>
    some (.blockSequence indentless (n :: items) false :: fs)
  | .blockMapping pairs .key :: fs => some (.blockMapping pairs (.keyed n) :: fs)
  | .blockMapping pairs (.value k) :: fs => some (.blockMapping ((k, n) :: pairs) .idle :: fs)
  | .flowSequence items true :: fs => some (.flowSequence (n :: items) false :: fs)
  | .flowPair .key :: fs => some (.flowPair (.keyed n) :: fs)
  | .flowPair (.value k) :: .flowSequence items _ :: fs =>
    some (.flowSequence (.mapping [(k, n)] :: items) false :: fs)
  | .flowMapping pairs .key :: fs => some (.flowMapping pairs (.keyed n) :: fs)
  | .flowMapping pairs (.value k) :: fs => some (.flowMapping ((k, n) :: pairs) .done :: fs)
  | .flowMapping pairs .idle :: fs => some (.flowMapping ((n, .empty) :: pairs) .done :: fs)
  | _ => none

/-- A collection that has no end mark of its own ends before the token `t`. -/
def endUnmarked? (t : Token) : List Frame → Option (List Frame)
  | .blockSequence true items dashed :: fs =>
    if t = .key || t = .value || t = .blockEnd then
      deliver? (.sequence (finishItems items dashed).reverse) fs
    else some (.blockSequence true items dashed :: fs)
  | .flowPair stage :: .flowSequence items ready :: fs =>
    if t = .flowEntry || t = .flowSequenceEnd then
      some (.flowSequence (.mapping (finishPair [] stage) :: items) false :: fs)
    else some (.flowPair stage :: .flowSequence items ready :: fs)
  | fs => some fs

/-- The mark of a key. -/
def keyMark? : List Frame → Option (List Frame)
  | .blockMapping pairs stage :: fs => some (.blockMapping (finishPair pairs stage) .key :: fs)
  | .flowSequence items true :: fs => some (.flowPair .key :: .flowSequence items true :: fs)
  | .flowMapping pairs .idle :: fs => some (.flowMapping pairs .key :: fs)
  | _ => none

/-- The mark of a value, after the mark of a key or after a key. -/
def PairStage.valueMark? : PairStage → Option PairStage
  | key => some (.value .empty)
  | keyed k => some (.value k)
  | _ => none

/-- The mark of a value. -/
def valueMark? : List Frame → Option (List Frame)
  | .blockMapping pairs stage :: fs => stage.valueMark?.map (.blockMapping pairs · :: fs)
  | .flowPair stage :: fs => stage.valueMark?.map (.flowPair · :: fs)
  | .flowMapping pairs stage :: fs => stage.valueMark?.map (.flowMapping pairs · :: fs)
  | _ => none

/-- A dash. Where a block mapping waits for a key or a value it starts a sequence. -/
def dash? : List Frame → Option (List Frame)
  | .blockSequence indentless items dashed :: fs =>
    some (.blockSequence indentless (finishItems items dashed) true :: fs)
  | .blockMapping pairs .key :: fs =>
    some (.blockSequence true [] true :: .blockMapping pairs .key :: fs)
  | .blockMapping pairs (.value k) :: fs =>
    some (.blockSequence true [] true :: .blockMapping pairs (.value k) :: fs)
  | _ => none

/-- A comma. -/
def comma? : List Frame → Option (List Frame)
  | .flowSequence items false :: fs => some (.flowSequence items true :: fs)
  | .flowMapping _ .idle :: _ => none
  | .flowMapping pairs stage :: fs => some (.flowMapping (finishPair pairs stage) .idle :: fs)
  | _ => none

/-- The end of a block collection. -/
def blockEnd? : List Frame → Option (List Frame)
  | .blockSequence false items dashed :: fs =>
    deliver? (.sequence (finishItems items dashed).reverse) fs
  | .blockMapping pairs stage :: fs => deliver? (.mapping (finishPair pairs stage).reverse) fs
  | _ => none

/-- A directive. -/
def directive? (d : Directive) : Stage → Option Stage
  | .fresh => if d.accepts [] then some (.directed [d]) else none
  | .directed ds => if d.accepts ds then some (.directed (d :: ds)) else none
  | _ => none

/-- The mark that starts the document. A second document is none. -/
def documentStart? : Stage → Option Stage
  | .fresh | .directed _ => some .started
  | _ => none

/-- The mark that ends the document. -/
def documentEnd? : Stage → Option Stage
  | .started => some (.ended .empty)
  | .content n | .ended n => some (.ended n)
  | _ => none

/-- The document goes on to another stage. -/
def stageBy? (f : Stage → Option Stage) : List Frame → Option (List Frame)
  | [.document stage] => (f stage).map ([.document ·])
  | _ => none

/-- A frame is put on top, where a node may come. -/
def open? (top : Frame) (fs : List Frame) : Option (List Frame) :=
  (deliver? .empty fs).map fun _ => top :: fs

/-- One more token, when no collection ends before it. -/
def place? (fs : List Frame) (t : Token) : Option (List Frame) :=
  match t with
  | .directive d => stageBy? (directive? d) fs
  | .documentStart => stageBy? documentStart? fs
  | .documentEnd => stageBy? documentEnd? fs
  | .blockSequenceStart => open? (.blockSequence false [] false) fs
  | .blockMappingStart => open? (.blockMapping [] .idle) fs
  | .blockEnd => blockEnd? fs
  | .flowSequenceStart => open? (.flowSequence [] true) fs
  | .flowSequenceEnd =>
    match fs with
    | .flowSequence items _ :: fs => deliver? (.sequence items.reverse) fs
    | _ => none
  | .flowMappingStart => open? (.flowMapping [] .idle) fs
  | .flowMappingEnd =>
    match fs with
    | .flowMapping pairs stage :: fs => deliver? (.mapping (finishPair pairs stage).reverse) fs
    | _ => none
  | .blockEntry => dash? fs
  | .flowEntry => comma? fs
  | .key => keyMark? fs
  | .value => valueMark? fs
  | .reference _ => none
  | .anchor _ => open? .anchored fs
  | .scalar text plain => deliver? (.scalar text plain) fs
  | .ragged codes => deliver? (.ragged codes) fs

/-- The token starts a node that has an anchor in front; a dash does so where it starts a sequence
without an indentation of its own. -/
def startsAnchored (t : Token) (fs : List Frame) : Bool :=
  match t, fs with
  | .scalar _ _, _ | .ragged _, _ => true
  | .flowSequenceStart, _ | .flowMappingStart, _ => true
  | .blockSequenceStart, _ | .blockMappingStart, _ => true
  | .blockEntry, .blockMapping _ _ :: _ => true
  | _, _ => false

/-- What an anchor on top waits for comes with the token `t`, or it is empty. -/
def endAnchored? (t : Token) : List Frame → Option (List Frame)
  | .anchored :: fs => if startsAnchored t fs then some fs else deliver? .empty fs
  | fs => some fs

/-- **One more token.** -/
def step? (fs : List Frame) (t : Token) : Option (List Frame) :=
  (endAnchored? t fs).bind fun fs => (endUnmarked? t fs).bind (place? · t)

/-- The anchors among some tokens have names of their own. -/
def distinctAnchors (ts : List Token) : Bool :=
  decide (ts.filterMap fun | .anchor name => some name | _ => none).Nodup

/-- **What has been read after some tokens.** -/
def read? (ts : List Token) : Option (List Frame) :=
  if distinctAnchors ts then ts.foldlM step? [.document .fresh] else none

/-- The content of the document, when all tokens have been read; a document that was never started
is empty. -/
def finish? : List Frame → Option Node
  | [.document .fresh] | [.document .started] | [.anchored, .document _] => some .empty
  | [.document (.content n)] | [.document (.ended n)] => some n
  | _ => none

/-- **The only document of a token sequence** that may break off at a fault. -/
def Node.ofTokens (ts : List Token) (fault : Option Fault) : Except Fault Node :=
  (wellFormed (read? ts)).bind fun fs =>
    match fault with
    | some f => .error f
    | none => wellFormed (finish? fs)

end KlarAudit.Yaml

import KlarAudit.Text.Quoted
import KlarAudit.Yaml.Directive

/-!
# The tokens of a document

A document is scanned into tokens, among them the starts and ends of block collections, which are
written by indentation only. A scalar turns out to be a key at the colon after it; its place among
the tokens is remembered until then, and the mark of a key is put in front of it.

The scanner knows directives, comments, block and flow collections, plain and quoted scalars, anchors
and references to them; it does not know tags and block scalars.

## Main definitions

* `Token`: a token of a document
* `PendingKey`: a scalar or collection that may turn out to be a key
* `Scanner`: the state of scanning
* `scan`: the tokens of a document
-/

namespace KlarAudit.Yaml

/-- **A token of a document.** -/
inductive Token where
  /-- The mark that starts a document. -/
  | documentStart
  /-- The mark that ends a document. -/
  | documentEnd
  /-- A directive. -/
  | directive (d : Directive)
  /-- The start of a block sequence. -/
  | blockSequenceStart
  /-- The start of a block mapping. -/
  | blockMappingStart
  /-- The end of a block collection. -/
  | blockEnd
  /-- An opening square bracket. -/
  | flowSequenceStart
  /-- A closing square bracket. -/
  | flowSequenceEnd
  /-- An opening brace. -/
  | flowMappingStart
  /-- A closing brace. -/
  | flowMappingEnd
  /-- A dash before an entry. -/
  | blockEntry
  /-- A comma between entries. -/
  | flowEntry
  /-- What follows is a key. -/
  | key
  /-- What follows is a value. -/
  | value
  /-- A reference to an anchor. -/
  | reference (name : String)
  /-- An anchor. -/
  | anchor (name : String)
  /-- A scalar, plain or in quotes. -/
  | scalar (text : String) (plain : Bool)
  /-- A scalar in quotes with code points that are no characters. -/
  | ragged (codes : List Nat)
deriving DecidableEq, Repr, Inhabited

/-- The scalar in quotes with the given code points. -/
def Token.quoted (codes : List Nat) : Token :=
  match codes.mapM Text.charOf? with
  | some cs => .scalar (String.ofList cs) false
  | none => .ragged codes

/-- **What may turn out to be a key**: its place among the tokens and in the document. -/
structure PendingKey where
  /-- The number of brackets around it. -/
  level : Nat
  /-- The number of tokens before it. -/
  position : Nat
  /-- It must turn out to be a key. -/
  required : Bool
  /-- Its place in the document. -/
  cursor : Cursor
deriving Repr

/-- **The state of scanning.** -/
structure Scanner where
  /-- The place in the document. -/
  cursor : Cursor
  /-- The tokens so far. -/
  tokens : List Token := []
  /-- The number of open brackets. -/
  level : Nat := 0
  /-- The indentation of the block collection around the place. -/
  indent : Int := -1
  /-- The indentations of the collections around that one, the innermost first. -/
  indents : List Int := []
  /-- A key may start here. -/
  keyAllowed : Bool := true
  /-- What may turn out to be a key. -/
  pending : List PendingKey := []
deriving Repr

namespace Scanner

/-- The state with one more token. -/
def push (s : Scanner) (t : Token) : Scanner :=
  { s with tokens := s.tokens ++ [t] }

/-- The state with one more token, after `n` more characters. -/
def take (s : Scanner) (n : Nat) (t : Token) : Scanner :=
  { s.push t with cursor := s.cursor.skip n }

/-- The blanks, comments and line breaks before the next token. A line break outside brackets allows
a key. -/
def skipBlanks (fuel : Nat) (s : Scanner) : Scanner :=
  match fuel with
  | 0 => s
  | fuel + 1 =>
    let c := s.cursor.skipWhile (· == ' ')
    let c := if c.nextIs (· == '#') then c.skipWhile (!isBreak ·) else c
    match c.lineBreak? with
    | none => { s with cursor := c }
    | some (_, c) =>
      skipBlanks fuel { s with cursor := c, keyAllowed := s.keyAllowed || s.level == 0 }

/-- What can no longer be a key, because its line is over or it is too long, is dropped; `none` if
it had to be one. -/
def dropStale? (s : Scanner) : Option Scanner :=
  let stale (k : PendingKey) : Bool :=
    k.cursor.line != s.cursor.line || 1024 < s.cursor.index - k.cursor.index
  if s.pending.any fun k => stale k && k.required then none
  else some { s with pending := s.pending.filter (!stale ·) }

/-- Block collections indented more than the column end here. -/
def unwind (column : Int) (s : Scanner) : Scanner :=
  if s.level == 0 then go s.indents s else s
where
  /-- One collection after the other. -/
  go (indents : List Int) (s : Scanner) : Scanner :=
    if column < s.indent then
      match indents with
      | [] => s
      | i :: outer => go outer { s.push .blockEnd with indent := i, indents := outer }
    else s

/-- The pending key inside the same brackets is given up; `none` if it had to be a key. -/
def dropPending? (s : Scanner) : Option Scanner :=
  if s.pending.any fun k => k.level == s.level && k.required then none
  else some { s with pending := s.pending.filter (·.level != s.level) }

/-- What follows may turn out to be a key, where one is allowed. -/
def savePending? (s : Scanner) : Option Scanner :=
  if s.keyAllowed then
    s.dropPending?.map fun s =>
      let required := s.level == 0 && s.indent == s.cursor.column
      { s with pending := ⟨s.level, s.tokens.length, required, s.cursor⟩ :: s.pending }
  else some s

/-- A block collection starts at the column, unless one is open there; its first token goes to the
given place. -/
def openBlock (column : Nat) (position : Nat) (t : Token) (s : Scanner) : Scanner :=
  if s.indent < column then
    { s with
      indents := s.indent :: s.indents
      indent := column
      tokens := s.tokens.take position ++ t :: s.tokens.drop position }
  else s

/-- The end of everything indented, before a mark that divides documents. -/
def closeAll? (s : Scanner) : Option Scanner :=
  (s.unwind (-1)).dropPending?.map fun s => { s with keyAllowed := false }

/-- A line that starts with a percent sign. -/
def directive (s : Scanner) : Except Fault Scanner :=
  (wellFormed s.closeAll?).bind fun s =>
    (Yaml.directive s.cursor.next).map fun (d, c) => { s.push (.directive d) with cursor := c }

/-- A mark that divides documents. -/
def documentMark? (t : Token) (s : Scanner) : Option Scanner :=
  s.closeAll?.map (·.take 3 t)

/-- An opening bracket. -/
def flowStart? (t : Token) (s : Scanner) : Option Scanner :=
  s.savePending?.map fun s => { s.take 1 t with level := s.level + 1, keyAllowed := true }

/-- A closing bracket. -/
def flowEnd? (t : Token) (s : Scanner) : Option Scanner :=
  if s.level = 0 then none
  else s.dropPending?.map fun s => { s.take 1 t with level := s.level - 1, keyAllowed := false }

/-- A comma in brackets. -/
def flowEntry? (s : Scanner) : Option Scanner :=
  s.dropPending?.map fun s => { s.take 1 .flowEntry with keyAllowed := true }

/-- A dash before an entry. It has no place in brackets, but it is a token there too. -/
def blockEntry? (s : Scanner) : Option Scanner :=
  if s.level == 0 && !s.keyAllowed then none
  else
    let s := if s.level == 0 then
      s.openBlock s.cursor.column s.tokens.length .blockSequenceStart else s
    s.dropPending?.map fun s => { s.take 1 .blockEntry with keyAllowed := true }

/-- A question mark before a key. -/
def explicitKey? (s : Scanner) : Option Scanner :=
  if s.level == 0 && !s.keyAllowed then none
  else
    let s := if s.level == 0 then
      s.openBlock s.cursor.column s.tokens.length .blockMappingStart else s
    s.dropPending?.map fun s => { s.take 1 .key with keyAllowed := s.level == 0 }

/-- **A colon before a value.** If something pending is there, it was a key. -/
def value? (s : Scanner) : Option Scanner :=
  match s.pending.find? (·.level == s.level) with
  | some k =>
    let s := { s with
      pending := s.pending.filter (·.level != s.level)
      tokens := s.tokens.take k.position ++ Token.key :: s.tokens.drop k.position }
    let s := if s.level == 0 then
      s.openBlock k.cursor.column k.position .blockMappingStart else s
    some { s.take 1 .value with keyAllowed := false }
  | none =>
    if s.level == 0 then
      if s.keyAllowed then
        let s := s.openBlock s.cursor.column s.tokens.length .blockMappingStart
        some { s.take 1 .value with keyAllowed := true }
      else none
    else some { s.take 1 .value with keyAllowed := false }

/-- An anchor or a reference to one, after its mark. -/
def anchor? (t : String → Token) (s : Scanner) : Option Scanner :=
  s.savePending?.bind fun s =>
    let (name, c) := s.cursor.next.span isNameChar
    if name.isEmpty ||
        !(c.rest.head?.all fun d => isSpace d || "?:,]\x7d%@`".toList.contains d) then
      none
    else some { s.push (t (String.ofList name)) with cursor := c, keyAllowed := false }

/-- A scalar in quotes. -/
def quotedScalar (double : Bool) (s : Scanner) : Except Fault Scanner :=
  (wellFormed s.savePending?).bind fun s =>
    (quotedCodes double s.cursor.next).map fun (codes, c) =>
      { s.push (.quoted codes) with cursor := c, keyAllowed := false }

/-- A plain scalar. -/
def plainScalar? (s : Scanner) : Option Scanner :=
  s.savePending?.map fun s =>
    let (text, c, broken) := plainText (s.level != 0) (s.indent + 1) s.cursor
    { s.push (.scalar text true) with cursor := c, keyAllowed := broken }

/-- The characters that may not start a plain scalar. -/
def plainForbidden : List Char :=
  "-?:,[]\x7b\x7d#&*!|>'\"%@`".toList

/-- A plain scalar may start with the character `ch`: with most characters, and with some marks if
no blank follows. -/
def startsPlain (s : Scanner) (ch : Char) : Bool :=
  (!isSpace ch && !plainForbidden.contains ch) ||
    (!s.cursor.spaceAt 1 && (ch == '-' || (s.level == 0 && (ch == '?' || ch == ':'))))

/-- The next token, which starts with the character `ch` and is no directive and no scalar in
quotes. -/
def mark? (s : Scanner) (ch : Char) : Option Scanner :=
  let c := s.cursor
  let flow := s.level != 0
  if c.column == 0 && c.atMark "---" then s.documentMark? .documentStart
  else if c.column == 0 && c.atMark "..." then s.documentMark? .documentEnd
  else if ch == '[' then s.flowStart? .flowSequenceStart
  else if ch == '\x7b' then s.flowStart? .flowMappingStart
  else if ch == ']' then s.flowEnd? .flowSequenceEnd
  else if ch == '\x7d' then s.flowEnd? .flowMappingEnd
  else if ch == ',' then s.flowEntry?
  else if ch == '-' && c.spaceAt 1 then s.blockEntry?
  else if ch == '?' && (flow || c.spaceAt 1) then s.explicitKey?
  else if ch == ':' && (flow || c.spaceAt 1) then s.value?
  else if ch == '*' then s.anchor? .reference
  else if ch == '&' then s.anchor? .anchor
  else if s.startsPlain ch then s.plainScalar?
  else none

/-- **The next token**, which starts with the character `ch`. -/
def step (s : Scanner) (ch : Char) : Except Fault Scanner :=
  if ch == '%' && s.cursor.column == 0 then s.directive
  else if ch == '\'' then s.quotedScalar false
  else if ch == '"' then s.quotedScalar true
  else wellFormed (s.mark? ch)

/-- The state after the next token, and whether the document goes on after it. -/
def next (s : Scanner) : Except Fault (Scanner × Bool) :=
  (wellFormed (s.skipBlanks (s.cursor.rest.length + 1)).dropStale?).bind fun s =>
    let s := s.unwind s.cursor.column
    match s.cursor.rest with
    | [] => (wellFormed s.closeAll?).map (·, false)
    | ch :: _ => (s.step ch).map (·, true)

/-- The tokens that nothing ahead can change: those before what may turn out to be a key. -/
def settled (s : Scanner) : List Token :=
  s.tokens.take (s.pending.foldl (fun n k => min n k.position) s.tokens.length)

/-- All tokens up to the end of the document, or those before a fault; every token takes at least
one character. -/
def run (fuel : Nat) (s : Scanner) : List Token × Option Fault :=
  match fuel, s.dropStale? with
  | fuel + 1, some s =>
    match s.next with
    | .error e => (s.settled, some e)
    | .ok (s, true) => run fuel s
    | .ok (s, false) => (s.tokens, none)
  | _, _ => (s.settled, some .malformed)

end Scanner

/-- **The tokens of a document**, up to its first fault if it has one. A byte order mark at its start
is skipped. -/
def scan (text : String) : List Token × Option Fault :=
  if text.toList.all isAllowed then
    let start : Cursor := { rest := text.toList }
    let start := if start.nextIs (· == '\ufeff') then start.next else start
    Scanner.run (text.toList.length + 2) { cursor := start }
  else ([], some .malformed)

end KlarAudit.Yaml

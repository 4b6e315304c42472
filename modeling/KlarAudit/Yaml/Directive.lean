import KlarAudit.Text.Integer
import KlarAudit.Text.Utf8
import KlarAudit.Yaml.Quotation

/-!
# The directives before a document

A line that starts with a percent sign says something about the document after it: which version of
the format it is written in, or what a handle of tags stands for. Directives of other names say
nothing.

## Main definitions

* `Directive`: what a directive says
* `directive`: the directive at a place
* `Directive.accepts`: a directive may follow others
-/

namespace KlarAudit.Yaml

/-- **What a directive says.** -/
inductive Directive where
  /-- The version of the format, of which only the first part matters. -/
  | version (major : Nat)
  /-- A handle of tags has a meaning. -/
  | handle (name : String)
  /-- Nothing. -/
  | idle
deriving DecidableEq, Repr, Inhabited

/-- A digit of the Latin script. -/
def isDecimal (c : Char) : Bool :=
  '0' ≤ c && c ≤ '9'

/-- A character of a name. -/
def isNameChar (c : Char) : Bool :=
  c.isAlphanum || c == '-' || c == '_'

/-- The document ends at the place, or a blank or a line break follows. -/
def Cursor.atGap (c : Cursor) : Bool :=
  c.rest.head?.all fun ch => ch == ' ' || isBreak ch

/-- The blanks at a place are skipped. -/
def Cursor.skipBlanks (c : Cursor) : Cursor :=
  c.skipWhile (· == ' ')

/-- A part of a version. -/
def versionPart (c : Cursor) : Except Fault (Nat × Cursor) :=
  let (digits, c) := c.span isDecimal
  if digits.isEmpty then .error .malformed
  else if Text.maxDigits < digits.length then .error (.tooManyDigits digits.length)
  else .ok (digits.foldl (fun n d => 10 * n + (d.toNat - '0'.toNat)) 0, c)

/-- The version of the format: two numbers with a point between them. -/
def version (c : Cursor) : Except Fault (Directive × Cursor) :=
  (versionPart c.skipBlanks).bind fun (major, c) =>
    if c.nextIs (· == '.') then
      (versionPart c.next).bind fun (_, c) =>
        if c.atGap then .ok (.version major, c) else .error .malformed
    else .error .malformed

/-- The name of a handle of tags: an exclamation mark, or a name between two of them. -/
def handleName? (c : Cursor) : Option (List Char × Cursor) :=
  if c.nextIs (· == '!') then
    let (name, after) := c.next.span isNameChar
    if after.nextIs (· == '!') then some ('!' :: name ++ ['!'], after.next)
    else if name.isEmpty && after.nextIs (· == ' ') then some (['!'], after)
    else none
  else none

/-- The characters of a resource name that stand for themselves. -/
def isResourceChar (c : Char) : Bool :=
  c.isAlphanum || "-;/?:@&=+$,_.!~*'()[]".toList.contains c

/-- The bytes that percent signs with two digits of base sixteen each stand for, and what follows
them. -/
def resourceBytes? : List Char → Option (List UInt8 × List Char)
  | '%' :: a :: b :: cs =>
    match hexValue? a, hexValue? b with
    | some x, some y => (resourceBytes? cs).map fun (bytes, cs) => (.ofNat (16 * x + y) :: bytes, cs)
    | _, _ => none
  | '%' :: _ => none
  | cs => some ([], cs)

/-- The number of characters of the resource name that the characters start with. Bytes in a row
must make up a text. -/
def resourceLength? (fuel : Nat) (cs : List Char) : Option Nat :=
  match fuel with
  | 0 => none
  | fuel + 1 =>
    match cs with
    | '%' :: _ =>
      (resourceBytes? cs).bind fun (bytes, rest) =>
        if (Utf8.decode? bytes).isSome then
          (resourceLength? fuel rest).map (· + (cs.length - rest.length))
        else none
    | c :: rest => if isResourceChar c then (resourceLength? fuel rest).map (· + 1) else some 0
    | [] => some 0

/-- What a handle of tags stands for. -/
def handle? (c : Cursor) : Option (Directive × Cursor) :=
  (handleName? c.skipBlanks).bind fun (name, c) =>
    if c.nextIs (· == ' ') then
      let c := c.skipBlanks
      (resourceLength? (c.rest.length + 1) c.rest).bind fun n =>
        if n ≠ 0 && (c.skip n).atGap then some (.handle (String.ofList name), c.skip n) else none
    else none

/-- The place after the rest of a line, which may hold a comment only, and after its line break. -/
def restOfLine? (c : Cursor) : Option Cursor :=
  let c := c.skipBlanks
  let c := if c.nextIs (· == '#') then c.skipWhile (!isBreak ·) else c
  match c.rest, c.lineBreak? with
  | [], _ => some c
  | _, some (_, c) => some c
  | _, none => none

/-- **The directive at a place**, after its percent sign, and the place after its line. -/
def directive (c : Cursor) : Except Fault (Directive × Cursor) :=
  let (name, c) := c.span isNameChar
  if name.isEmpty || !c.atGap then .error .malformed
  else
    let said : Except Fault (Directive × Cursor) := match String.ofList name with
      | "YAML" => version c
      | "TAG" => wellFormed (handle? c)
      | _ => .ok (.idle, c.skipWhile (!isBreak ·))
    said.bind fun (d, c) => wellFormed ((restOfLine? c).map fun c => (d, c))

/-- **A directive may follow others**: the version is the first and is given once, and a handle has
one meaning. -/
def Directive.accepts (before : List Directive) : Directive → Bool
  | version major => major == 1 && before.all fun | version _ => false | _ => true
  | handle name => !before.contains (.handle name)
  | idle => true

end KlarAudit.Yaml

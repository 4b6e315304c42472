import KlarAudit.Yaml.Cursor
import KlarAudit.Yaml.Fault

/-!
# Scalars in quotes and without

The text of a scalar: in double quotes, with escapes; in single quotes, where a quote is written
twice; or plain. A line break within a scalar is folded: a single one becomes a blank, of several
ones the first is dropped. Escapes may give code points that are no characters, so a scalar in
quotes is read as code points.

## Main definitions

* `quotedCodes`: the code points of a scalar in quotes
* `plainText`: the text of a plain scalar
-/

namespace KlarAudit.Yaml

/-- The characters that a single letter after a backslash stands for. -/
def letterEscapes : List (Char × Char) :=
  [('0', '\x00'), ('a', '\x07'), ('b', '\x08'), ('t', '\t'), ('\t', '\t'), ('n', '\n'),
   ('v', '\x0b'), ('f', '\x0c'), ('r', '\r'), ('e', '\x1b'), (' ', ' '), ('"', '"'), ('\\', '\\'),
   ('/', '/'), ('N', '\u0085'), ('_', '\u00a0'), ('L', '\u2028'), ('P', '\u2029')]

/-- The letters after a backslash that announce a code point, with the number of its digits. -/
def codeEscapes : List (Char × Nat) :=
  [('x', 2), ('u', 4), ('U', 8)]

/-- The value of a digit of base sixteen. -/
def hexValue? (c : Char) : Option Nat :=
  if '0' ≤ c && c ≤ '9' then some (c.toNat - '0'.toNat)
  else if 'a' ≤ c && c ≤ 'f' then some (c.toNat - 'a'.toNat + 10)
  else if 'A' ≤ c && c ≤ 'F' then some (c.toNat - 'A'.toNat + 10)
  else none

/-- The number with the given digits in base sixteen. -/
def hexNumber? (digits : List Char) : Option Nat :=
  (digits.mapM hexValue?).map (·.foldl (fun n d => 16 * n + d) 0)

/-- The first number beyond all code points. -/
def codePointBound : Nat :=
  0x110000

/-- The code points of some characters. -/
def codePoints (cs : List Char) : List Nat :=
  cs.map (·.toNat)

/-- The line breaks ahead, with the blanks around them dropped, and the place after them; `none` at
a line that divides documents. -/
def foldBreaks? (fuel : Nat) (c : Cursor) : Option (List Char × Cursor) :=
  match fuel with
  | 0 => none
  | fuel + 1 =>
    if c.atDocumentMark then none
    else
      let c := c.skipWhile fun ch => ch == ' ' || ch == '\t'
      match c.lineBreak? with
      | none => some ([], c)
      | some (b, c) => (foldBreaks? fuel c).map fun (bs, c) => (b :: bs, c)

/-- What a line break and the line breaks after it are folded into. -/
def fold (first : Char) (others : List Char) : List Char :=
  if first != '\n' then first :: others else if others.isEmpty then [' '] else others

/-- The blanks within a scalar in quotes, line breaks folded; `none` at the end of the document. -/
def quotedBlanks? (c : Cursor) : Option (List Char × Cursor) :=
  let (blanks, c) := c.span fun ch => ch == ' ' || ch == '\t'
  match c.lineBreak? with
  | some (b, c) => (foldBreaks? (c.rest.length + 1) c).map fun (bs, c) => (fold b bs, c)
  | none => if c.rest.isEmpty then none else some (blanks, c)

/-- What an escape stands for, after its backslash. -/
def escape (c : Cursor) : Except Fault (List Nat × Cursor) :=
  match c.rest with
  | [] => .error .malformed
  | ch :: _ =>
    match letterEscapes.lookup ch, codeEscapes.lookup ch with
    | some d, _ => .ok ([d.toNat], c.next)
    | none, some n =>
      let digits := c.next.rest.take n
      match hexNumber? digits with
      | some value =>
        if digits.length ≠ n then .error .malformed
        else if value < codePointBound then .ok ([value], c.skip (n + 1))
        else .error (.noCodePoint value)
      | none => .error .malformed
    | none, none =>
      match c.lineBreak? with
      | some (_, c) => wellFormed <|
          (foldBreaks? (c.rest.length + 1) c).map fun (bs, c) => (codePoints bs, c)
      | none => .error .malformed

/-- **The code points of a scalar in quotes**, after its opening quote, and the place after its
closing quote. Only double quotes know escapes. -/
def quotedFrom (double : Bool) (fuel : Nat) (c : Cursor) : Except Fault (List Nat × Cursor) :=
  match fuel with
  | 0 => .error .malformed
  | fuel + 1 =>
    let more (piece : List Nat) (c : Cursor) : Except Fault (List Nat × Cursor) :=
      (quotedFrom double fuel c).map fun (codes, c) => (piece ++ codes, c)
    match c.rest with
    | [] => .error .malformed
    | ch :: cs =>
      if ch == '"' then if double then .ok ([], c.next) else more ['"'.toNat] c.next
      else if ch == '\'' then
        if double then more ['\''.toNat] c.next
        -- in single quotes a quote is written twice
        else if cs.head? == some '\'' then more ['\''.toNat] (c.skip 2)
        else .ok ([], c.next)
      else if ch == '\\' then
        if double then (escape c.next).bind fun (piece, c) => more piece c
        else more ['\\'.toNat] c.next
      else if isSpace ch then
        (wellFormed (quotedBlanks? c)).bind fun (blanks, c) => more (codePoints blanks) c
      else more [ch.toNat] c.next

/-- The code points of a scalar in quotes, after its opening quote. -/
def quotedCodes (double : Bool) (c : Cursor) : Except Fault (List Nat × Cursor) :=
  quotedFrom double (c.rest.length + 1) c

/-- The number of characters of a plain scalar before its first blank or its end: a colon before a
blank ends it and, in a flow collection, so do the marks of flow collections. -/
def plainRun (flow : Bool) : List Char → Nat
  | [] => 0
  | ch :: cs =>
    let colonEnds := cs.head?.all fun d => isSpace d || (flow && ",[]\x7b\x7d".toList.contains d)
    if isSpace ch || (ch == ':' && colonEnds) || (flow && ",?[]\x7b\x7d".toList.contains ch) then 0
    else plainRun flow cs + 1

/-- The blanks and line breaks after a line break in a plain scalar: the line breaks; `none` at a
line that divides documents. -/
def plainBreaks (fuel : Nat) (c : Cursor) : Option (List Char) × Cursor :=
  match fuel with
  | 0 => (some [], c)
  | fuel + 1 =>
    if c.nextIs (· == ' ') then plainBreaks fuel c.next
    else
      match c.lineBreak? with
      | none => (some [], c)
      | some (b, c) =>
        if c.atDocumentMark then (none, c)
        else
          let (bs, c) := plainBreaks fuel c
          (bs.map (b :: ·), c)

/-- The blanks after a part of a plain scalar, line breaks folded, the place after them, and whether
there was a line break; no blanks if the scalar ends there. -/
def plainBlanks (c : Cursor) : List Char × Cursor × Bool :=
  let (blanks, c) := c.span (· == ' ')
  match c.lineBreak? with
  | none => (blanks, c, false)
  | some (b, c) =>
    if c.atDocumentMark then ([], c, true)
    else
      match plainBreaks (c.rest.length + 1) c with
      | (some bs, c) => (fold b bs, c, true)
      | (none, c) => ([], c, true)

/-- **The text of a plain scalar**: the text after `blanks`, the place after it, and whether a line
break was read at its end. Outside flow collections its lines are indented by `indent` or more. -/
def plainFrom (flow : Bool) (indent : Int) (fuel : Nat) (blanks : List Char) (c : Cursor)
    (broken : Bool) : List Char × Cursor × Bool :=
  match fuel with
  | 0 => ([], c, broken)
  | fuel + 1 =>
    let n := plainRun flow c.rest
    if c.nextIs (· == '#') || n = 0 then ([], c, broken)
    else
      let run := blanks ++ c.rest.take n
      let (blanks, c, broken) := plainBlanks (c.skip n)
      if blanks.isEmpty || c.nextIs (· == '#') || (!flow && (c.column : Int) < indent) then
        (run, c, broken)
      else
        let (text, c, broken) := plainFrom flow indent fuel blanks c broken
        (run ++ text, c, broken)

/-- The text of the plain scalar at a place. -/
def plainText (flow : Bool) (indent : Int) (c : Cursor) : String × Cursor × Bool :=
  let (text, c, broken) := plainFrom flow indent (c.rest.length + 1) [] c false
  (String.ofList text, c, broken)

end KlarAudit.Yaml

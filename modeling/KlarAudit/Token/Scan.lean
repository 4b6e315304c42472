import KlarAudit.Text.Digit
import KlarAudit.Token.Basic

/-!
# Scanning text into tokens

Scanning is total: a character that starts no token of the language is a token of the category
`unknown`, and the grammar decides whether that matters. Blanks separate tokens and are dropped;
comments are kept, since documentation and the justification of unsafe blocks live there.

Each category has a function that counts the characters a token takes after its first one, so the
texts of the tokens and the blanks between them make up the input whatever these functions count.

## Main definitions

* `munch c cs`: category and length of the token that starts with `c` before `cs`
* `scanFrom p n cs`: the tokens of `cs` at position `p`, after skipping `n` characters
* `scan s`: the tokens of a text
* `scanAt s o`: the tokens of a text from an offset on
-/

namespace KlarAudit

namespace Munch

/-- The reserved words. -/
def keywords : List String :=
  ["as", "break", "const", "continue", "dyn", "else", "enum", "fn", "for", "if", "impl", "import",
   "in", "let", "loop", "match", "mod", "module", "mut", "pub", "return", "self", "Self", "static",
   "struct", "trait", "type", "unsafe", "use", "where", "while"]

/-- The operators of several characters, longer ones first. -/
def longOperators : List String :=
  ["...", "..=", "->", "=>", "::", "==", "!=", "<=", ">=", "&&", "||", "+=", "-=", "*=", "/=",
   "%=", ".."]

/-- The operators of one character. -/
def shortOperators : List Char :=
  "\x7b\x7d()[]<>,;:.&*+-/%=!?|^~#@".toList

/-- The characters up to the end of the line. -/
def restOfLine (cs : List Char) : List Char :=
  cs.takeWhile (· ≠ '\n')

/-- **The length of a block comment** after its opening mark. Block comments nest, and `depth`
counts the comments that enclose the innermost open one; an open comment extends to the end of the
text. -/
def blockLength (depth : Nat) : List Char → Nat
  | [] => 0
  | '/' :: '*' :: cs => blockLength (depth + 1) cs + 2
  | '*' :: '/' :: cs => match depth with
    | 0 => 2
    | depth + 1 => blockLength depth cs + 2
  | _ :: cs => blockLength depth cs + 1

/-- **The length of a string literal** after its opening quote, with its closing quote. A backslash
takes the next character with it; `none` when no closing quote follows. -/
def stringLength? : List Char → Option Nat
  | [] => none
  | '"' :: _ => some 1
  | ['\\'] => none
  | '\\' :: _ :: cs => (stringLength? cs).map (· + 2)
  | _ :: cs => (stringLength? cs).map (· + 1)

/-- **The length of a character literal** after its opening quote, with its closing quote: one
plain character, or a backslash and one to ten characters. Neither holds a quote or a line feed. -/
def charLength? : List Char → Option Nat
  | '\\' :: cs =>
    let body := cs.takeWhile fun c => c ≠ '\'' && c ≠ '\n'
    if 1 ≤ body.length && body.length ≤ 10 && (cs.drop body.length).head? == some '\'' then
      some (body.length + 2)
    else none
  | c :: '\'' :: _ => if c = '\'' || c = '\n' then none else some 2
  | _ => none

/-- A decimal digit of any script, or the digit separator. -/
def isDecimalBody (c : Char) : Bool :=
  Text.isDigit c || c == '_'

/-- A hexadecimal digit or the digit separator. -/
def isHexBody (c : Char) : Bool :=
  ('0' ≤ c && c ≤ '9') || ('a' ≤ c && c ≤ 'f') || ('A' ≤ c && c ≤ 'F') || c == '_'

/-- An octal digit or the digit separator. -/
def isOctalBody (c : Char) : Bool :=
  ('0' ≤ c && c ≤ '7') || c == '_'

/-- A binary digit or the digit separator. -/
def isBinaryBody (c : Char) : Bool :=
  c == '0' || c == '1' || c == '_'

/-- The number of leading characters that satisfy `p`. -/
def runLength (p : Char → Bool) (cs : List Char) : Nat :=
  (cs.takeWhile p).length

/-- The length of a number in the base that the letter after a leading zero names, without the
zero; none of its digits may be missing. -/
def basedLength? (c : Char) (cs : List Char) : Option Nat :=
  if c ≠ '0' then none else
    match cs with
    | [] => none
    | mark :: body =>
      let digits := if mark = 'x' || mark = 'X' then runLength isHexBody body
        else if mark = 'b' || mark = 'B' then runLength isBinaryBody body
        else if mark = 'o' || mark = 'O' then runLength isOctalBody body
        else 0
      if digits = 0 then none else some (digits + 1)

/-- The length of a fraction: a point, a digit and more digits; zero if there is none. -/
def fractionLength : List Char → Nat
  | '.' :: d :: cs => if Text.isDigit d then runLength isDecimalBody cs + 2 else 0
  | _ => 0

/-- The length of an exponent: its letter, a sign or none, and digits; zero if there is none. -/
def exponentLength : List Char → Nat
  | [] => 0
  | e :: cs =>
    if e = 'e' || e = 'E' then
      let sign := if cs.head? == some '+' || cs.head? == some '-' then 1 else 0
      let digits := runLength Text.isDigit (cs.drop sign)
      if digits = 0 then 0 else digits + sign + 1
    else 0

/-- The suffixes that give a number its type. -/
def numberSuffixes : List String :=
  ["i8", "i16", "i32", "i64", "i128", "isize", "u8", "u16", "u32", "u64", "u128", "usize", "f32",
   "f64"]

/-- The length of the type suffix of a number, zero if there is none. No suffix starts another. -/
def suffixLength (cs : List Char) : Nat :=
  match numberSuffixes.find? fun s => s.toList.isPrefixOf cs with
  | some s => s.length
  | none => 0

/-- The length of a number after its first digit. -/
def numberLength (c : Char) (cs : List Char) : Nat :=
  let digits := match basedLength? c cs with
    | some n => n
    | none =>
      let whole := runLength isDecimalBody cs
      let fraction := fractionLength (cs.drop whole)
      whole + fraction + exponentLength (cs.drop (whole + fraction))
  digits + suffixLength (cs.drop digits)

/-- A character that may start a word. -/
def isWordStart (c : Char) : Bool :=
  ('a' ≤ c && c ≤ 'z') || ('A' ≤ c && c ≤ 'Z') || c == '_'

/-- A character that may continue a word. -/
def isWordBody (c : Char) : Bool :=
  isWordStart c || ('0' ≤ c && c ≤ '9')

/-- The category of a word. -/
def wordKind (word : String) : TokenKind :=
  if keywords.contains word then .keyword
  else if word == "true" || word == "false" then .literal
  else .identifier

/-- The category of a comment: `docMark` opens documentation, `notDoc` looks like it but does
not. -/
def commentKind (docMark notDoc : String) (body : List Char) : TokenKind :=
  if docMark.toList.isPrefixOf body && !notDoc.toList.isPrefixOf body then .docComment
  else if startsWithSafety (body.drop 2) then .safetyComment
  else .comment

/-- The category of a line comment: three slashes open documentation, four do not. -/
def lineCommentKind (body : List Char) : TokenKind :=
  commentKind "///" "////" body

/-- The category of a block comment: two stars open documentation, unless they close it. -/
def blockCommentKind (body : List Char) : TokenKind :=
  commentKind "/**" "/**/" body

/-- The length of the operator that starts with `c`, less one; `none` if there is none. -/
def operatorLength? (c : Char) (cs : List Char) : Option Nat :=
  match longOperators.find? fun op => op.toList.isPrefixOf (c :: cs) with
  | some op => some (op.length - 1)
  | none => if shortOperators.contains c then some 0 else none

end Munch

open Munch in
/-- **One token**: the category of the token that starts with `c` before `cs`, and how many
characters of `cs` belong to it. -/
def munch (c : Char) (cs : List Char) : TokenKind × Nat :=
  if c = '/' && cs.head? == some '/' then
    let body := restOfLine cs
    (lineCommentKind (c :: body), body.length)
  else if c = '/' && cs.head? == some '*' then
    let n := blockLength 0 cs.tail + 1
    (blockCommentKind (c :: cs.take n), n)
  else if c = '"' then
    match stringLength? cs with
    | some n => (.literal, n)
    -- a string that nothing closes takes its line, a quote that opens no literal only itself
    | none => (.unknown, (restOfLine cs).length)
  else if c = '\'' then
    match charLength? cs with
    | some n => (.literal, n)
    | none => (.unknown, 0)
  else if Text.isDigit c then
    (.literal, numberLength c cs)
  else if isWordStart c then
    let n := runLength isWordBody cs
    (wordKind (String.ofList (c :: cs.take n)), n)
  else
    match operatorLength? c cs with
    | some n => (.operator, n)
    | none => (.unknown, 0)

/-- **Scanning**: the tokens of `cs`, whose first character stands at `p`; the first `n` characters
belong to a token already given. -/
def scanFrom (p : Position) (n : Nat) : List Char → List Token
  | [] => []
  | c :: cs =>
    match n with
    | n + 1 => scanFrom (p.advance c) n cs
    | 0 =>
      if Text.isBlank c then scanFrom (p.advance c) 0 cs
      else
        let (kind, n) := munch c cs
        ⟨kind, String.ofList (c :: cs.take n), p⟩ :: scanFrom (p.advance c) n cs

/-- The tokens of a text from an offset on. The offset should lie between tokens; nothing is found
beyond the end of the text. -/
def scanAt (s : String) (offset : Nat) : List Token :=
  scanFrom (Position.start.advanceAll (s.toList.take offset)) 0 (s.toList.drop offset)

/-- **The tokens of a text.** -/
def scan (s : String) : List Token :=
  scanFrom .start 0 s.toList

end KlarAudit

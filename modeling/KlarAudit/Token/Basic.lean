import KlarAudit.Source.Position
import KlarAudit.Source.Span
import KlarAudit.Text.Blank

/-!
# Tokens

A token is a stretch of source text with its lexical category and the position of its first
character. The end of a token, and the line on which it ends, follow from its text.

## Main definitions

* `TokenKind`: the lexical categories
* `Token`: a category, a text and a position
* `Token.stop`, `Token.endLine`, `Token.span`: where a token ends
* `Token.is t s`: `t` is the keyword or operator `s`
* `Token.isSafetyComment`: `t` is a comment that justifies an unsafe block
* `significant`: the tokens that are no comments

## Main results

* `isComment_of_is`: keywords and operators are no comments
* `significant_append_cons`: the grammar sees them where they stand
-/

namespace KlarAudit

/-- **Lexical categories.** -/
inductive TokenKind where
  /-- A name. -/
  | identifier
  /-- A reserved word. -/
  | keyword
  /-- A string, character, number or boolean. -/
  | literal
  /-- Punctuation. -/
  | operator
  /-- A comment of no other category. -/
  | comment
  /-- A comment that documents what follows it. -/
  | docComment
  /-- A comment that justifies an unsafe block. -/
  | safetyComment
  /-- Text that is no token of the language. -/
  | unknown
deriving DecidableEq, Repr, Inhabited

namespace TokenKind

/-- The name of a category. -/
def label : TokenKind → String
  | identifier => "identifier"
  | keyword => "keyword"
  | literal => "literal"
  | operator => "operator"
  | comment => "comment"
  | docComment => "doc-comment"
  | safetyComment => "safety-comment"
  | unknown => "unknown"

/-- The categories that the grammar does not see. -/
def isComment : TokenKind → Bool
  | comment | docComment | safetyComment => true
  | _ => false

/-- The categories of punctuation and reserved words, by which the grammar is driven. -/
def isStructural : TokenKind → Bool
  | keyword | operator => true
  | _ => false

/-- The categories written with letters or digits, which need a blank between them. -/
def isWordlike : TokenKind → Bool
  | identifier | keyword | literal => true
  | _ => false

end TokenKind

/-- **A token**: a stretch of text, its category and the position of its first character. -/
structure Token where
  /-- The lexical category. -/
  kind : TokenKind
  /-- The characters of the token. -/
  text : String
  /-- The position of the first character. -/
  pos : Position
deriving DecidableEq, Repr, Inhabited

/-- The text of a comment, after its opening mark, starts with `SAFETY:` but for blanks. -/
def startsWithSafety (body : List Char) : Bool :=
  "SAFETY:".toList.isPrefixOf (Text.dropBlanks body)

namespace Token

/-- The offset of the first character. -/
def start (t : Token) : Nat :=
  t.pos.offset

/-- The offset after the last character. -/
def stop (t : Token) : Nat :=
  t.start + t.text.length

/-- The line of the first character. -/
def line (t : Token) : Nat :=
  t.pos.line

/-- The column of the first character. -/
def column (t : Token) : Nat :=
  t.pos.column

/-- The line on which the token ends. -/
def endLine (t : Token) : Nat :=
  t.line + t.text.toList.count '\n'

/-- The offsets of the token. -/
def span (t : Token) : Span :=
  ⟨t.start, t.stop⟩

/-- The token is a comment, of any category. -/
def isComment (t : Token) : Bool :=
  t.kind.isComment

/-- **A justification**: a safety comment, or a documentation comment that starts as one. -/
def isSafetyComment (t : Token) : Bool :=
  match t.kind with
  | .safetyComment => true
  | .docComment => startsWithSafety (t.text.toList.drop 3)
  | _ => false

/-- The token is a string literal. -/
def isString (t : Token) : Bool :=
  t.kind == .literal && t.text.toList.head? == some '"'

/-- The token is the keyword or operator written `s`. -/
def is (t : Token) (s : String) : Bool :=
  t.text == s && t.kind.isStructural

/-- The token is the operator written `s`. -/
def isOperator (t : Token) (s : String) : Bool :=
  t.kind == .operator && t.text == s

/-- The token is one of the given reserved words. -/
def isKeywordIn (t : Token) (words : List String) : Bool :=
  t.kind == .keyword && words.contains t.text

end Token

/-- The tokens that the grammar sees: all but the comments. -/
def significant (ts : List Token) : List Token :=
  ts.filter (!·.isComment)

theorem significant_cons_of_comment {t : Token} (h : t.isComment) (ts : List Token) :
    significant (t :: ts) = significant ts :=
  List.filter_cons_of_neg (by simp [h])

theorem significant_cons {t : Token} (h : t.isComment = false) (ts : List Token) :
    significant (t :: ts) = t :: significant ts :=
  List.filter_cons_of_pos (by simp [h])

/-- Keywords and operators are no comments. -/
theorem isComment_of_is {t : Token} {s : String} (h : t.is s) : t.isComment = false := by
  simp only [Token.is, Bool.and_eq_true] at h
  cases hk : t.kind <;> simp_all [Token.isComment, TokenKind.isStructural, TokenKind.isComment]

theorem is_eq_false_of_isComment {t : Token} (h : t.isComment) (s : String) : t.is s = false := by
  rw [Bool.eq_false_iff]
  intro hs
  exact absurd ((isComment_of_is hs).symm.trans h) Bool.false_ne_true

theorem significant_append (ts us : List Token) :
    significant (ts ++ us) = significant ts ++ significant us :=
  List.filter_append ts us

/-- A keyword or an operator is seen, and so are the tokens around it. -/
theorem significant_append_cons {t : Token} {s : String} (h : t.is s) (ts us : List Token) :
    significant (ts ++ t :: us) = significant ts ++ t :: significant us := by
  rw [significant_append, significant_cons (isComment_of_is h)]

end KlarAudit

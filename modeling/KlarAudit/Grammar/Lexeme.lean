import KlarAudit.Grammar.Declaration
import KlarAudit.Token.Basic

/-!
# Lexemes

The grammar reads tokens without comments, but a documentation comment belongs to the declaration
below it. A lexeme is a significant token with the comments that stand between it and the
significant token before it.

## Main definitions

* `Lexeme`: a token and the comments before it
* `Lexeme.ofTokens`: the lexemes of a token sequence
* `Lexeme.doc?`: the documentation block that ends right above a lexeme

## Main results

* `map_token_ofTokens`: the tokens of the lexemes are the significant tokens
-/

namespace KlarAudit

/-- **A lexeme**: a significant token and the comments before it, in order. -/
structure Lexeme where
  /-- The comments since the last significant token. -/
  lead : List Token
  /-- The token that the grammar sees. -/
  token : Token
deriving DecidableEq, Repr, Inhabited

namespace Lexeme

/-- The lexemes of `ts`, after the comments `lead`, the nearest first. -/
def ofTokensAfter (lead : List Token) : List Token → List Lexeme
  | [] => []
  | t :: ts =>
    if t.isComment then ofTokensAfter (t :: lead) ts
    else ⟨lead.reverse, t⟩ :: ofTokensAfter [] ts

/-- The lexemes of a token sequence. Comments after the last significant token belong to none. -/
def ofTokens (ts : List Token) : List Lexeme :=
  ofTokensAfter [] ts

theorem map_token_ofTokensAfter (lead ts : List Token) :
    (ofTokensAfter lead ts).map token = significant ts := by
  induction ts generalizing lead with
  | nil => rfl
  | cons t ts ih =>
    cases h : t.isComment
    · rw [ofTokensAfter, if_neg (by simp [h]), List.map_cons, ih, significant_cons h]
    · rw [ofTokensAfter, if_pos h, ih, significant_cons_of_comment h]

/-- The tokens of the lexemes are the significant tokens. -/
@[simp] theorem map_token_ofTokens (ts : List Token) :
    (ofTokens ts).map token = significant ts :=
  map_token_ofTokensAfter [] ts

/-- The documentation comments that end on the line `below` or later, each on the line above the one
below it; nearest first. -/
def docRun (below : Nat) : List Token → List Token
  | [] => []
  | t :: ts =>
    if t.kind = .docComment ∧ below ≤ t.endLine then t :: docRun (t.line - 1) ts else []

/-- **The documentation above a lexeme**: the longest unbroken block of documentation comments that
ends on its line or on the line above. -/
def doc? (l : Lexeme) : Option DocComment :=
  match docRun (l.token.line - 1) l.lead.reverse with
  | [] => none
  | nearest :: rest =>
    let block := (nearest :: rest).reverse
    some
      { text := Text.joinWith "\n" (block.map (·.text))
        line := (block.headD nearest).line
        endLine := nearest.endLine }

end Lexeme

end KlarAudit

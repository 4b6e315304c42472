import KlarAudit.Text.Affix
import KlarAudit.Token.Basic

/-!
# Syntax errors

Why a declaration could not be read, where, and where reading went on. An error at the end of the
input is placed at the last token, which only the whole input knows, so a site is resolved when
reading is over.

## Main definitions

* `Cause`, `Cause.message`: why a declaration could not be read
* `Site`: the token that an error points at
* `SyntaxError`: a cause and its site
* `Issue`: an error and the token at which reading went on
* `ParseIssue`: an issue with its line and column
-/

namespace KlarAudit

/-- **Why a declaration could not be read.** -/
inductive Cause where
  /-- The input ends where a declaration should start. -/
  | noDeclaration
  /-- A keyword or operator is missing; something else, or nothing, stands there. -/
  | noSymbol (symbol : String) (found : Option String)
  /-- A name is missing; something else, or nothing, stands there. -/
  | noName (what : String) (found : Option String)
  /-- The token starts no declaration. -/
  | unexpected (found : String)
  /-- An attribute mark is not followed by a square bracket. -/
  | bareAttribute
  /-- A closing bracket does not close the innermost open one. -/
  | mismatched (found : String)
  /-- A bracket is still open at the end of the input. -/
  | unterminated
  /-- The input ends before any of the symbols that end a run of tokens. -/
  | noTerminator (symbols : List String)
  /-- A function has neither a body nor a semicolon. -/
  | noBody (function : String)
  /-- A parameter has no colon. -/
  | noColon (parameter : String)
  /-- A parameter has a colon but no name. -/
  | noParameterName
  /-- A field has no type. -/
  | noType (field : String)
  /-- Two fields have no comma between them. -/
  | noComma (field : String)
  /-- An implementation has no target. -/
  | noTarget
deriving DecidableEq, Repr, Inhabited

namespace Cause

/-- What stands in the place of something expected. -/
def instead : Option String → String
  | none => " but reached end of input"
  | some found => ", found '" ++ found ++ "'"

/-- **The wording of a cause.** -/
def message : Cause → String
  | noDeclaration => "expected a declaration"
  | noSymbol symbol found => "expected '" ++ symbol ++ "'" ++ instead found
  | noName what found => "expected " ++ what ++ instead found
  | unexpected found => "unexpected token '" ++ found ++ "'"
  | bareAttribute => "expected '[' after '#'"
  | mismatched found => "mismatched delimiter '" ++ found ++ "'"
  | unterminated => "unterminated block"
  | noTerminator symbols =>
    "expected " ++ Text.joinWith " or " (symbols.map fun s => "'" ++ s ++ "'")
  | noBody function => "expected body for function '" ++ function ++ "'"
  | noColon parameter => "expected ':' in parameter '" ++ parameter ++ "'"
  | noParameterName => "expected parameter name"
  | noType field => "missing type for field '" ++ field ++ "'"
  | noComma field => "expected ',' before field '" ++ field ++ "'"
  | noTarget => "expected type after 'impl'"

end Cause

/-- **The token that an error points at.** -/
inductive Site where
  /-- A token of the input. -/
  | token (t : Token)
  /-- The last significant token of the input. -/
  | lastSignificant
  /-- The last token of the input, which may be a comment. -/
  | last
deriving DecidableEq, Repr, Inhabited

/-- A syntax error: its cause and its site. -/
structure SyntaxError where
  /-- Why. -/
  cause : Cause
  /-- Where. -/
  site : Site
deriving DecidableEq, Repr, Inhabited

/-- An error at a token. -/
def SyntaxError.at (cause : Cause) (t : Token) : SyntaxError :=
  ⟨cause, .token t⟩

/-- An error at the end of the input. -/
def SyntaxError.atEnd (cause : Cause) : SyntaxError :=
  ⟨cause, .lastSignificant⟩

/-- **A recovered error**: the error, and the token at which reading went on; `none` when the rest
of the input was skipped. -/
structure Issue where
  /-- The error. -/
  error : SyntaxError
  /-- Where reading went on. -/
  resync : Option Token
deriving DecidableEq, Repr, Inhabited

/-- An issue with its place in the text. -/
structure ParseIssue where
  /-- Why. -/
  cause : Cause
  /-- The line of the error. -/
  line : Nat
  /-- The column of the error. -/
  column : Nat
  /-- The line at which reading went on. -/
  resyncLine : Option Nat
deriving DecidableEq, Repr, Inhabited

/-- The position of a site in the tokens `ts`; a site in no token is the start of the text. -/
def Site.position (ts : List Token) : Site → Position
  | token t => t.pos
  | lastSignificant => ((significant ts).getLast?.map (·.pos)).getD .start
  | last => (ts.getLast?.map (·.pos)).getD .start

/-- The issue with its place among the tokens `ts`. -/
def Issue.locate (ts : List Token) (i : Issue) : ParseIssue :=
  let pos := i.error.site.position ts
  ⟨i.error.cause, pos.line, pos.column, i.resync.map (·.line)⟩

end KlarAudit

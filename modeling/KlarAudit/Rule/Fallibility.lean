import KlarAudit.Naming.Convention
import KlarAudit.Rule.Basic
import KlarAudit.Text.Bracketed

/-!
# Rules on fallible functions

A function that may fail says how in a structured type, and nobody drops its result.

## Main definitions

* `resultType?`: the parameters of a result type
* `isFallible`: a function gives a result that may be an error
* `unstructuredErrorRule`: error types are not plain text
* `discards`: the statements of a body that drop a value
* `discardedErrorRule`: results of fallible calls are not dropped
-/

namespace KlarAudit

/-- **The parameters of a result type**: its opening bracket, and the texts between its commas. -/
def resultType? (type : Option String) : Option (Char × List String) :=
  type.bind fun t => (Text.applied? "Result" t).map fun a =>
    (a.bracket, Text.splitArguments a.arguments)

/-- The function gives a result that may be an error. -/
def isFallible (sig : Signature) : Bool :=
  (resultType? sig.returnType).isSome

/-- The types of plain text. -/
def rawTextTypes : List String :=
  ["string", "String", "str", "&str", "&string", "[]u8", "[]const u8"]

/-- The remark on a function whose error type is plain text. -/
def unstructuredErrorRemark? (d : Declaration) (sig : Signature) : Option Remark :=
  match resultType? sig.returnType with
  | some (bracket, [value, error]) =>
    if rawTextTypes.contains error then
      let name := Convention.pascal.respell d.name ++ "Error"
      let close := if bracket = '[' then "]" else ">"
      some <| .at d.pos
        ("function '" ++ d.name ++ "' returns '" ++ sig.returnType.getD "" ++
          "'; error type '" ++ error ++ "' is not structured, use a dedicated error enum")
        (some ("Result" ++ bracket.toString ++ value ++ ", " ++ name ++ close))
    else none
  | _ => none

/-- **Error types are not plain text.** -/
def unstructuredErrorRule : Rule where
  id := "errors.unstructured-error"
  family := "errors"
  severity := .medium
  description := "Fallible functions use structured error types, not raw text."
  check s := .all (s.functions.filterMap fun (e, sig) => unstructuredErrorRemark? e.decl sig)

/-- The tokens of a statement, up to its semicolon or the bracket that ends its block; `depth`
brackets are open. -/
def statementFrom (depth : Nat) : List Token → List Token
  | [] => []
  | t :: ts =>
    if t.opens?.isSome then t :: statementFrom (depth + 1) ts
    else if t.closes?.isSome then
      match depth with
      | 0 => []
      | depth + 1 => t :: statementFrom depth ts
    else if t.isOperator ";" && depth == 0 then []
    else t :: statementFrom depth ts

/-- A name for nothing starts a statement here and something is assigned to it; the result is what
is assigned. -/
def discard? (c : Context) : Option (Token × List Token) :=
  let startsStatement := c.before.head?.all fun p => [";", "\x7b", "\x7d", "let"].contains p.text
  match c.after with
  | eq :: rest =>
    if c.token.kind == .identifier && c.token.text == "_" && eq.is "=" && startsStatement then
      match statementFrom 0 rest with
      | [] => none
      | value => some (c.token, value)
    else none
  | [] => none

/-- **The statements that drop a value**: the name for nothing, and the tokens of the value. -/
def discards (body : List Token) : List (Token × List Token) :=
  (Context.all body).filterMap discard?

/-- The name that is called first in a run of tokens. -/
def callee? : List Token → Option Token
  | t :: p :: ts => if p.is "(" && t.kind == .identifier then some t else callee? (p :: ts)
  | _ => none

/-- The words that show that a failure is dealt with. -/
def handlingWords : List String :=
  ["?", "try", "catch", "match"]

/-- The text from the first of the tokens to the last. Without any tokens there is no answer. -/
def sourceText (s : Subject) (ts : List Token) : Except CheckFailure String :=
  match ts.head?, ts.getLast? with
  | some a, some b => .ok (String.ofList ((s.stream.text.toList.take b.stop).drop a.start))
  | _, _ => .error (.outOfRange "list")

/-- The remark on a statement, if it drops the result of one of the fallible functions. -/
def discardedErrorRemarks (s : Subject) (fallible : List String) (name : Token)
    (value : List Token) : Emission Remark :=
  match callee? value with
  | some callee =>
    if fallible.contains callee.text && !value.any (handlingWords.contains ·.text) then
      .after (sourceText s value) fun text =>
        .all [.at name.pos ("result of fallible call '" ++ callee.text ++ "' is silently discarded")
          (some (text ++ "?;"))]
    else .all []
  | none => .all []

/-- The names of the fallible functions of a file. -/
def Subject.fallible (s : Subject) : List String :=
  s.functions.filterMap fun (e, sig) => if isFallible sig then some e.decl.name else none

/-- **Results of fallible calls are not dropped.** -/
def discardedErrorRule : Rule where
  id := "errors.discarded-error"
  family := "errors"
  severity := .high
  description := "Results of fallible calls are never bound to a discard pattern."
  security := true
  check s :=
    let fallible := s.fallible
    .each (fun (_, sig) =>
      .each (fun (name, value) => discardedErrorRemarks s fallible name value)
        (discards (bodyTokens s.stream sig))) s.functions

end KlarAudit

import KlarAudit.Rule.Basic

/-!
# Rules on unsafe code

Unsafe blocks carry a justification, and unchecked indexing follows a bounds check.

## Main definitions

* `safetyCommentRule`: unsafe blocks are justified
* `boundsEstablished`: the tokens before a call show that a bound was checked
* `uncheckedIndexRule`: unchecked indexing follows a bounds check
-/

namespace KlarAudit

/-- **Unsafe blocks are justified.** -/
def safetyCommentRule : Rule where
  id := "unsafe.missing-safety-comment"
  family := "unsafe"
  severity := .critical
  description := "Every unsafe block is preceded by a SAFETY comment."
  security := true
  check s := .all <| (s.arena.regions.filter (!·.justified)).map fun r =>
    .at r.pos "unsafe block has no '// SAFETY:' comment justifying it"
      (some "// SAFETY: <explain why this block upholds memory safety>")

/-- The operators that compare. -/
def comparisons : List String :=
  ["<", "<=", ">", ">="]

/-- The token is an operator that compares. -/
def Token.isComparison (t : Token) : Bool :=
  t.kind == .operator && comparisons.contains t.text

/-- The token asserts something about the name: it is the name of an assertion, and the name is
among its arguments. -/
def assertsAbout (name : String) (c : Context) : Bool :=
  let after := if c.after.head?.any (·.is "!") then c.after.tail else c.after
  c.token.kind == .identifier && Text.startsWithAny ["assert", "debug_assert"] c.token.text &&
    match after with
    | p :: rest => p.is "(" && (argumentTokens rest).any (·.text == name)
    | [] => false

/-- The token is the name, next to an operator that compares. -/
def comparesWith (name : String) (c : Context) : Bool :=
  c.token.text == name && c.token.kind == .identifier &&
    (c.before.head?.any (·.isComparison) || c.after.head?.any (·.isComparison))

/-- **Evidence of a bounds check** on the name: an assertion about it, or a comparison with it. -/
def boundsEstablished (before : List Token) (name : String) : Bool :=
  (Context.all before).any fun c => assertsAbout name c || comparesWith name c

/-- The remark on a call that does not check its index, unless the bound is established before
it. -/
def uncheckedIndexRemark? (c : Context) : Option Remark :=
  match c.after with
  | p :: rest =>
    if c.token.kind == .identifier && Text.endsWith "_unchecked" c.token.text && p.is "(" then
      match (argumentTokens rest).find? (·.kind == .identifier) with
      | none => none
      | some index =>
        if boundsEstablished c.before.reverse index.text then none
        else
          some <| .at c.token.pos
            ("'" ++ c.token.text ++ "(" ++ index.text ++
              ")' is called without a preceding bounds check on '" ++ index.text ++ "'")
            (some ("assert(" ++ index.text ++ " < len);"))
    else none
  | [] => none

/-- **Unchecked indexing follows a bounds check.** -/
def uncheckedIndexRule : Rule where
  id := "unsafe.unchecked-index"
  family := "unsafe"
  severity := .high
  description := "Unchecked indexing is preceded by a bounds check."
  security := true
  check s := .all (s.functions.flatMap fun (_, sig) =>
    (Context.all (bodyTokens s.stream sig)).filterMap uncheckedIndexRemark?)

end KlarAudit

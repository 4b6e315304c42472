import KlarAudit.Naming.Convention
import KlarAudit.Rule.Basic

/-!
# Rules on identifiers

Names follow the convention of what they name, and the names of truth values say so.

## Main definitions

* `letBindings`: the simple bindings in a function body
* `namedThings`: everything in a file that has a name, with the convention for it
* `caseRule`: names follow their conventions
* `boolPrefixRule`: names of truth values start with a word such as `is`
-/

namespace KlarAudit

/-- The first words of the names of truth values. -/
def boolStarts : List String :=
  ["is_", "has_", "can_", "should_", "was_", "will_"]

/-- The tokens after a name show that it is bound to a truth value: its type is `bool`, or its value
is a literal and nothing else. -/
def bindsBool (after : List Token) : Bool :=
  match after with
  | a :: b :: rest =>
    (a.is ":" && b.text == "bool") ||
      (a.is "=" && (b.text == "true" || b.text == "false") && rest.head?.all (·.is ";"))
  | _ => false

/-- The binding that a `let` before the given tokens makes, if it is a simple one. -/
def letBinding? (after : List Token) : Option (Token × Bool) :=
  let after := if after.head?.any (·.is "mut") then after.tail else after
  match after with
  | [] => none
  | name :: rest => if name.kind = .identifier then some (name, bindsBool rest) else none

/-- **The simple bindings** of a function body: the name, and whether it is bound to a truth
value. -/
def letBindings (body : List Token) : List (Token × Bool) :=
  (Context.all body).filterMap fun c => if c.token.is "let" then letBinding? c.after else none

/-- **A named thing**: what it is, its name, the place of the name and the convention for it. -/
structure NamedThing where
  /-- What it is. -/
  what : String
  /-- Its name. -/
  name : String
  /-- The place of the name. -/
  pos : Position
  /-- The convention for the name. -/
  convention : Convention
deriving DecidableEq, Repr

/-- The named things of a declaration: itself, and what it holds that is no declaration. A method of
a trait has its name from the trait, and a field without a name has none. -/
def namedThingsOf (s : Subject) (e : Entry) : Emission NamedThing :=
  let d := e.decl
  let itself (what : String) (c : Convention) : NamedThing := ⟨what, d.name, d.pos, c⟩
  match d.shape with
  | .module => .all [itself "module" .snake]
  | .struct _ fields =>
    .all <| itself "struct" .pascal ::
      -- fields without names are numbered
      (fields.filter (!·.name.toList.all Char.isDigit)).map fun f =>
        ⟨"field", f.name, f.pos, .snake⟩
  | .enum _ variants =>
    .all <| itself "enum" .pascal ::
      variants.map fun v => ⟨"enum variant", v.name, v.pos, .pascal⟩
  | .trait _ => .all [itself "trait" .pascal]
  | .impl .. => .all []
  | .const _ isStatic => .all [itself (if isStatic then "static" else "constant") .upperSnake]
  | .function sig =>
    .after (s.isTraitMethod e) fun isTraitMethod =>
      .all <| (if isTraitMethod then [] else [itself "function" .snake]) ++
        sig.params.map (fun p => ⟨"parameter", p.name, p.pos, .snake⟩) ++
        (letBindings (bodyTokens s.stream sig)).map fun (t, _) =>
          ⟨"variable", t.text, t.pos, .snake⟩

/-- **Everything in a file that has a name**, in the order of the declarations. -/
def namedThings (s : Subject) : Emission NamedThing :=
  .each (namedThingsOf s) s.arena.entries

/-- The remark on a name that does not follow its convention. A name of underscores alone has
nothing to follow. -/
def caseRemark? (n : NamedThing) : Option Remark :=
  if (Naming.stripUnderscores n.name).isEmpty || n.convention.accepts n.name then none
  else
    let expected := n.convention.respell n.name
    some <| .at n.pos
      (n.what ++ " '" ++ n.name ++ "' should be " ++ n.convention.label ++ " (found " ++
        (CaseClass.ofName n.name).label ++ "); rename to '" ++ expected ++ "'")
      (some expected)

/-- **Names follow the convention of what they name.** -/
def caseRule : Rule where
  id := "naming.case"
  family := "naming"
  severity := .medium
  description := "Identifiers follow the case convention of their declaration kind."
  check s := (namedThings s).filterMap caseRemark?

/-- The name proposed for a truth value. -/
def boolName (name : String) : String :=
  "is_" ++ String.ofList ((Convention.snake.respell name).toList.dropWhile (· == '_'))

/-- The remark on the name of a truth value, unless it starts as it should. -/
def boolRemark? (what name : String) (pos : Position) : Option Remark :=
  if Text.startsWithAny boolStarts name then none
  else
    some <| .at pos
      ("boolean " ++ what ++ " '" ++ name ++ "' should start with one of " ++
        Text.joinWith ", " boolStarts)
      (some (boolName name))

/-- The remarks on a function that gives a truth value and on the truth values that it binds. -/
def boolRemarks (s : Subject) (e : Entry) (sig : Signature) : Emission Remark :=
  let onFunction : Emission Remark :=
    if sig.returnType == some "bool" then
      .after (s.isTraitMethod e) fun isTraitMethod =>
        .all (if isTraitMethod then []
          else (boolRemark? "function" e.decl.name e.decl.pos).toList)
    else .all []
  onFunction.andThen <| .all <| (letBindings (bodyTokens s.stream sig)).filterMap
    fun (t, isBool) => if isBool then boolRemark? "variable" t.text t.pos else none

/-- **Names of truth values say so.** -/
def boolPrefixRule : Rule where
  id := "naming.bool-prefix"
  family := "naming"
  severity := .medium
  description := "Boolean functions and variables start with is_/has_/can_/..."
  check s := .each (fun (e, sig) => boolRemarks s e sig) s.functions

end KlarAudit

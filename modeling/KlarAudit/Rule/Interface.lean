import KlarAudit.Naming.Convention
import KlarAudit.Rule.Basic
import KlarAudit.Text.Affix

/-!
# Rules on interfaces

Functions take few parameters, and the methods of a large trait belong together.

## Main definitions

* `parameterCountRule`: functions take few parameters
* `traitCohesionRule`: the methods of a large trait share a word
-/

namespace KlarAudit

/-- The most parameters that a function may take. -/
def maxParameters : Nat := 4

/-- The most methods that a trait may have without a word in common. -/
def maxTraitMethods : Nat := 3

/-- The remark on a function with many parameters. -/
def parameterCountRemark? (d : Declaration) (sig : Signature) : Option Remark :=
  if sig.params.length ≤ maxParameters then none
  else
    let config := Convention.pascal.respell d.name ++ "Config"
    some <| .at d.pos
      ("function '" ++ d.name ++ "' takes " ++ toString sig.params.length ++
        " parameters (more than " ++ toString maxParameters ++
        "); group them into a configuration struct '" ++ config ++ "'")
      (some <| Text.joinWith "\n" <|
        ["struct " ++ config ++ " \x7b"] ++
          sig.params.map (fun p => "    " ++ p.name ++ ": " ++ p.type ++ ",") ++ ["\x7d"])

/-- **Functions take few parameters.** -/
def parameterCountRule : Rule where
  id := "api.parameter-count"
  family := "api"
  severity := .suggestion
  description := "Functions take at most " ++ toString maxParameters ++ " parameters."
  check s := .all (s.functions.filterMap fun (e, sig) => parameterCountRemark? e.decl sig)

/-- The words of a name in small letters. -/
def plainWords (name : String) : List String :=
  (Naming.words name).map Naming.lower

/-- The names have a word in common. Without any names there is no answer. -/
def shareWord : List String → Except CheckFailure Bool
  | [] => .error .noSets
  | name :: names => .ok ((plainWords name).any fun w => names.all (plainWords · |>.contains w))

/-- The names of the methods of a trait. -/
def Subject.methodNames (s : Subject) (e : Entry) : Except CheckFailure (List String) :=
  e.members.mapM fun index => (s.arena.entryAt index).map (·.decl.name)

/-- The remark on a trait whose methods have no word in common. -/
def unrelatedMethods (d : Declaration) (names : List String) : Remark :=
  let verbs := Text.sortedSet (names.filterMap (plainWords · |>.head?))
  .at d.pos
    ("trait '" ++ d.name ++ "' has " ++ toString names.length ++
      " methods with unrelated verbs (" ++ Text.joinWith ", " verbs ++
      "); consider splitting it into smaller traits")

/-- The remark on a trait, if it has many methods without a word in common. -/
def traitCohesionRemarks (s : Subject) (e : Entry) : Emission Remark :=
  match e.decl.shape with
  | .trait _ =>
    if e.members.length ≤ maxTraitMethods then .all []
    else
      .after (s.methodNames e) fun names =>
        .after (shareWord names) fun related =>
          .all (if related then [] else [unrelatedMethods e.decl names])
  | _ => .all []

/-- **The methods of a large trait share a word.** -/
def traitCohesionRule : Rule where
  id := "api.trait-cohesion"
  family := "api"
  severity := .suggestion
  description := "Large traits share a common verb or domain word."
  check s := .each (traitCohesionRemarks s) s.arena.entries

end KlarAudit

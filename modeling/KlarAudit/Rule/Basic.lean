import KlarAudit.Arena.Parse
import KlarAudit.Report.Finding
import KlarAudit.Rule.Emission
import KlarAudit.Token.Context
import KlarAudit.Token.Stream

/-!
# Rules

A rule looks at one file and makes remarks on it. Rules do not know of each other, and a rule that
fails is reported in place of its remarks, so that it cannot spoil the others.

## Main definitions

* `Subject`: what a rule may look at
* `Remark`: what a rule says, and where
* `Rule`: a check with its identifier and severity
* `Rule.run`: the findings of a rule
* `bodyTokens`, `argumentTokens`: the tokens of a function body and of a call
-/

namespace KlarAudit

/-- **What a rule looks at**: a file, its tokens and what it declares. -/
structure Subject where
  /-- The file, as the report shows it. -/
  path : String
  /-- The text and the tokens. -/
  stream : TokenStream
  /-- The declarations and the unsafe blocks. -/
  arena : Arena

/-- **A remark** of a rule on a place in the text. -/
structure Remark where
  /-- The line. -/
  line : Int
  /-- The column. -/
  column : Int
  /-- What the problem is. -/
  message : String
  /-- What to write instead. -/
  fix : Option String := none
  /-- The severity, where it differs from that of the rule. -/
  severity : Option Severity := none
deriving DecidableEq, Repr, Inhabited

/-- A remark on a position. -/
def Remark.at (p : Position) (message : String) (fix : Option String := none)
    (severity : Option Severity := none) : Remark :=
  ⟨p.line, p.column, message, fix, severity⟩

/-- **A rule.** -/
structure Rule where
  /-- The identifier, by which settings and findings name the rule. -/
  id : String
  /-- The group of rules it belongs to. -/
  family : String
  /-- The severity of its findings. -/
  severity : Severity
  /-- What the rule asks for. -/
  description : String
  /-- The rule guards against a danger, not only against bad style. -/
  security : Bool := false
  /-- The remarks on a file. -/
  check : Subject → Emission Remark

/-- The finding for a remark of the rule on the file `path`. -/
def Rule.finding (r : Rule) (path : String) (m : Remark) : Finding :=
  { rule := r.id
    severity := m.severity.getD r.severity
    file := path
    line := m.line
    column := m.column
    message := m.message
    fix := m.fix }

/-- The finding for a check that failed on the file `path`. -/
def Rule.failure (r : Rule) (path : String) (f : CheckFailure) : Finding :=
  { rule := r.id
    severity := .medium
    file := path
    line := 1
    column := 1
    message := "rule execution error: " ++ f.kind ++ ": " ++ f.message }

/-- **The findings of a rule**: one for each remark, or a single one if the check fails, whatever it
has emitted before. -/
def Rule.run (r : Rule) (s : Subject) : List Finding :=
  match (r.check s).failure with
  | none => (r.check s).values.map (r.finding s.path)
  | some f => [r.failure s.path f]

/-- Every finding of a rule names the rule. -/
theorem Rule.rule_of_mem_run {r : Rule} {s : Subject} {f : Finding} (h : f ∈ r.run s) :
    f.rule = r.id := by
  unfold Rule.run at h
  split at h
  · obtain ⟨m, _, rfl⟩ := List.mem_map.mp h; rfl
  · rcases List.mem_singleton.mp h with rfl; rfl

/-- Every finding of a rule names the file. -/
theorem Rule.file_of_mem_run {r : Rule} {s : Subject} {f : Finding} (h : f ∈ r.run s) :
    f.file = s.path := by
  unfold Rule.run at h
  split at h
  · obtain ⟨m, _, rfl⟩ := List.mem_map.mp h; rfl
  · rcases List.mem_singleton.mp h with rfl; rfl

/-! ## Tokens that checks look at -/

/-- **The significant tokens of a function body**, without its braces. -/
def bodyTokens (ts : TokenStream) (s : Signature) : List Token :=
  match s.body with
  | none => []
  | some span => ((significant (ts.within span)).drop 1).dropLast

/-- The tokens up to the bracket that closes the outermost of `depth` open ones; any closing bracket
closes any opening one. -/
def argumentTokensFrom (depth : Nat) : List Token → List Token
  | [] => []
  | t :: ts =>
    if t.opens?.isSome then t :: argumentTokensFrom (depth + 1) ts
    else if t.closes?.isSome then
      if depth ≤ 1 then [] else t :: argumentTokensFrom (depth - 1) ts
    else t :: argumentTokensFrom depth ts

/-- **The argument tokens of a call**: those after its opening bracket, up to the bracket that
closes it, or all of them if there is none. -/
def argumentTokens (ts : List Token) : List Token :=
  argumentTokensFrom 1 ts

/-- The signatures of the functions of a file, with their declarations and parents. -/
def Subject.functions (s : Subject) : List (Entry × Signature) :=
  s.arena.entries.filterMap fun e => e.decl.signature?.map (e, ·)

/-- The entry that a link leads to. -/
def Arena.entryAt (a : Arena) (index : Nat) : Except CheckFailure Entry :=
  match a.entries[index]? with
  | some e => .ok e
  | none => .error (.outOfRange "tuple")

/-- The declaration is an implementation of a trait. -/
def Declaration.implementsTrait (d : Declaration) : Bool :=
  match d.shape with
  | .impl _ _ trait? => trait?.isSome
  | _ => false

/-- The function implements a method of a trait, so its name is not its own. -/
def Subject.isTraitMethod (s : Subject) (e : Entry) : Except CheckFailure Bool :=
  match e.parent with
  | none => .ok false
  | some parent => (s.arena.entryAt parent).map (·.decl.implementsTrait)

end KlarAudit

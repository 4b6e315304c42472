import KlarAudit.Rule.Catalogue
import KlarAudit.Settings.Error

/-!
# Rule sets

Which rules run, how severe a finding must be to fail a run, and which files are audited. A rule set
is read from a mapping of plain values; whatever does not fit is an error of its own.

## Main definitions

* `RuleSelector`: which rules run by default
* `RuleSet`, `RuleSet.enabledRules`: a rule set, and the rules it enables
* `RuleSet.ofMapping`: the rule set of a mapping
* `RuleSet.ofValue`: the rule set of a document
-/

namespace KlarAudit

/-- **Which rules run by default.** -/
inductive RuleSelector where
  /-- All rules. -/
  | full
  /-- The rules that guard against a danger. -/
  | security
deriving DecidableEq, Repr, Inhabited

namespace RuleSelector

/-- The name of a selector. -/
def label : RuleSelector → String
  | full => "full"
  | security => "security"

/-- The selector of the given name; one of them has a second name. -/
def ofLabel? (s : String) : Option RuleSelector :=
  if s == "security-only" then some .security else [full, security].find? (·.label == s)

end RuleSelector

/-- The file extensions that are audited by default. -/
def defaultExtensions : List String :=
  [".kl"]

/-- **A rule set.** -/
structure RuleSet where
  /-- Which rules run by default. -/
  selector : RuleSelector := .full
  /-- Rules switched on or off by name; the last word on a rule counts. -/
  toggles : List (String × Bool) := []
  /-- The least severity that fails a run. -/
  threshold : Severity := .high
  /-- Patterns of the files to leave out. -/
  exclude : List String := []
  /-- The extensions of the files to audit. -/
  extensions : List String := defaultExtensions
deriving DecidableEq, Repr, Inhabited

namespace RuleSet

/-- The last word of the toggles on a rule. -/
def toggle? (s : RuleSet) (id : String) : Option Bool :=
  (s.toggles.reverse.find? (·.1 == id)).map (·.2)

/-- **The rule is enabled**: by a toggle or, failing that, by the selector. -/
def enables (s : RuleSet) (r : Rule) : Bool :=
  (s.toggle? r.id).getD (s.selector == .full || r.security)

/-- The rules that are enabled, in order. -/
def enabledRules (s : RuleSet) (rules : List Rule) : List Rule :=
  rules.filter s.enables

end RuleSet

namespace RuleSet

/-- The selector that a value names. -/
def selectorOf : Option Value → Except SetupError RuleSelector
  | none => .ok .full
  | some v =>
    match RuleSelector.ofLabel? v.display with
    | some s => .ok s
    | none => .error (.about v (.unknownSelector v))

/-- The threshold that a value names. -/
def thresholdOf : Option Value → Except SetupError Severity
  | none => .ok .high
  | some v =>
    match Severity.ofLabel? v.display with
    | some s => .ok s
    | none => .error (.about v (.unknownThreshold v))

/-- The toggle of an entry: a rule by its identifier, and a truth value. -/
def toggleOf (key value : Value) : Except SetupError (String × Bool) :=
  match key with
  | .text id =>
    if (builtinRule? id).isSome then
      match value with
      | .bool b => .ok (id, b)
      | _ => .error (.configuration (.toggleNotBool key))
    else .error (.configuration (.unknownRule key))
  | _ => .error (.about key (.unknownRule key))

/-- The toggles of the entries, in order. -/
def toggleEntries : List (Value × Value) → Except SetupError (List (String × Bool))
  | [] => .ok []
  | (k, v) :: entries =>
    match toggleOf k v with
    | .error e => .error e
    | .ok t => (toggleEntries entries).map (t :: ·)

/-- The toggles that a value lists, in the order of the rules' identifiers. -/
def togglesOf : Option Value → Except SetupError (List (String × Bool))
  | none => .ok []
  | some (.mapping entries) =>
    (toggleEntries entries).map (·.mergeSort fun a b => (compare a.1 b.1).isLE)
  | some _ => .error (.configuration .togglesNotMapping)

/-- The texts that a value lists; a single text is a list of one. -/
def textsOf (key : String) (default : List String) :
    Option Value → Except SetupError (List String)
  | none => .ok default
  | some (.text s) => .ok [s]
  | some (.ragged codes) => .ok [(Value.ragged codes).display]
  | some (.list xs) =>
    if Value.areWritable xs then .ok (xs.map (·.display)) else .error (.breakdown .unwritable)
  | some _ => .error (.configuration (.notTexts key))

/-- The extension with its point. -/
def withPoint (extension : String) : String :=
  if Text.startsWith "." extension then extension else "." ++ extension

/-- **The rule set of a mapping.** What it does not mention is as in the default rule set; keys that
mean nothing are ignored. -/
def ofMapping (entries : List (Value × Value)) : Except SetupError RuleSet := do
  let selector ← selectorOf (Value.get? "rule_set" entries)
  let threshold ← thresholdOf (Value.get? "severity_min" entries)
  let toggles ← togglesOf (Value.get? "rules" entries)
  let exclude ← textsOf "exclude" [] (Value.get? "exclude" entries)
  let extensions ← textsOf "extensions" defaultExtensions (Value.get? "extensions" entries)
  return { selector, toggles, threshold, exclude, extensions := extensions.map withPoint }

/-- **The rule set of a document.** An empty document is the default rule set. -/
def ofValue : Value → Except SetupError RuleSet
  | .null => .ok {}
  | .mapping entries => ofMapping entries
  | _ => .error (.configuration .notMapping)

end RuleSet

end KlarAudit

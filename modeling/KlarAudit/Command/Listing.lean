import KlarAudit.Command.Option
import KlarAudit.Command.Outcome
import KlarAudit.Report.Render
import KlarAudit.Settings.RuleSet

/-!
# The command that lists the rules

## Main definitions

* `ruleTable`: the table of the rules
* `listWith`: the command
-/

namespace KlarAudit

/-- **The options of the listing.** -/
inductive ListingOption where
  /-- The selector. -/
  | rules
  /-- Help is wanted. -/
  | help
deriving DecidableEq, Repr

/-- The options of the listing as they are written. -/
def listingOptions : List (OptionSpec ListingOption) :=
  [{ key := .rules, long := "--rules" }, { key := .help, long := "--help", takesValue := false }]

/-- The row of a rule. -/
def RuleSet.row (s : RuleSet) (r : Rule) : List String :=
  [r.id, r.family, Markup.styled r.severity.style r.severity.label,
   if r.security then "yes" else "",
   if s.enables r then Markup.styled "green" "yes" else Markup.styled "dim" "no", r.description]

/-- **The table of the rules**, with what the rule set says about them. -/
def ruleTable (s : RuleSet) : Print :=
  .table (some ("Rules (" ++ s.selector.label ++ ")"))
    ["Rule", "Family", "Severity", "Security", "Enabled", "Description"]
    (builtinRules.map s.row)

/-- The message for operands that mean nothing. -/
def surplusMessage (operands : List String) : String :=
  (if operands.length = 1 then "Got unexpected extra argument (" else
    "Got unexpected extra arguments (") ++ Text.joinWith " " operands ++ ")"

/-- The listing, when its options have been read. -/
def listWith (s : RuleSet) (fs : FileSystem) (selector? : Option String)
    (operands : List String) : Outcome :=
  match selector?.map RuleSelector.ofLabel? with
  | some none => .refusal fs .badValue
  | selector =>
    if operands.isEmpty then
      let s := { s with selector := (selector.bind id).getD s.selector }
      { prints := [(.output, ruleTable s)], files := fs, ending := .exit 0 }
    else .refusal fs (.other (surplusMessage operands))

end KlarAudit

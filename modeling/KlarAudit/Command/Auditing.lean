import KlarAudit.Audit.Run
import KlarAudit.Command.Option
import KlarAudit.Command.Outcome
import KlarAudit.Report.Render
import KlarAudit.Text.Divided
import KlarAudit.Text.Integer

/-!
# The command that audits files

## Main definitions

* `AuditRequest`, `AuditRequest.ofOptions?`: what is asked for
* `RuleSet.override`: a rule set with what the command line says
* `AuditRequest.perform`: the command
-/

namespace KlarAudit

/-- **The options of an audit.** -/
inductive AuditOption where
  /-- The selector. -/
  | rules
  /-- The form of the report. -/
  | format
  /-- The threshold. -/
  | threshold
  /-- Patterns of files to leave out. -/
  | exclude
  /-- The number of files that are audited at a time. -/
  | jobs
  /-- The file for the report. -/
  | output
  /-- Help is wanted. -/
  | help
deriving DecidableEq, Repr

/-- The options of an audit as they are written. -/
def auditOptions : List (OptionSpec AuditOption) :=
  [{ key := .rules, long := "--rules" },
   { key := .format, long := "--format" },
   { key := .threshold, long := "--severity-min" },
   { key := .exclude, long := "--exclude", letter := some 'e' },
   { key := .jobs, long := "--jobs", letter := some 'j' },
   { key := .output, long := "--output", letter := some 'o' },
   { key := .help, long := "--help", takesValue := false }]

/-- **The form of a report.** -/
inductive ReportForm where
  /-- For people. -/
  | printed
  /-- For programs. -/
  | structured
deriving DecidableEq, Repr, Inhabited

/-- The form of the given name. -/
def ReportForm.ofLabel? : String → Option ReportForm
  | "text" => some .printed
  | "json" => some .structured
  | _ => none

/-- **What an audit is asked for.** -/
structure AuditRequest where
  /-- The selector, if the command line gives one. -/
  selector : Option RuleSelector := none
  /-- The form of the report. -/
  form : ReportForm := .printed
  /-- The threshold, if the command line gives one. -/
  threshold : Option Severity := none
  /-- More patterns of files to leave out. -/
  exclude : List String := []
  /-- The file for the report. -/
  output : Option String := none
  /-- The paths to audit. -/
  paths : List String
deriving DecidableEq, Repr, Inhabited

/-- The reading of an optional value: `none` if it is there and does not fit. -/
def readValue? {α : Type} (read? : String → Option α) : Option String → Option (Option α)
  | none => some none
  | some text => (read? text).map some

/-- The patterns in the values of an option: what stands between commas, trimmed, unless it is
empty. -/
def patternsOf (values : List String) : List String :=
  (values.flatMap fun v => (Text.divide ',' v).map Text.trim).filter (· != "")

/-- A number of files that may be audited at a time. -/
def jobs? (text : String) : Option Int :=
  (Text.integer? text).filter fun n => decide (1 ≤ n)

/-- **The request that options and operands make**, `none` if a value does not fit. A report does
not go into a directory. -/
def AuditRequest.ofOptions? (fs : FileSystem) (options : List (AuditOption × Option String))
    (paths : List String) : Option AuditRequest := do
  let selector ← readValue? RuleSelector.ofLabel? (lastValue .rules options)
  let form ← readValue? ReportForm.ofLabel? (lastValue .format options)
  let threshold ← readValue? Severity.ofLabel? (lastValue .threshold options)
  let _ ← readValue? jobs? (lastValue .jobs options)
  let output ← readValue? (fun path => some path |>.filter (!fs.isDirectory ·))
    (lastValue .output options)
  return { selector, form := form.getD .printed, threshold
           exclude := patternsOf (valuesOf .exclude options), output, paths }

/-- **A rule set with what the command line says**: its selector and threshold replace those of the
rule set, and its patterns come after. -/
def RuleSet.override (s : RuleSet) (r : AuditRequest) : RuleSet :=
  { s with
    selector := r.selector.getD s.selector
    threshold := r.threshold.getD s.threshold
    exclude := s.exclude ++ r.exclude }

namespace AuditRequest

/-- The line that says what is audited; it is printed before a report for people on the standard
output. -/
def announcement (escape : String → String) (r : AuditRequest) (s : RuleSet) :
    List (Channel × Print) :=
  if r.form = .printed ∧ r.output = none then
    [(.error, .line (Markup.styled "bold" "klarlint" ++ " reviewing " ++
      Markup.styled "cyan" (escape (Text.joinWith ", " r.paths)) ++ " with rule set " ++
      Markup.styled "cyan" s.selector.label ++ "\n"))]
  else []

/-- The line that says that the audit was interrupted. -/
def interruption : Channel × Print :=
  (.error, .line ("\n" ++ Markup.styled "red" "Interrupted; no report produced."))

/-- The width of the lines of a report in a file. -/
def fileWidth : Nat :=
  120

/-- **The report is given out**, in the form and at the place asked for. -/
def publish (escape : String → String) (r : AuditRequest) (fs : FileSystem) (report : Report)
    (ending : Ending) : Outcome :=
  match r.output with
  | none =>
    match r.form with
    | .structured => { text := report.renderJson, files := fs, ending }
    | .printed => { prints := (report.printsBy escape).map (.output, ·), files := fs, ending }
  | some path =>
    let (text, prints) := match r.form with
      | .structured => (report.renderJson, [])
      | .printed => ("", (report.printsBy escape).map (.file path fileWidth, ·))
    match fs.write path (Utf8.encode text) with
    | .ok files => { prints, files, ending }
    | .error e => .refusal fs (.other ("Cannot write report to " ++ path ++ ": " ++ e.reason))

/-- The exit code for a report: whether findings reach the threshold. -/
def ending (s : RuleSet) (report : Report) : Ending :=
  .exit (if (report.atLeast s.threshold).isEmpty then 0 else 1)

/-- **The audit.** If it is `interrupted` and there is any file to audit, no report is given out.
What is printed is escaped by `escape`. -/
def perform (escape : String → String) (r : AuditRequest) (base : RuleSet) (fs : FileSystem)
    (interrupted : Bool) : Outcome :=
  let s := base.override r
  let head := r.announcement escape s
  match auditAll s builtinRules fs r.paths with
  | .error (.tooLong path) => { Outcome.broken fs (.longPath path) with prints := head }
  | .error e => { Outcome.refusal fs (.other e.message) with prints := head }
  | .ok results =>
    if interrupted && !results.isEmpty then
      { prints := head ++ [interruption], files := fs, ending := .exit 130 }
    else
      let report := reportOn results
      let o := r.publish escape fs report (ending s report)
      { o with prints := head ++ o.prints }

end AuditRequest

end KlarAudit

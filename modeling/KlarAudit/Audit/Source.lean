import KlarAudit.Report.Basic
import KlarAudit.Rule.Basic

/-!
# Auditing one file

The text of a file is scanned and parsed, and the rules are run on what was found. What could not be
read as a program is reported beside the findings of the rules.

## Main definitions

* `Subject.ofText`: what the rules look at in a text
* `auditText`: the result for a text
* `unreadable`: the result for a file that cannot be read
-/

namespace KlarAudit

/-- Where reading went on after an issue, in words. -/
def ParseIssue.resyncText (i : ParseIssue) : String :=
  match i.resyncLine with
  | none => "skipped to end of file"
  | some line => "resynchronized at line " ++ toString line

/-- The finding for an issue in the file `path`. -/
def ParseIssue.finding (path : String) (i : ParseIssue) : Finding :=
  { rule := parseErrorRule
    severity := .high
    file := path
    line := i.line
    column := i.column
    message := i.cause.message ++ "; " ++ i.resyncText }

/-- The findings of all rules, rule by rule. -/
def runRules (rules : List Rule) (s : Subject) : List Finding :=
  rules.flatMap (·.run s)

/-- What the rules look at in a text. -/
def Subject.ofText (path text : String) : Subject :=
  let stream := TokenStream.ofText text
  ⟨path, stream, (parse stream.tokens).arena⟩

/-- **The result for a text**: first the issues, then the findings of the rules. -/
def auditText (path text : String) (rules : List Rule) : FileResult :=
  let stream := TokenStream.ofText text
  let parsed := parse stream.tokens
  let (publicCount, documentedCount) := parsed.arena.docCounts
  { path
    findings := parsed.issues.map (·.finding path) ++ runRules rules ⟨path, stream, parsed.arena⟩
    status := if parsed.ok then .analyzed else .partially
    detail := Text.joinWith "; " (parsed.issues.map (·.resyncText))
    publicCount
    documentedCount }

/-- The findings for a text, part by part. -/
theorem findings_auditText (path text : String) (rules : List Rule) :
    (auditText path text rules).findings =
      (parse (TokenStream.ofText text).tokens).issues.map (·.finding path) ++
        runRules rules (Subject.ofText path text) :=
  rfl

/-- The result for a file that cannot be read, for the given reason. -/
def unreadable (path reason : String) : FileResult :=
  { path
    findings :=
      [{ rule := ioErrorRule
         severity := .high
         file := path
         line := 1
         column := 1
         message := "cannot read file: " ++ reason }]
    status := .skipped
    detail := reason }

end KlarAudit

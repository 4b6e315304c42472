import KlarAudit.Format.Json
import KlarAudit.Format.Markup
import KlarAudit.Report.Basic
import KlarAudit.Text.Affix

/-!
# The two forms of a report

A report is written as a structured document for programs, or printed, grouped by file, for people.
What is printed carries styles, so texts that are to be shown as they are have to be escaped; how is
a parameter.

## Main definitions

* `Report.toJson`, `Report.renderJson`: the structured form
* `Report.printsBy`, `Report.prints`: the printed form
-/

namespace KlarAudit

/-- The structured form of a finding; a fix is left out when there is none. -/
def Finding.toJson (f : Finding) : Json :=
  .object <|
    [("rule", .string f.rule), ("severity", .string f.severity.label), ("file", .string f.file),
     ("line", .int f.line), ("column", .int f.column), ("message", .string f.message)] ++
      f.fix.toList.map (("suggested_fix", .string ·))

/-- The style of a severity. -/
def Severity.style : Severity → String
  | critical => "bold red"
  | high => "red"
  | medium => "yellow"
  | low => "blue"
  | suggestion => "dim"

/-- The style of a verdict. -/
def ReportStatus.style : ReportStatus → String
  | pass => "green"
  | passWithWarnings => "yellow"
  | fail => "red"

namespace Report

/-- **The structured form of a report.** -/
def toJson (r : Report) : Json :=
  .object
    [("findings", .array (r.findings.map (·.toJson))),
     ("summary", .object <|
       Severity.all.map (fun s => (s.label, .int (r.count s))) ++
         [("doc_coverage_ratio", .number r.coverage.render), ("status", .string r.status.label)]),
     ("rules", .object (r.ruleCounts.map fun (rule, n) => (rule, .int n))),
     ("files", .array (r.files.map fun f =>
       .object [("path", .string f.path), ("status", .string f.status.label),
         ("detail", .string f.detail)]))]

/-- The structured form as text, with a line feed at its end. -/
def renderJson (r : Report) : String :=
  r.toJson.render ++ "\n"

/-- The row of a finding: its place, severity, rule and message, and its fix on a line of its
own. -/
def row (escape : String → String) (f : Finding) : List String :=
  let fix := match f.fix with
    | some fix => "\n" ++ Markup.styled "dim" ("fix: " ++ escape fix)
    | none => ""
  [toString f.line ++ ":" ++ toString f.column, Markup.styled f.severity.style f.severity.label,
   f.rule, escape f.message ++ fix]

/-- What is printed for a file: a heading and, if there are findings, a table of them. -/
def filePrints (escape : String → String) (r : Report) (file : FileResult) : List Print :=
  let findings := r.findingsOn file.path
  let heading := Markup.styled "bold cyan" (escape file.path) ++ " " ++
    Markup.styled "dim" (escape file.describe ++ ", " ++ toString findings.length ++ " finding(s)")
  if findings.isEmpty then [.line heading]
  else
    [.line heading,
     .table none ["Location", "Severity", "Rule", "Message"] (findings.map (row escape)), .line ""]

/-- The lines that sum the report up. -/
def summaryPrints (r : Report) : List Print :=
  let counts := Severity.all.map fun s => toString (r.count s) ++ " " ++ s.label
  [.line ("Analyzed " ++ toString r.files.length ++ " file(s): " ++ Text.joinWith ", " counts),
   .line ("Documentation coverage: " ++ r.coverage.percent),
   .line ("Status: " ++ Markup.styled r.status.style r.status.label)]

/-- **The printed form of a report**, grouped by file. -/
def printsBy (escape : String → String) (r : Report) : List Print :=
  r.files.flatMap (r.filePrints escape) ++ r.summaryPrints

/-- The printed form of a report, for a terminal. -/
def prints (r : Report) : List Print :=
  r.printsBy Markup.escape

end Report

end KlarAudit

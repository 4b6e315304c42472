import KlarAudit.Decimal.Layout
import KlarAudit.Report.Finding
import KlarAudit.Text.Affix

/-!
# Reports

The results for single files are merged into one report. This is the only place that settles an
order, so the report does not depend on the order in which files were audited or rules were run.

## Main definitions

* `FileStatus`, `FileResult`: what came of one file
* `coverageRatio?`: how much of the public declarations is documented
* `ReportStatus`: the verdict on all files
* `Report`, `Report.ofFiles?`: the merged report
-/

namespace KlarAudit

/-- **How much of a file was audited.** -/
inductive FileStatus where
  /-- All of it. -/
  | analyzed
  /-- All but what could not be read as a program. -/
  | partially
  /-- Nothing. -/
  | skipped
deriving DecidableEq, Repr, Inhabited

namespace FileStatus

/-- The name of a status. -/
def label : FileStatus → String
  | analyzed => "analyzed"
  | partially => "partial"
  | skipped => "skipped"

/-- The status of the given name. -/
def ofLabel? (s : String) : Option FileStatus :=
  [analyzed, partially, skipped].find? (·.label == s)

end FileStatus

/-- **What came of one file.** -/
structure FileResult where
  /-- The file, as the report shows it. -/
  path : String
  /-- The findings, in the order in which they were made. -/
  findings : List Finding := []
  /-- How much was audited. -/
  status : FileStatus := .analyzed
  /-- Why not more was audited. -/
  detail : String := ""
  /-- The number of public declarations. -/
  publicCount : Int := 0
  /-- The number of public declarations that are documented. -/
  documentedCount : Int := 0
deriving DecidableEq, Repr, Inhabited

/-- How much of the file was audited, in words. -/
def FileResult.describe (r : FileResult) : String :=
  match r.status with
  | .analyzed => "fully analyzed"
  | .partially => "partially analyzed (" ++ r.detail ++ ")"
  | .skipped => "skipped: " ++ r.detail

/-- **The verdict on all files.** -/
inductive ReportStatus where
  /-- Nothing worse than suggestions. -/
  | pass
  /-- Nothing worse than medium findings. -/
  | passWithWarnings
  /-- At least one high or critical finding. -/
  | fail
deriving DecidableEq, Repr, Inhabited

namespace ReportStatus

/-- The name of a verdict. -/
def label : ReportStatus → String
  | pass => "pass"
  | passWithWarnings => "pass-with-warnings"
  | fail => "fail"

/-- **The verdict on the findings.** -/
def ofFindings (fs : List Finding) : ReportStatus :=
  if fs.any fun f => decide (f.severity.AtLeast .high) then .fail
  else if fs.any fun f => decide (f.severity.AtLeast .low) then .passWithWarnings
  else .pass

end ReportStatus

/-- **Documentation coverage**: the documented part of the public declarations, all of them if there
are none; `none` if the ratio is too large to be written. -/
def coverageRatio? (documented public' : Int) : Option Binary64 :=
  if public' = 0 then some .one else Binary64.div? documented public'

/-- **A report.** -/
structure Report where
  /-- The findings, in order. -/
  findings : List Finding := []
  /-- The files, in order. -/
  files : List FileResult := []
  /-- Documentation coverage over all files. -/
  coverage : Binary64 := .one
  /-- The verdict. -/
  status : ReportStatus := .pass
deriving DecidableEq, Repr, Inhabited

namespace Report

/-- The number of findings of a severity. -/
def count (r : Report) (s : Severity) : Nat :=
  r.findings.countP (·.severity == s)

/-- The rules that made findings, in order, each with the number of its findings. -/
def ruleCounts (r : Report) : List (String × Nat) :=
  (Text.sortedSet (r.findings.map (·.rule))).map fun rule =>
    (rule, r.findings.countP (·.rule == rule))

/-- The findings that are at least as severe as the threshold. -/
def atLeast (r : Report) (threshold : Severity) : List Finding :=
  r.findings.filter fun f => decide (f.severity.AtLeast threshold)

/-- The findings on the file of the given path. -/
def findingsOn (r : Report) (path : String) : List Finding :=
  r.findings.filter (·.file == path)

/-- The files in the order of their paths. -/
def sortFiles (files : List FileResult) : List FileResult :=
  files.mergeSort fun a b => (compare a.path b.path).isLE

/-- **The report on some files**: files in the order of their paths, findings in their order; `none`
if documentation coverage is too large to be written. -/
def ofFiles? (results : List FileResult) : Option Report :=
  let files := sortFiles results
  let findings := (files.flatMap (·.findings)).mergeSort Finding.le
  let sum (f : FileResult → Int) : Int := (files.map f).foldl (· + ·) 0
  (coverageRatio? (sum (·.documentedCount)) (sum (·.publicCount))).map fun coverage =>
    { findings, files, coverage, status := .ofFindings findings }

end Report

end KlarAudit

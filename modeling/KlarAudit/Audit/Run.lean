import KlarAudit.Audit.Selection
import KlarAudit.Audit.Source
import KlarAudit.Text.Utf8

/-!
# Auditing a directory tree

## Main definitions

* `auditFile`: the result for a file
* `auditAll`: the results for all files that some paths stand for
* `reportOn`: the report on some results
-/

namespace KlarAudit

/-- **The result for a file**, which is called `display` in it. A file that cannot be read is
reported as such; its bytes are read leniently. -/
def auditFile (fs : FileSystem) (rules : List Rule) (path display : String) : FileResult :=
  match fs.read path with
  | .error e => unreadable display e.reason
  | .ok bytes => auditText display (Utf8.decodeLossy bytes) rules

/-- **The results for all files that some paths stand for**, with the rules that are enabled. -/
def auditAll (s : RuleSet) (rules : List Rule) (fs : FileSystem) (paths : List String) :
    Except PathError (List FileResult) :=
  (discover s fs paths).map fun files =>
    files.map fun file => auditFile fs (s.enabledRules rules) file file

/-- The report on results of audits. Their documentation coverage is at most one, so it can always
be written. -/
def reportOn (results : List FileResult) : Report :=
  (Report.ofFiles? results).getD {}

end KlarAudit

import KlarAudit.Settings.RuleSet
import KlarAudit.Text.Utf8
import KlarAudit.Yaml.Load

/-!
# Reading rule sets

What the text of a configuration means is settled by a reader of documents, which is a parameter
here; rule sets are read with the reader of this library.

## Main definitions

* `DocumentReader`: a reader of documents
* `RuleSet.ofTextBy`, `RuleSet.ofText`: the rule set of a text
* `RuleSet.loadBy`, `RuleSet.load`: the rule set of a file
-/

namespace KlarAudit

/-- **A reader of documents**: the value of a text, or why it has none. -/
abbrev DocumentReader :=
  String → Except Yaml.Fault Value

namespace RuleSet

/-- **The rule set of a text**: of the document that the text holds. -/
def ofTextBy (read : DocumentReader) (text : String) : Except SetupError RuleSet :=
  match read text with
  | .error f => .error (.ofFault f)
  | .ok v => ofValue v

/-- **The rule set of a file**, whose bytes are read strictly. -/
def loadBy (read : DocumentReader) (fs : FileSystem) (path : String) :
    Except SetupError RuleSet :=
  match fs.read (Path.ofText path).render with
  | .error e => .error (.configuration (.unreadable path e))
  | .ok bytes =>
    match Utf8.decode? bytes with
    | none => .error (.breakdown .undecodable)
    | some text => ofTextBy read (String.ofList (Utf8.unifyBreaks text.toList))

/-- The rule set of a text, which holds a document of this library. -/
def ofText : String → Except SetupError RuleSet :=
  ofTextBy Yaml.load

/-- The rule set of a file, which holds a document of this library. -/
def load : FileSystem → String → Except SetupError RuleSet :=
  loadBy Yaml.load

end RuleSet

end KlarAudit

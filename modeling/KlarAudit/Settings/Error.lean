import KlarAudit.File.Tree
import KlarAudit.Settings.Value
import KlarAudit.Yaml.Fault

/-!
# What may be wrong with settings

A wrong configuration is told to the user. A few things go wrong in another way: they break the run
off.

## Main definitions

* `ConfigError`, `ConfigError.message`: what may be wrong with a configuration
* `Breakdown`, `Breakdown.message`: what breaks a run off
* `SetupError`: either of them
-/

namespace KlarAudit

/-- **What may be wrong with a configuration.** -/
inductive ConfigError where
  /-- The file cannot be read. -/
  | unreadable (path : String) (e : FileError)
  /-- The text is not a document. -/
  | malformed
  /-- The document is not a mapping. -/
  | notMapping
  /-- The selector is unknown. -/
  | unknownSelector (v : Value)
  /-- The threshold is unknown. -/
  | unknownThreshold (v : Value)
  /-- The toggles are not a mapping. -/
  | togglesNotMapping
  /-- A toggle names no rule. -/
  | unknownRule (key : Value)
  /-- A toggle is no truth value. -/
  | toggleNotBool (key : Value)
  /-- A list of texts is neither a text nor a list. -/
  | notTexts (key : String)
  /-- The number of workers is no number. -/
  | workersNotNumber (text : String)
deriving Repr, Inhabited

/-- **The wording of a configuration error.** -/
def ConfigError.message : ConfigError → String
  | unreadable path e => "Cannot read rule configuration " ++ path ++ ": [Errno " ++
      toString e.code ++ "] " ++ e.reason ++ ": " ++ Text.quoted (Path.ofText path).render
  | malformed => "Invalid rule configuration YAML"
  | notMapping => "Rule configuration YAML must be a mapping"
  | unknownSelector v => "Unknown rule_set: " ++ v.literal
  | unknownThreshold v => "Unknown severity_min: " ++ v.literal
  | togglesNotMapping => "'rules' must map rule ids to true/false"
  | unknownRule key => "Unknown rule id in configuration: " ++ key.literal
  | toggleNotBool key => "Rule toggle for " ++ key.literal ++ " must be true or false"
  | notTexts key => "'" ++ key ++ "' must be a list of strings"
  | workersNotNumber text => "KLARLINT_WORKERS must be an integer, got " ++ Text.quoted text

/-- **What breaks a run off.** -/
inductive Breakdown where
  /-- The bytes of a rule configuration are no text. -/
  | undecodable
  /-- A document has a fault, but it is not malformed. -/
  | document (f : Yaml.Fault)
  /-- A number in a message or among texts has too many digits to be written. -/
  | unwritable
  /-- The user has no directory. -/
  | noHome
  /-- A path, or a name in it, is too long. -/
  | longPath (path : String)
deriving DecidableEq, Repr, Inhabited

/-- The wording of a breakdown. -/
def Breakdown.message : Breakdown → String
  | undecodable => "The rule configuration is not a text."
  | document f => f.message
  | unwritable => "A number is too long to be written."
  | noHome => "Could not determine home directory."
  | longPath path => FileError.nameTooLong.reason ++ ": " ++ Text.quoted path

/-- **What keeps a run from being set up.** -/
inductive SetupError where
  /-- The configuration is wrong. -/
  | configuration (e : ConfigError)
  /-- The run breaks off. -/
  | breakdown (b : Breakdown)
deriving Repr, Inhabited

namespace SetupError

/-- The error for a fault of a document. -/
def ofFault : Yaml.Fault → SetupError
  | .malformed => .configuration .malformed
  | f => .breakdown (.document f)

/-- The error `e`, in the message of which the value stands. -/
def about (v : Value) (e : ConfigError) : SetupError :=
  if v.isWritable then .configuration e else .breakdown .unwritable

end SetupError

end KlarAudit

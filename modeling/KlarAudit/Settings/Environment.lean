import KlarAudit.Settings.RuleSet
import KlarAudit.Text.Integer

/-!
# Settings of the environment

Variables say how many files are audited at a time and where the rule configuration is; without a
variable, a file in the working directory and one among the user's settings are tried.

## Main definitions

* `Environment`, `Environment.get?`: variables by name
* `Settings`: what the environment says
* `Settings.load`: the settings in a directory
-/

namespace KlarAudit

/-- **Variables by name**; the last value of a name counts. -/
structure Environment where
  /-- The names with their values, in order. -/
  bindings : List (String × String) := []
  /-- The directory that the system has on record for the user, which counts without a variable. -/
  accountHome : Option String := none
deriving DecidableEq, Repr, Inhabited

namespace Environment

/-- The value of a variable, empty or not. -/
def value? (env : Environment) (name : String) : Option String :=
  (env.bindings.reverse.find? (·.1 == name)).map (·.2)

/-- The value of a variable; an empty one counts as none. -/
def get? (env : Environment) (name : String) : Option String :=
  (env.value? name).filter (· != "")

/-- The directory of the given name; a name that starts with a tilde stands for no directory. -/
def directoryOf? (name : String) : Option Path :=
  let text := (name.toList.reverse.dropWhile (· == '/')).reverse
  if text.head? == some '~' then none
  else some (Path.ofText (if text.isEmpty then "/" else String.ofList text))

/-- The user's own directory: that of a variable, or else the one on record. -/
def home? (env : Environment) : Option Path :=
  (env.value? "HOME" <|> env.accountHome).bind directoryOf?

/-- The directory of the user's settings. -/
def settingsDirectory? (env : Environment) : Option Path :=
  match env.get? "XDG_CONFIG_HOME" with
  | some path => some ((Path.ofText path).join ⟨0, ["klarlint"]⟩)
  | none => env.home?.map (·.join ⟨0, [".config", "klarlint"]⟩)

end Environment

/-- **What the environment says.** -/
structure Settings where
  /-- The directory of the user's settings. -/
  directory : Path
  /-- The file of the rule configuration. -/
  rulesFile : Option Path := none
  /-- The number of files that are audited at a time. -/
  workers : Option Int := none
  /-- Progress is reported. -/
  verbose : Bool := false
deriving DecidableEq, Repr, Inhabited

namespace Settings

/-- The number of workers that a variable gives. -/
def workersOf : Option String → Except SetupError (Option Int)
  | none => .ok none
  | some text =>
    match Text.integer? text with
    | some n => .ok (some n)
    | none => .error (.configuration (.workersNotNumber text))

/-- The first of the paths that leads to a file. A path that is too long is an error. -/
def firstFile (fs : FileSystem) : List Path → Except SetupError (Option Path)
  | [] => .ok none
  | path :: paths =>
    match fs.stat path.render with
    | .ok (_, .file _) => .ok (some path)
    | .error .nameTooLong => .error (.breakdown (.longPath path.render))
    | _ => firstFile fs paths

/-- The file of the rule configuration. The variable for it is taken as it is; the other places count
only if there is a file. -/
def rulesFileOf (env : Environment) (fs : FileSystem) (directory user : Path) :
    Except SetupError (Option Path) :=
  match env.get? "KLARLINT_CONFIG" with
  | some path => .ok (some (Path.ofText path))
  | none => firstFile fs [directory.join ⟨0, [".klarlint.yaml"]⟩, user.join ⟨0, ["config.yaml"]⟩]

/-- **The settings in a directory.** -/
def load (env : Environment) (fs : FileSystem) (directory : Path) :
    Except SetupError Settings := do
  match env.settingsDirectory? with
  | none => .error (.breakdown .noHome)
  | some user =>
    let workers ← workersOf (env.get? "KLARLINT_WORKERS")
    let rulesFile ← rulesFileOf env fs directory user
    return { directory := user, rulesFile, workers }

end Settings

end KlarAudit

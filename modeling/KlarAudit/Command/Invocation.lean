import KlarAudit.Command.Auditing
import KlarAudit.Command.Listing
import KlarAudit.Settings.Environment
import KlarAudit.Settings.Load

/-!
# The command line

Options for all commands come first, then the name of a command with its own options and operands.

## Main definitions

* `World`: what a command can see
* `readGlobal`: the options for all commands
* `RuleSet.inForce`, `Outcome.ofSetup`: the rule set in force, and what a run comes to with it
* `invoke`: what a command line comes to
-/

namespace KlarAudit

/-- **What a command can see.** -/
structure World where
  /-- The files. -/
  files : FileSystem
  /-- The variables. -/
  environment : Environment := {}
  /-- Every audit of a file is interrupted. -/
  interrupted : Bool := false
deriving Repr, Inhabited

/-- **The options for all commands.** -/
inductive GlobalOption where
  /-- The file of the rule configuration. -/
  | config
  /-- Progress is reported. -/
  | verbose
  /-- The version is wanted. -/
  | version
  /-- Help is wanted. -/
  | help
deriving DecidableEq, Repr

/-- The options for all commands as they are written. -/
def globalOptions : List (OptionSpec GlobalOption) :=
  [{ key := .config, long := "--config", letter := some 'c' },
   { key := .verbose, long := "--verbose", letter := some 'v', takesValue := false },
   { key := .version, long := "--version", takesValue := false },
   { key := .help, long := "--help", takesValue := false }]

/-- **The commands.** -/
inductive Command where
  /-- Files are audited. -/
  | audit
  /-- The rules are listed. -/
  | listing
deriving DecidableEq, Repr

/-- The command of the given name. -/
def Command.ofName? : String → Option Command
  | "analyze" => some .audit
  | "rules" => some .listing
  | _ => none

/-- The line that says the version. -/
def versionLine : String :=
  "klarlint, version 0.1.0\n"

/-- The text that helps. -/
def usageText : String :=
  "Usage: klarlint [--config FILE] [--verbose] [--version] COMMAND\n\n" ++
  "Commands:\n" ++
  "  analyze [--rules SET] [--format text|json] [--severity-min LEVEL] [--exclude PATTERNS]\n" ++
  "          [--jobs N] [--output FILE] PATH...\n" ++
  "  rules [--rules SET]\n"

/-- The usage error for an error among the options. -/
def OptionError.usage : OptionError → UsageError
  | unknown => .unknownOption
  | value => .optionValue

/-- What the first option that asks for the version or for help comes to. -/
def announcement? (fs : FileSystem) (options : List (GlobalOption × Option String)) :
    Option Outcome :=
  options.findSome? fun
    | (.version, _) => some (.say fs versionLine)
    | (.help, _) => some (.say fs usageText)
    | _ => none

/-- The path leads to something that is no directory. -/
def isReadable (fs : FileSystem) (path : String) : Bool :=
  match fs.stat path with
  | .ok (_, node) => !node.isDirectory
  | .error _ => false

/-- **The options for all commands**: the file of the rule configuration, if it is given, and the
rest of the command line; or what the command line comes to before any command. -/
def readGlobal (fs : FileSystem) (args : List String) :
    Except Outcome (Option String × List String) :=
  match readOptions globalOptions false args with
  | .error e => .error (.refusal fs e.usage)
  | .ok (options, rest) =>
    match announcement? fs options, lastValue .config options with
    | some o, _ => .error o
    | none, none => .ok (none, rest)
    | none, some path =>
      if isReadable fs path then .ok (some path, rest) else .error (.refusal fs .badValue)

/-- The command that lists the rules, with its arguments. -/
def invokeListing (s : RuleSet) (fs : FileSystem) (args : List String) : Outcome :=
  match readOptions listingOptions true args with
  | .error e => .refusal fs e.usage
  | .ok (options, operands) =>
    if options.any (·.1 == .help) then .say fs usageText
    else listWith s fs (lastValue .rules options) operands

/-- The command that audits files, with its arguments. -/
def invokeAudit (s : RuleSet) (w : World) (args : List String) : Outcome :=
  match readOptions auditOptions true args with
  | .error e => .refusal w.files e.usage
  | .ok (options, operands) =>
    if options.any (·.1 == .help) then .say w.files usageText
    else
      match AuditRequest.ofOptions? w.files options operands with
      | none => .refusal w.files .badValue
      | some r =>
        if operands.isEmpty then .refusal w.files .missingOperand
        else r.perform Markup.escape s w.files w.interrupted

/-- **The rule set in force** under some settings: that of the file given on the command line, or of
the file that the settings name, or the default one. -/
def RuleSet.inForce (read : DocumentReader) (fs : FileSystem) (settings : Settings)
    (config : Option String) : Except SetupError RuleSet :=
  match config <|> settings.rulesFile.map (·.render) with
  | some path => loadBy read fs path
  | none => .ok {}

/-- **What a run comes to**, by what has become of its rule set: a wrong configuration is refused,
and a breakdown breaks the run off. -/
def Outcome.ofSetup (fs : FileSystem) (run : RuleSet → Outcome) :
    Except SetupError RuleSet → Outcome
  | .error (.configuration e) => .refusal fs (.other e.message)
  | .error (.breakdown b) => .broken fs b
  | .ok s => run s

/-- A command with a rule set and its arguments. -/
def Command.run (c : Command) (w : World) (args : List String) (s : RuleSet) : Outcome :=
  match c with
  | .audit => invokeAudit s w args
  | .listing => invokeListing s w.files args

/-- A command with its arguments, under the settings of the environment. -/
def Command.invoke (c : Command) (w : World) (config : Option String) (args : List String) :
    Outcome :=
  .ofSetup w.files (c.run w args) <|
    (Settings.load w.environment w.files ⟨0, []⟩).bind fun settings =>
      RuleSet.inForce Yaml.load w.files settings config

/-- What a name that is no command comes to. A name that is written like an option is read as one
first. -/
def unknownCommand (fs : FileSystem) (name : String) (args : List String) : Outcome :=
  if isOptionLike name then
    match readGlobal fs (name :: args) with
    | .error o => o
    | .ok _ => .refusal fs .unknownCommand
  else .refusal fs .unknownCommand

/-- **What a command line comes to.** -/
def invoke (w : World) (args : List String) : Outcome :=
  if args.isEmpty then .refusal w.files .noArguments
  else
    match readGlobal w.files args with
    | .error o => o
    | .ok (_, []) => .refusal w.files (.other "Missing command.")
    | .ok (config, name :: args) =>
      match Command.ofName? name with
      | some c => c.invoke w config args
      | none => unknownCommand w.files name args

end KlarAudit

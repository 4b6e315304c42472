import KlarAudit.Format.Markup
import KlarAudit.Settings.Error

/-!
# What a command comes to

## Main definitions

* `UsageError`: what may be wrong with a command line
* `Ending`: how a command ends
* `Outcome`: what a command prints and writes, and how it ends
-/

namespace KlarAudit

/-- **What may be wrong with a command line.** -/
inductive UsageError where
  /-- There are no arguments at all. -/
  | noArguments
  /-- An option is unknown. -/
  | unknownOption
  /-- An option lacks its value, or has one and takes none. -/
  | optionValue
  /-- The value of an option does not fit. -/
  | badValue
  /-- The command is unknown. -/
  | unknownCommand
  /-- An operand is missing. -/
  | missingOperand
  /-- Anything else, in words. -/
  | other (message : String)
deriving DecidableEq, Repr, Inhabited

/-- The wording of a usage error. -/
def UsageError.message : UsageError → String
  | noArguments => "A command is needed."
  | unknownOption => "No such option."
  | optionValue => "An option lacks its value, or takes none."
  | badValue => "Invalid value for an option."
  | unknownCommand => "No such command."
  | missingOperand => "Missing path."
  | other message => message

/-- **How a command ends.** -/
inductive Ending where
  /-- With an exit code. -/
  | exit (code : Nat)
  /-- With a usage error. -/
  | usage (e : UsageError)
  /-- With a breakdown. -/
  | breakdown (b : Breakdown)
deriving DecidableEq, Repr, Inhabited

/-- The exit code of an ending. -/
def Ending.code : Ending → Nat
  | exit code => code
  | usage _ => 2
  | breakdown _ => 1

/-- **Where something is printed to.** -/
inductive Channel where
  /-- The standard output. -/
  | output
  /-- The standard error output. -/
  | error
  /-- A file that holds lines of the given width. -/
  | file (path : String) (width : Nat)
deriving DecidableEq, Repr, Inhabited

/-- **What a command comes to.** -/
structure Outcome where
  /-- What is printed, in order. -/
  prints : List (Channel × Print) := []
  /-- The text that goes to the standard output as it is. -/
  text : String := ""
  /-- The files afterwards. A file that something is printed to is still empty in them. -/
  files : FileSystem
  /-- How the command ends. -/
  ending : Ending
deriving Repr, Inhabited

namespace Outcome

/-- Nothing happened but a usage error. -/
def refusal (fs : FileSystem) (e : UsageError) : Outcome :=
  { files := fs, ending := .usage e }

/-- Nothing happened but a breakdown. -/
def broken (fs : FileSystem) (b : Breakdown) : Outcome :=
  { files := fs, ending := .breakdown b }

/-- A text is printed. -/
def say (fs : FileSystem) (text : String) : Outcome :=
  { files := fs, text, ending := .exit 0 }

end Outcome

end KlarAudit

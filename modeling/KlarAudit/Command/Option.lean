/-!
# Options on a command line

An option has a long name and perhaps a letter, and takes a value or none. A long name and its value
may be joined by an equals sign; letters may share a dash, and what follows the letter of an option
that takes a value is its value. Two dashes end the options.

## Main definitions

* `OptionSpec`: an option of a command
* `readArgument`: the options in one argument
* `readOptions`: the options and operands of a command line
-/

namespace KlarAudit

/-- **An option of a command**, which is called `key` by the command. -/
structure OptionSpec (κ : Type) where
  /-- What the command calls the option. -/
  key : κ
  /-- The long name, with its dashes. -/
  long : String
  /-- The letter. -/
  letter : Option Char := none
  /-- The option takes a value. -/
  takesValue : Bool := true

/-- What may be wrong with options. -/
inductive OptionError where
  /-- There is no such option. -/
  | unknown
  /-- A value is missing, or is given where none is taken. -/
  | value
deriving DecidableEq, Repr, Inhabited

/-- **Options as they were given**, each with its value, and the option that still waits for a value
in the next argument. -/
structure Given (κ : Type) where
  /-- The options with their values, in order. -/
  options : List (κ × Option String)
  /-- The option whose value is the next argument. -/
  waiting : Option κ := none

variable {κ : Type}

/-- The options whose letters share a dash. -/
def readLetters (specs : List (OptionSpec κ)) : List Char → Except OptionError (Given κ)
  | [] => .ok ⟨[], none⟩
  | c :: cs =>
    match specs.find? (·.letter == some c) with
    | none => .error .unknown
    | some spec =>
      if spec.takesValue then
        if cs.isEmpty then .ok ⟨[], some spec.key⟩
        else .ok ⟨[(spec.key, some (String.ofList cs))], none⟩
      else
        (readLetters specs cs).map fun g => { g with options := (spec.key, none) :: g.options }

/-- The option of a long name, with the value that is joined to it. -/
def readLong (spec : OptionSpec κ) (joined : Option String) : Except OptionError (Given κ) :=
  match spec.takesValue, joined with
  | true, some v => .ok ⟨[(spec.key, some v)], none⟩
  | true, none => .ok ⟨[], some spec.key⟩
  | false, some _ => .error .value
  | false, none => .ok ⟨[(spec.key, none)], none⟩

/-- **The options in one argument.** -/
def readArgument (specs : List (OptionSpec κ)) (argument : String) :
    Except OptionError (Given κ) :=
  let cs := argument.toList
  let name := cs.takeWhile (· != '=')
  let joined := if name.length = cs.length then none
    else some (String.ofList (cs.drop (name.length + 1)))
  match specs.find? (·.long == String.ofList name) with
  | some spec => readLong spec joined
  | none => if cs.take 2 == ['-', '-'] then .error .unknown else readLetters specs (cs.drop 1)

/-- The argument is written like an option. -/
def isOptionLike (argument : String) : Bool :=
  argument.toList.head? == some '-' && 1 < argument.toList.length

/-- **The options and operands of a command line.** Operands may stand between options if they are
`mixed`; else the options end at the first operand. -/
def readOptions (specs : List (OptionSpec κ)) (mixed : Bool) :
    List String → Except OptionError (List (κ × Option String) × List String)
  | [] => .ok ([], [])
  | a :: args =>
    if a = "--" then .ok ([], args)
    else if isOptionLike a then
      match readArgument specs a with
      | .error e => .error e
      | .ok ⟨options, none⟩ => (readOptions specs mixed args).map fun (os, rest) =>
          (options ++ os, rest)
      | .ok ⟨options, some key⟩ =>
        match args with
        | [] => .error .value
        | v :: args => (readOptions specs mixed args).map fun (os, rest) =>
            (options ++ (key, some v) :: os, rest)
    else if mixed then (readOptions specs mixed args).map fun (os, rest) => (os, a :: rest)
    else .ok ([], a :: args)

/-- The values that were given for an option, in order. -/
def valuesOf [BEq κ] (key : κ) (options : List (κ × Option String)) : List String :=
  options.filterMap fun (k, v) => if k == key then v else none

/-- The last value that was given for an option. -/
def lastValue [BEq κ] (key : κ) (options : List (κ × Option String)) : Option String :=
  (valuesOf key options).getLast?

end KlarAudit

import KlarAudit.Rule.Basic
import KlarAudit.Rule.Interface

/-!
# The rule on logging

Passwords, keys and the like do not go into logs. Words are found whatever their case, and letters
that only differ from a letter of the word in case count as that letter.

## Main definitions

* `secretWords`: the words that name a secret
* `secretIn?`: the first such word in a token
* `loggingCalls`: the calls that write a log
* `loggedSecretRule`: logging calls get no secrets
-/

namespace KlarAudit

/-- The words that name a secret, in the order in which they are looked for. -/
def secretWords : List String :=
  ["password", "token", "secret", "api_key", "private_key", "credential"]

/-- The characters beyond the Latin alphabet that differ from a letter in case only. -/
def caseVariants : List (Char × Char) :=
  [('\u017f', 's'), ('\u212a', 'k'), ('\u0130', 'i'), ('\u0131', 'i')]

/-- The character `c` is the small letter `p` but for case. -/
def matchesLetter (p c : Char) : Bool :=
  Naming.lowerChar c == p || caseVariants.contains (c, p)

/-- The character in small letters. A capital with a dot above becomes a small letter with one, as
two characters; a letter without a capital of its own stays. -/
def smallLetters (c : Char) : List Char :=
  if c = '\u212a' then ['k']
  else if c = '\u0130' then ['i', '\u0307']
  else [Naming.lowerChar c]

/-- The word stands at the front of the characters, but for case. -/
def startsWithWord : List Char → List Char → Bool
  | [], _ => true
  | _ :: _, [] => false
  | p :: ps, c :: cs => matchesLetter p c && startsWithWord ps cs

/-- The first place at which the word stands in the characters: the characters there, in small
letters. -/
def findWord? (word : List Char) : List Char → Option String
  | [] => none
  | c :: cs =>
    if startsWithWord word (c :: cs) then
      some (String.ofList (((c :: cs).take word.length).flatMap smallLetters))
    else findWord? word cs

/-- **The secret in a token**: the first word that names a secret in a name or a string literal. -/
def secretIn? (t : Token) : Option String :=
  if t.kind == .identifier || t.isString then
    secretWords.findSome? fun w => findWord? w.toList t.text.toList
  else none

/-- The things whose methods write a log. -/
def logReceivers : List String :=
  ["log", "logger", "logging"]

/-- The methods that write a log. -/
def logMethods : List String :=
  ["trace", "debug", "info", "notice", "warn", "warning", "error", "err", "fatal", "critical",
   "log", "print"]

/-- The functions that print. -/
def printFunctions : List String :=
  ["print", "println", "eprint", "eprintln", "printf"]

/-- The called token writes a log: a method of a logger, or a function that prints. -/
def writesLog (c : Context) : Bool :=
  match c.before with
  | dot :: before =>
    if dot.is "." || dot.is "::" then
      logMethods.contains c.token.text && before.head?.any (logReceivers.contains ·.text)
    else printFunctions.contains c.token.text
  | [] => printFunctions.contains c.token.text

/-- **A logging call**: the called token, the index of the opening bracket, and the arguments. -/
structure LoggingCall where
  /-- The name that is called. -/
  callee : Token
  /-- The index of the opening bracket among the tokens. -/
  openIndex : Nat
  /-- The tokens between the brackets. -/
  arguments : List Token
deriving DecidableEq, Repr

/-- The index of the bracket that closes the call, or the number of tokens if there is none. -/
def LoggingCall.closeIndex (l : LoggingCall) : Nat :=
  l.openIndex + 1 + l.arguments.length

/-- The logging call of a token, if it makes one; a mark of invocation may stand before the
bracket. -/
def loggingCall? (c : Context) : Option LoggingCall :=
  let marked := c.after.head?.any (·.is "!")
  match if marked then c.after.tail else c.after with
  | p :: rest =>
    if c.token.kind == .identifier && p.is "(" && writesLog c then
      some ⟨c.token, c.index + (if marked then 2 else 1), argumentTokens rest⟩
    else none
  | [] => none

/-- **The logging calls** in a run of tokens. -/
def loggingCalls (ts : List Token) : List LoggingCall :=
  (Context.all ts).filterMap loggingCall?

/-- The remark on a logging call that gets a secret. -/
def loggedSecretRemark? (l : LoggingCall) : Option Remark :=
  match Text.sortedSet (l.arguments.filterMap secretIn?) with
  | [] => none
  | hits =>
    some <| .at l.callee.pos
      ("logging call '" ++ l.callee.text ++ "' may leak sensitive data (matches: " ++
        Text.joinWith ", " hits ++ "); never log secrets")

/-- **Logging calls get no secrets.** -/
def loggedSecretRule : Rule where
  id := "secrets.logged-secret"
  family := "secrets"
  severity := .critical
  description := "Logging calls never receive passwords, tokens or keys."
  security := true
  check s := .all ((loggingCalls s.stream.significant).filterMap loggedSecretRemark?)

end KlarAudit

import KlarAudit.Naming.Word
import KlarAudit.Text.Affix

/-!
# Case conventions

Names follow one of three conventions: small letters with underscores, capital letters with
underscores, or capitalized words. A name may be tested against a convention, described by the
convention it happens to follow, and respelled in a convention.

## Main definitions

* `Convention.accepts`: a name follows a convention
* `CaseClass.ofName`: the convention a name follows, if any
* `Convention.respell`: a name respelled in a convention
-/

namespace KlarAudit

/-- **The conventions for names.** -/
inductive Convention where
  /-- Small letters, words divided by underscores. -/
  | snake
  /-- Capital letters, words divided by underscores. -/
  | upperSnake
  /-- Capitalized words, not divided. -/
  | pascal
deriving DecidableEq, Repr, Inhabited

namespace Naming

/-- A small letter or a digit of the Latin script. -/
def isLowerBody (c : Char) : Bool :=
  isLower c || ('0' ≤ c && c ≤ '9')

/-- A capital letter or a digit of the Latin script. -/
def isUpperBody (c : Char) : Bool :=
  isUpper c || ('0' ≤ c && c ≤ '9')

/-- A letter or a digit of the Latin script. -/
def isAlphanumeric (c : Char) : Bool :=
  isLower c || isUpperBody c

/-- The characters satisfy `p` but for underscores, each of which stands before one that does. -/
def isSegmented (p : Char → Bool) : List Char → Bool
  | [] => true
  | '_' :: c :: cs => p c && isSegmented p cs
  | c :: cs => p c && isSegmented p cs

/-- Any underscores, a character that satisfies `first`, and characters that satisfy `body`, divided
by single underscores. -/
def isDivided (first body : Char → Bool) (name : String) : Bool :=
  match name.toList.dropWhile (· == '_') with
  | [] => false
  | c :: cs => first c && isSegmented body cs

/-- A character that satisfies `first`, and letters and digits. -/
def isUndivided (first : Char → Bool) (name : String) : Bool :=
  match name.toList with
  | [] => false
  | c :: cs => first c && cs.all isAlphanumeric

/-- The name without the underscores at its ends. -/
def stripUnderscores (name : String) : List Char :=
  ((name.toList.dropWhile (· == '_')).reverse.dropWhile (· == '_')).reverse

/-- The name has a capital letter and no small one. -/
def isAllCapitals (name : String) : Bool :=
  name.toList.any isUpper && !name.toList.any isLower

/-- A word with a capital letter first and small ones after it. -/
def capitalize (word : String) : String :=
  match word.toList with
  | [] => ""
  | c :: cs => String.ofList (upperChar c :: cs.map lowerChar)

end Naming

namespace Convention

open Naming

/-- The name of a convention, in the style of the convention. -/
def label : Convention → String
  | snake => "snake_case"
  | upperSnake => "UPPER_SNAKE_CASE"
  | pascal => "PascalCase"

/-- **The name follows the convention.** -/
def accepts (c : Convention) (name : String) : Bool :=
  match c with
  | snake => isDivided isLower isLowerBody name
  | upperSnake => isDivided isUpper isUpperBody name
  | pascal => isUndivided isUpper name

/-- **The name respelled in the convention.** Underscores in front are kept where the convention
allows them; a name without words is left alone. -/
def respell (c : Convention) (name : String) : String :=
  let front := String.ofList (name.toList.takeWhile (· == '_'))
  match words name with
  | [] => name
  | w :: ws =>
    match c with
    | snake => front ++ Text.joinWith "_" ((w :: ws).map lower)
    | upperSnake => front ++ Text.joinWith "_" ((w :: ws).map upper)
    | pascal => String.join ((w :: ws).map capitalize)

end Convention

/-- **How the case of a name looks.** -/
inductive CaseClass where
  /-- The name follows a convention. -/
  | follows (c : Convention)
  /-- Undivided words, of which all but the first are capitalized. -/
  | camel
  /-- Anything else. -/
  | mixed
deriving DecidableEq, Repr, Inhabited

namespace CaseClass

open Naming

/-- The name of a class, in the style of the class. -/
def label : CaseClass → String
  | follows c => c.label
  | camel => "camelCase"
  | mixed => "mixed case"

/-- **The class of a name.** A name without small letters, or with an underscore between other
characters, is never taken for undivided words. -/
def ofName (name : String) : CaseClass :=
  if Convention.snake.accepts name then .follows .snake
  else if (stripUnderscores name).contains '_' || isAllCapitals name then
    if Convention.upperSnake.accepts name then .follows .upperSnake else .mixed
  else if Convention.pascal.accepts name then .follows .pascal
  else if isUndivided isLower name then .camel
  else .mixed

end CaseClass

end KlarAudit

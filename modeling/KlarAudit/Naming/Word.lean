import KlarAudit.Text.Digit

/-!
# The words of a name

A name such as `parseHTTPHeader2` is made of words. Underscores separate words, and so do changes of
letter case: a capital letter starts a word, and of a run of capitals before a small letter the last
one starts the next word. Digits belong to the word before them.

## Main definitions

* `Naming.wordLength cs`: the length of the word at the front of `cs`
* `Naming.words name`: the words of a name
-/

namespace KlarAudit.Naming

/-- A small letter. -/
def isLower (c : Char) : Bool :=
  'a' ≤ c && c ≤ 'z'

/-- A capital letter. -/
def isUpper (c : Char) : Bool :=
  'A' ≤ c && c ≤ 'Z'

/-- The small letter for a capital one; any other character is left alone. -/
def lowerChar (c : Char) : Char :=
  if isUpper c then Char.ofNat (c.toNat + 32) else c

/-- The capital letter for a small one; any other character is left alone. -/
def upperChar (c : Char) : Char :=
  if isLower c then Char.ofNat (c.toNat - 32) else c

/-- The name in small letters. -/
def lower (s : String) : String :=
  String.ofList (s.toList.map lowerChar)

/-- The name in capital letters. -/
def upper (s : String) : String :=
  String.ofList (s.toList.map upperChar)

/-- The number of leading digits. -/
def digitRun (cs : List Char) : Nat :=
  (cs.takeWhile Text.isDigit).length

/-- **The length of the word at the front**, zero if there is none. Capitals at the front are, if a
small letter follows them, a word of all but the last of them or, if there is just one, the start of
a word in small letters; else they are a word with the digits after them. -/
def wordLength (cs : List Char) : Nat :=
  let capitals := (cs.takeWhile isUpper).length
  let smalls := ((cs.drop capitals).takeWhile isLower).length
  if smalls = 0 then capitals + digitRun (cs.drop capitals)
  else if 2 ≤ capitals then capitals - 1
  else capitals + smalls + digitRun (cs.drop (capitals + smalls))

/-- The words of `cs`, after skipping the first `n` characters. -/
def wordsFrom (n : Nat) : List Char → List String
  | [] => []
  | c :: cs =>
    match n with
    | n + 1 => wordsFrom n cs
    | 0 =>
      match wordLength (c :: cs) with
      | 0 => wordsFrom 0 cs
      | k + 1 => String.ofList (c :: cs.take k) :: wordsFrom k cs

/-- **The words of a name**, in order. -/
def words (name : String) : List String :=
  wordsFrom 0 name.toList

end KlarAudit.Naming

import KlarAudit.Text.Quoted

/-!
# Structured output

Values of the report format, and their text: two blanks of indentation, and no character outside
ASCII.

## Main definitions

* `Json`: texts, numbers, arrays and objects; an object keeps the order of its members
* `Json.render`: the text of a value
-/

namespace KlarAudit

/-- **A structured value.** Numbers are given by their text. -/
inductive Json where
  /-- A text. -/
  | string (s : String)
  /-- A number, as written. -/
  | number (text : String)
  /-- Values in order. -/
  | array (xs : List Json)
  /-- Named values in order. -/
  | object (members : List (String × Json))
deriving Repr, Inhabited

namespace Json

/-- A whole number. -/
def int (i : Int) : Json :=
  .number (toString i)

/-- The escape of a code unit of sixteen bits. -/
def escapeUnit (n : Nat) : List Char :=
  '\\' :: 'u' :: Text.hexDigits 4 n

/-- **The text of a character**: quotes, backslashes and control characters are escaped, and so is
everything but printable ASCII, by its code units. -/
def escapeChar (c : Char) : List Char :=
  let n := c.toNat
  if c = '"' then ['\\', '"']
  else if c = '\\' then ['\\', '\\']
  else if c = '\n' then ['\\', 'n']
  else if c = '\r' then ['\\', 'r']
  else if c = '\t' then ['\\', 't']
  else if n = 8 then ['\\', 'b']
  else if n = 12 then ['\\', 'f']
  else if n < 32 then escapeUnit n
  else if n < 127 then [c]
  else if n < 0x10000 then escapeUnit n
  else escapeUnit (0xd800 + (n - 0x10000) / 0x400) ++ escapeUnit (0xdc00 + (n - 0x10000) % 0x400)

/-- The text of a text, in quotes. -/
def quote (s : String) : String :=
  String.ofList ('"' :: s.toList.flatMap escapeChar ++ ['"'])

/-- A new line, indented by the given number of levels. -/
def newline (depth : Nat) : String :=
  String.ofList ('\n' :: List.replicate (2 * depth) ' ')

mutual

/-- The text of a value at the given depth. -/
def renderAt (depth : Nat) : Json → String
  | string s => quote s
  | number text => text
  | array [] => "[]"
  | array (x :: xs) =>
    "[" ++ newline (depth + 1) ++ renderAt (depth + 1) x ++ renderRest (depth + 1) xs ++
      newline depth ++ "]"
  | object [] => "\x7b\x7d"
  | object ((k, v) :: ms) =>
    "\x7b" ++ newline (depth + 1) ++ quote k ++ ": " ++ renderAt (depth + 1) v ++
      renderMembers (depth + 1) ms ++ newline depth ++ "\x7d"

/-- The text of the values after the first of an array. -/
def renderRest (depth : Nat) : List Json → String
  | [] => ""
  | x :: xs => "," ++ newline depth ++ renderAt depth x ++ renderRest depth xs

/-- The text of the members after the first of an object. -/
def renderMembers (depth : Nat) : List (String × Json) → String
  | [] => ""
  | (k, v) :: ms =>
    "," ++ newline depth ++ quote k ++ ": " ++ renderAt depth v ++ renderMembers depth ms

end

/-- **The text of a value.** -/
def render (j : Json) : String :=
  renderAt 0 j

end Json

end KlarAudit

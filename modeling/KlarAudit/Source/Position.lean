/-!
# Positions in a text

A position is the place between two characters of a text: how many characters stand before it, and
the line and column that an editor shows for it. Lines and columns count from one, and a line feed
is the only character that ends a line.

## Main definitions

* `Position`: an offset with its line and column
* `Position.advance p c`: the position after reading the character `c` at `p`
* `Position.advanceAll p cs`: the position after reading the characters `cs` at `p`

## Main results

* `offset_advanceAll`: reading moves the offset by the number of characters read
* `line_advanceAll`: reading moves the line by the number of line feeds read
-/

namespace KlarAudit

/-- **A position in a text**: characters before it, and its line and column, which count from
one. -/
structure Position where
  /-- Number of characters before the position. -/
  offset : Nat
  /-- Line of the position, from one. -/
  line : Nat
  /-- Column of the position, from one. -/
  column : Nat
deriving DecidableEq, Repr, Inhabited

namespace Position

/-- The position before the first character. -/
def start : Position :=
  ⟨0, 1, 1⟩

/-- The position after one more character: a line feed starts the next line. -/
def advance (p : Position) (c : Char) : Position :=
  if c = '\n' then ⟨p.offset + 1, p.line + 1, 1⟩ else ⟨p.offset + 1, p.line, p.column + 1⟩

/-- The position after some more characters. -/
def advanceAll (p : Position) (cs : List Char) : Position :=
  cs.foldl advance p

@[simp] theorem advanceAll_nil (p : Position) : p.advanceAll [] = p := rfl

@[simp] theorem advanceAll_cons (p : Position) (c : Char) (cs : List Char) :
    p.advanceAll (c :: cs) = (p.advance c).advanceAll cs := rfl

@[simp] theorem advanceAll_append (p : Position) (cs ds : List Char) :
    p.advanceAll (cs ++ ds) = (p.advanceAll cs).advanceAll ds :=
  List.foldl_append

@[simp] theorem offset_advance (p : Position) (c : Char) :
    (p.advance c).offset = p.offset + 1 := by
  unfold advance; split <;> rfl

@[simp] theorem line_advance (p : Position) (c : Char) :
    (p.advance c).line = p.line + if c = '\n' then 1 else 0 := by
  unfold advance; split <;> simp_all

/-- Reading moves the offset by the number of characters read. -/
@[simp] theorem offset_advanceAll (p : Position) (cs : List Char) :
    (p.advanceAll cs).offset = p.offset + cs.length := by
  induction cs generalizing p with
  | nil => rfl
  | cons c cs ih => simp [ih]; omega

/-- Reading moves the line by the number of line feeds read. -/
theorem line_advanceAll (p : Position) (cs : List Char) :
    (p.advanceAll cs).line = p.line + cs.count '\n' := by
  induction cs generalizing p with
  | nil => rfl
  | cons c cs ih =>
    by_cases h : c = '\n'
    · subst h; simp [ih]; omega
    · simp [ih, h]

end Position

end KlarAudit

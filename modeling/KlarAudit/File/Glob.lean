/-!
# Patterns for names

A pattern is matched against a whole text: a star stands for any run of characters, a question mark
for any character, and a set in brackets for the characters that it lists.

Matching goes through the text once, from its end, and keeps for each rest of the pattern whether it
matches the text read so far; so it takes time proportional to the product of the two lengths.

## Main definitions

* `CharSet`, `charSet`: a set of characters, and how it is written
* `Glob.Part`, `Glob.parse`: the parts of a pattern
* `Glob.Matches`: what a pattern stands for
* `Glob.accepts`: the matching procedure

## Main results

* `accepts_iff`: the procedure accepts what the pattern stands for, and nothing else
-/

namespace KlarAudit

/-- **A set of characters**: those in one of the ranges or, for a negated set, all others. -/
structure CharSet where
  /-- The set is negated. -/
  negated : Bool
  /-- The ranges, each by its least and its greatest character. -/
  ranges : List (Char × Char)
deriving DecidableEq, Repr, Inhabited

/-- The character is in the set. -/
def CharSet.has (s : CharSet) (c : Char) : Bool :=
  s.ranges.any (fun (a, b) => a ≤ c && c ≤ b) != s.negated

namespace Glob

/-- The characters between brackets, cut at the dashes that make ranges. The first `fixed`
characters cannot be such a dash, and neither can the two characters after one. -/
def cut (fixed : Nat) : List Char → List (List Char)
  | [] => [[]]
  | c :: cs =>
    if fixed = 0 && c = '-' then [] :: cut 2 cs
    else
      match cut (fixed - 1) cs with
      | [] => [[c]]
      | piece :: pieces => (c :: piece) :: pieces

/-- A dash that nothing follows makes no range. -/
def keepLastDash : List (List Char) → List (List Char)
  | [piece, []] => [piece ++ ['-']]
  | piece :: pieces => piece :: keepLastDash pieces
  | [] => []

/-- Empty ranges are dropped with both their ends, the last range first; the pieces around become
one. -/
def dropEmptyRanges : List (List Char) → List (List Char)
  | [] => []
  | piece :: pieces =>
    match dropEmptyRanges pieces with
    | [] => [piece]
    | next :: pieces =>
      match piece.getLast?, next.head? with
      | some a, some b =>
        if b < a then (piece.dropLast ++ next.tail) :: pieces else piece :: next :: pieces
      | _, _ => piece :: next :: pieces

/-- The ranges of the pieces: the last character of a piece and the first one of the next piece are
the ends of a range, and all other characters stand alone. A dash that nothing precedes stands alone
too. -/
def ranges (piece : List Char) : List (List Char) → List (Char × Char)
  | [] => piece.map fun c => (c, c)
  | next :: pieces =>
    match piece.getLast?, next with
    | some a, b :: rest =>
      piece.dropLast.map (fun c => (c, c)) ++ (a, b) :: ranges rest pieces
    | _, _ => ('-', '-') :: ranges next pieces

/-- **The set that is written between brackets.** An exclamation mark in front negates the set, also
one that comes to the front because empty ranges are dropped. -/
def charSet (cs : List Char) : CharSet :=
  let pieces := keepLastDash (cut (if cs.head? = some '!' then 2 else 1) cs)
  match dropEmptyRanges pieces with
  | ('!' :: piece) :: pieces => ⟨true, ranges piece pieces⟩
  | piece :: pieces => ⟨false, ranges piece pieces⟩
  | [] => ⟨false, []⟩

/-- **A part of a pattern.** -/
inductive Part where
  /-- Any run of characters. -/
  | star
  /-- One character of a set. -/
  | one (set : CharSet)
deriving DecidableEq, Repr, Inhabited

/-- The part that stands for one character only. -/
def Part.char (c : Char) : Part :=
  .one ⟨false, [(c, c)]⟩

/-- The part that stands for any character. -/
def Part.any : Part :=
  .one ⟨true, []⟩

/-- The length of what stands between brackets, at the characters after the opening one; `none` if
the bracket is not closed. A closing bracket in front, or after an exclamation mark in front, is one
of the characters of the set. -/
def setLength? (cs : List Char) : Option Nat :=
  let mark := if cs.head? = some '!' then 1 else 0
  let first := if (cs.drop mark).head? = some ']' then 1 else 0
  let body := ((cs.drop (mark + first)).takeWhile (· != ']')).length
  if mark + first + body < cs.length then some (mark + first + body) else none

/-- The parts of a pattern, after skipping `n` characters. -/
def parseFrom (n : Nat) : List Char → List Part
  | [] => []
  | c :: cs =>
    match n with
    | n + 1 => parseFrom n cs
    | 0 =>
      if c = '*' then .star :: parseFrom 0 cs
      else if c = '?' then .any :: parseFrom 0 cs
      else if c = '[' then
        match setLength? cs with
        | none => .char c :: parseFrom 0 cs
        | some k => .one (charSet (cs.take k)) :: parseFrom (k + 1) cs
      else .char c :: parseFrom 0 cs

/-- **The parts of a pattern.** A bracket that is not closed stands for itself. -/
def parse (pattern : String) : List Part :=
  parseFrom 0 pattern.toList

/-- **What a pattern stands for.** -/
inductive Matches : List Part → List Char → Prop where
  /-- The empty pattern stands for the empty text. -/
  | nil : Matches [] []
  /-- A set stands for one of its characters. -/
  | one {s : CharSet} {ps : List Part} {c : Char} {cs : List Char} :
      s.has c → Matches ps cs → Matches (.one s :: ps) (c :: cs)
  /-- A star stands for nothing. -/
  | skip {ps : List Part} {cs : List Char} : Matches ps cs → Matches (.star :: ps) cs
  /-- A star stands for one more character. -/
  | more {ps : List Part} {c : Char} {cs : List Char} :
      Matches (.star :: ps) cs → Matches (.star :: ps) (c :: cs)

/-- The first verdict of a row. -/
def verdict (row : List Bool) : Bool :=
  row.headD false

/-- **The row of the empty text**: whether each rest of the pattern matches it, the whole pattern
first. -/
def emptyRow : List Part → List Bool
  | [] => [true]
  | .star :: ps => verdict (emptyRow ps) :: emptyRow ps
  | .one _ :: ps => false :: emptyRow ps

/-- **The row of a text with one more character in front**, from the row of the text. -/
def nextRow (c : Char) : List Part → List Bool → List Bool
  | [], _ => [false]
  | .star :: ps, row =>
    let rest := nextRow c ps row.tail
    (verdict rest || verdict row) :: rest
  | .one s :: ps, row => (s.has c && verdict row.tail) :: nextRow c ps row.tail

/-- The pattern matches the text. -/
def accepts (ps : List Part) (cs : List Char) : Bool :=
  verdict (cs.foldr (nextRow · ps) (emptyRow ps))

/-- The row holds, for each rest of the pattern, whether it matches the text. -/
def Right (cs : List Char) : List Part → List Bool → Prop
  | [], row => verdict row = true ↔ Matches [] cs
  | p :: ps, row => (verdict row = true ↔ Matches (p :: ps) cs) ∧ Right cs ps row.tail

theorem Right.verdict_iff {cs : List Char} {ps : List Part} {row : List Bool}
    (h : Right cs ps row) : verdict row = true ↔ Matches ps cs := by
  cases ps with
  | nil => exact h
  | cons => exact h.1

theorem matches_star_nil {ps : List Part} : Matches (.star :: ps) [] ↔ Matches ps [] :=
  ⟨fun h => by cases h; assumption, .skip⟩

theorem matches_star_cons {ps : List Part} {c : Char} {cs : List Char} :
    Matches (.star :: ps) (c :: cs) ↔ Matches ps (c :: cs) ∨ Matches (.star :: ps) cs :=
  ⟨fun h => by cases h with
    | skip h => exact .inl h
    | more h => exact .inr h,
   fun h => h.elim .skip .more⟩

theorem matches_one_cons {s : CharSet} {ps : List Part} {c : Char} {cs : List Char} :
    Matches (.one s :: ps) (c :: cs) ↔ s.has c ∧ Matches ps cs :=
  ⟨fun h => by cases h with
    | one hc h => exact ⟨hc, h⟩,
   fun h => .one h.1 h.2⟩

theorem right_emptyRow (ps : List Part) : Right [] ps (emptyRow ps) := by
  induction ps with
  | nil => exact ⟨fun _ => .nil, fun _ => rfl⟩
  | cons p ps ih =>
    cases p with
    | star => exact ⟨ih.verdict_iff.trans matches_star_nil.symm, ih⟩
    | one s => exact ⟨⟨(nomatch ·), (nomatch ·)⟩, ih⟩

theorem right_nextRow {c : Char} {cs : List Char} {ps : List Part} {row : List Bool}
    (h : Right cs ps row) : Right (c :: cs) ps (nextRow c ps row) := by
  induction ps generalizing row with
  | nil => exact ⟨(nomatch ·), (nomatch ·)⟩
  | cons p ps ih =>
    have rest := ih h.2
    cases p with
    | star =>
      refine ⟨?_, rest⟩
      rw [matches_star_cons, ← rest.verdict_iff, ← h.1]
      simp [nextRow, verdict]
    | one s =>
      refine ⟨?_, rest⟩
      rw [matches_one_cons, ← h.2.verdict_iff]
      simp [nextRow, verdict]

/-- **The procedure accepts what the pattern stands for**, and nothing else. -/
theorem accepts_iff {ps : List Part} {cs : List Char} : accepts ps cs = true ↔ Matches ps cs := by
  refine Right.verdict_iff ?_
  induction cs with
  | nil => exact right_emptyRow ps
  | cons c cs ih => exact right_nextRow ih

end Glob

/-- The pattern matches the whole text. -/
def globMatches (pattern text : String) : Bool :=
  Glob.accepts (Glob.parse pattern) text.toList

end KlarAudit

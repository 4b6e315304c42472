import KlarAudit.Proofs.Source.LineIndex
import KlarAudit.Text.Divided
import Mathlib.Data.List.DropRight
import Mathlib.Data.Prod.Lex
import Mathlib.Order.Interval.Set.Defs
import Mathlib.Order.Monotone.Defs

/-!
# Lines and columns

A text falls into lines with line feeds between them, and each of its offsets, the one at its end
included, stands in one of them or at the line feed behind it. The line index lists where the lines
start, so an offset and its location determine each other: the locations are the lines with all
columns up to the one behind the last character, in the order of the offsets.

## Main definitions

* `LineIndex.Line cs`: a line of the text `cs`, with what stands before and behind it
* `LineIndex.Charts`: the locations of an index and the offsets of a text determine each other

## Main results

* `Line.location_add`: the location of an offset in a line
* `exists_line_at`, `exists_line_of_piece`: lines are found by offset and by number
* `charts_ofText`: the line index of a text charts it
-/

namespace KlarAudit

/-! ## Reading moves on -/

namespace Position

/-- Line and column, compared by lines first. -/
def place (p : Position) : Nat ×ₗ Nat :=
  toLex (p.line, p.column)

theorem place_lt_advance (p : Position) (c : Char) : p.place < (p.advance c).place := by
  rw [place, place, Prod.Lex.toLex_lt_toLex, advance]
  split
  · exact .inl (Nat.lt_succ_self _)
  · exact .inr ⟨rfl, Nat.lt_succ_self _⟩

/-- **Reading moves on** to a later place. -/
theorem place_lt_advanceAll (p : Position) {cs : List Char} (h : cs ≠ []) :
    p.place < (p.advanceAll cs).place := by
  induction cs generalizing p with
  | nil => exact absurd rfl h
  | cons c cs ih =>
    rcases eq_or_ne cs [] with rfl | hcs
    · exact p.place_lt_advance c
    · exact (p.place_lt_advance c).trans (ih (p.advance c) hcs)

/-- Reading more of a text ends at a later place. -/
theorem place_take_lt (p : Position) {cs : List Char} {a b : Nat} (hlt : a < b)
    (hb : b ≤ cs.length) : (p.advanceAll (cs.take a)).place < (p.advanceAll (cs.take b)).place := by
  obtain ⟨d, rfl⟩ := Nat.exists_eq_add_of_lt hlt
  have hne : (cs.drop a).take (d + 1) ≠ [] := by
    rw [Ne, ← List.length_eq_zero_iff, List.length_take, List.length_drop]
    omega
  rw [Nat.add_assoc, List.take_add, advanceAll_append]
  exact place_lt_advanceAll _ hne

/-- Within a line, reading moves on by columns. -/
theorem column_advanceAll_of_notMem (p : Position) {cs : List Char} (h : '\n' ∉ cs) :
    (p.advanceAll cs).column = p.column + cs.length := by
  induction cs generalizing p with
  | nil => rfl
  | cons c cs ih =>
    obtain ⟨hc, hcs⟩ : '\n' ≠ c ∧ '\n' ∉ cs := by simpa using h
    rw [advanceAll_cons, ih _ hcs, advance, if_neg hc.symm, List.length_cons]
    dsimp only
    omega

end Position

namespace LineIndex

/-! ## The lines of a text -/

/-- **A line of the text** `cs`, without its line feed. -/
structure Line (cs : List Char) where
  /-- What stands before the line. -/
  before : List Char
  /-- The characters of the line. -/
  chars : List Char
  /-- What stands behind the line. -/
  after : List Char
  /-- The parts make up the text. -/
  split : cs = before ++ (chars ++ after)
  /-- No line feed is in the line. -/
  plain : '\n' ∉ chars
  /-- What stands before it, if anything, ends with a line feed. -/
  front : ∀ c ∈ before.getLast?, c = '\n'
  /-- What stands behind it, if anything, starts with one. -/
  back : ∀ c ∈ after.head?, c = '\n'

namespace Line

variable {cs : List Char}

/-- The number of the line, from one. -/
def number (l : Line cs) : Nat :=
  l.before.count '\n' + 1

/-- The first line, when a line feed is the first character. -/
def empty (cs : List Char) : Line ('\n' :: cs) :=
  ⟨[], [], '\n' :: cs, rfl, List.not_mem_nil, by simp, by simp⟩

/-- A line behind one more character, which is a line feed or belongs to a line before. -/
def below (l : Line cs) (c : Char) (h : c = '\n' ∨ l.before ≠ []) : Line (c :: cs) where
  before := c :: l.before
  chars := l.chars
  after := l.after
  split := congrArg (c :: ·) l.split
  plain := l.plain
  front := by
    rcases h with rfl | h
    · intro d hd
      cases hb : l.before with
      | nil => simpa [hb] using hd.symm
      | cons b bs =>
        rw [hb, List.getLast?_cons_cons, ← hb] at hd
        exact l.front d hd
    · obtain ⟨b, bs, hb⟩ := List.exists_cons_of_ne_nil h
      rw [hb, List.getLast?_cons_cons, ← hb]
      exact l.front
  back := l.back

/-- The first line with one more character. -/
def extend (l : Line cs) (c : Char) (hc : c ≠ '\n') (h : l.before = []) : Line (c :: cs) where
  before := []
  chars := c :: l.chars
  after := l.after
  split := congrArg (c :: ·) (by simpa [h] using l.split)
  plain := List.not_mem_cons_of_ne_of_not_mem hc.symm l.plain
  front := by simp
  back := l.back

/-- Nothing stands before the first line. -/
theorem before_eq_nil (l : Line cs) (h : l.number = 1) : l.before = [] := by
  have hcount : l.before.count '\n' = 0 := Nat.succ.inj h
  cases hlast : l.before.getLast? with
  | none => exact List.getLast?_eq_none_iff.mp hlast
  | some c =>
    -- the last character before the line is a line feed, so there would be one
    obtain rfl := l.front c hlast
    exact absurd (List.mem_of_getLast? hlast) (List.count_eq_zero.mp hcount)

end Line

/-- **Every offset stands in a line**, or at its end. -/
theorem exists_line_at {cs : List Char} {offset : Nat} (h : offset ≤ cs.length) :
    ∃ l : Line cs, ∃ j ≤ l.chars.length, offset = l.before.length + j := by
  obtain ⟨p, hp⟩ : ∃ p : Char → Bool, p = (· ≠ '\n') := ⟨_, rfl⟩
  -- The line reaches from the last line feed before the offset to the first one behind it.
  have hfront : (cs.take offset).rdropWhile p ++ (cs.take offset).rtakeWhile p = cs.take offset :=
    List.rdropWhile_append_rtakeWhile
  have hback : (cs.drop offset).takeWhile p ++ (cs.drop offset).dropWhile p = cs.drop offset :=
    List.takeWhile_append_dropWhile
  refine ⟨⟨(cs.take offset).rdropWhile p,
    (cs.take offset).rtakeWhile p ++ (cs.drop offset).takeWhile p,
    (cs.drop offset).dropWhile p, ?split, ?plain, ?front, ?back⟩,
    ((cs.take offset).rtakeWhile p).length, by simp, ?offset⟩
  case split =>
    rw [List.append_assoc, hback, ← List.append_assoc, hfront, List.take_append_drop]
  case plain =>
    intro hmem
    rcases List.mem_append.mp hmem with hmem | hmem
    · simpa [hp] using List.mem_rtakeWhile_imp hmem
    · simpa [hp] using List.mem_takeWhile_imp hmem
  case front =>
    intro c hc
    obtain ⟨hne, rfl⟩ := List.mem_getLast?_eq_getLast hc
    simpa [hp] using List.rdropWhile_last_not p _ hne
  case back =>
    intro c hc
    have hnot := List.head?_dropWhile_not p (cs.drop offset)
    rw [hc] at hnot
    simpa [hp] using hnot
  case offset =>
    have hlength := congrArg List.length hfront
    rwa [List.length_append, List.length_take_of_le h, eq_comm] at hlength

/-- The lines have numbers in order: the piece with the index `k` is the line `k + 1`. -/
theorem exists_line_of_piece {cs p : List Char} {k : Nat}
    (h : (Text.pieces '\n' cs)[k]? = some p) :
    ∃ l : Line cs, l.number = k + 1 ∧ l.chars = p := by
  induction cs generalizing k p with
  | nil =>
    obtain ⟨hk, rfl⟩ := List.getElem?_eq_some_iff.mp h
    obtain rfl : k = 0 := by simpa [Text.pieces] using hk
    exact ⟨⟨[], [], [], rfl, List.not_mem_nil, by simp, by simp⟩, rfl, rfl⟩
  | cons c cs ih =>
    rw [Text.pieces] at h
    split at h
    · rename_i hc
      subst hc
      cases k with
      | zero =>
        cases h
        exact ⟨.empty cs, rfl, rfl⟩
      | succ k =>
        obtain ⟨l, hnumber, rfl⟩ := ih h
        exact ⟨l.below '\n' (.inl rfl), by simpa [Line.number, Line.below] using hnumber, rfl⟩
    · rename_i hc
      cases hpieces : Text.pieces '\n' cs with
      | nil => exact absurd hpieces (Text.pieces_ne_nil _ _)
      | cons q qs =>
        rw [hpieces] at h ih
        cases k with
        | zero =>
          cases h
          obtain ⟨l, hnumber, rfl⟩ := ih (k := 0) rfl
          exact ⟨l.extend c hc (l.before_eq_nil hnumber), rfl, rfl⟩
        | succ k =>
          obtain ⟨l, hnumber, rfl⟩ := ih (k := k + 1) h
          -- a line feed stands before the line, so the character belongs to a line before it
          have hne : l.before ≠ [] := by
            intro hnil
            rw [Line.number, hnil] at hnumber
            cases hnumber
          exact ⟨l.below c (.inr hne), by simpa [Line.number, Line.below, hc] using hnumber, rfl⟩

/-- There is one piece more than there are line feeds. -/
theorem length_pieces (cs : List Char) :
    (Text.pieces '\n' cs).length = cs.count '\n' + 1 := by
  induction cs with
  | nil => rfl
  | cons c cs ih =>
    rw [Text.pieces]
    split
    · rename_i hc
      rw [hc, List.length_cons, ih, List.count_cons_self]
    · rename_i hc
      rw [List.count_cons_of_ne hc, ← ih]
      cases hpieces : Text.pieces '\n' cs with
      | nil => exact absurd hpieces (Text.pieces_ne_nil _ _)
      | cons q qs => rfl

/-! ## What the index says of a line -/

section Index

variable {s : String} (l : Line s.toList)

theorem lineCount_ofText (s : String) : (ofText s).lineCount = s.toList.count '\n' + 1 := by
  simp [lineCount, ofText, length_startsAfter]

theorem startsAfter_of_notMem {cs : List Char} (h : '\n' ∉ cs) (offset : Nat) :
    startsAfter offset cs = [] := by
  rw [← List.length_eq_zero_iff, length_startsAfter, List.count_eq_zero.mpr h]

/-- The index lists the lines before, then the line itself, and then those behind it. -/
theorem Line.starts_eq : (ofText s).starts =
    (0 :: (startsAfter 0 l.before ++
      startsAfter (l.before.length + l.chars.length) l.after)).toArray := by
  have hsplit : startsAfter 0 s.toList = startsAfter 0 (l.before ++ (l.chars ++ l.after)) :=
    congrArg (startsAfter 0) l.split
  rw [ofText, hsplit, startsAfter_append, startsAfter_append, startsAfter_of_notMem l.plain,
    List.nil_append, Nat.zero_add]

/-- What stands before a line ends where the last line starts that it holds. -/
theorem Line.getLastD_startsAfter : (startsAfter 0 l.before).getLastD 0 = l.before.length := by
  rcases List.eq_nil_or_concat l.before with hnil | ⟨front, c, hconcat⟩
  · rw [hnil]
    rfl
  · obtain rfl : c = '\n' := l.front c (by simp [hconcat])
    simp [hconcat, startsAfter_append, startsAfter]

/-- A line starts where the index says. -/
theorem Line.getElem?_starts :
    (ofText s).starts[l.number - 1]? = some l.before.length := by
  rw [l.starts_eq, List.getElem?_toArray, Line.number, Nat.add_sub_cancel, ← length_startsAfter 0,
    getElem?_length_cons_append, l.getLastD_startsAfter]

/-- The next line starts behind the line feed, if there is one. -/
theorem Line.getElem?_starts_number : (ofText s).starts[l.number]? =
    l.after.head?.map fun _ => l.before.length + l.chars.length + 1 := by
  have hnumber : l.number = (0 :: startsAfter 0 l.before).length := by
    rw [Line.number, List.length_cons, length_startsAfter]
  rw [l.starts_eq, List.getElem?_toArray, ← List.cons_append,
    List.getElem?_append_right (Nat.le_of_eq hnumber.symm), ← hnumber, Nat.sub_self]
  cases hafter : l.after with
  | nil => rfl
  | cons c after =>
    obtain rfl : c = '\n' := l.back c (by simp [hafter])
    simp [startsAfter]

/-- **The text of a line** is found by its number. -/
theorem Line.lineText_number : (ofText s).lineText l.number = String.ofList l.chars := by
  have hpositive : ¬ (l.number : Int) < 1 := by
    rw [Line.number]
    omega
  have hchars : (ofText s).chars = l.before ++ l.chars ++ l.after := by
    rw [List.append_assoc]
    exact l.split
  have hnext := l.getElem?_starts_number
  rw [lineText, if_neg hpositive, Int.toNat_natCast, l.getElem?_starts]
  dsimp only
  cases hafter : l.after with
  | nil =>
    rw [hafter, List.append_nil] at hchars
    rw [hafter] at hnext
    simp only [hnext, List.head?_nil, Option.map_none, hchars, List.take_length, List.drop_left]
  | cons c after =>
    rw [hafter] at hnext
    simp only [hnext, List.head?_cons, Option.map_some, Nat.add_sub_cancel, hchars]
    rw [List.take_left' List.length_append, List.drop_left]

/-- **The location of an offset in a line**: the number of the line, and the column from its
start. -/
theorem Line.location_add {j : Nat} (hj : j ≤ l.chars.length) :
    (ofText s).location ((l.before.length + j : Nat) : Int) = (l.number, j + 1) := by
  have hlength := congrArg List.length l.split
  rw [List.length_append, List.length_append] at hlength
  have htake : s.toList.take (l.before.length + j) = l.before ++ l.chars.take j := by
    refine (congrArg (List.take _) l.split).trans ?_
    rw [List.take_length_add_append, List.take_append_of_le_length hj]
  have hplain : '\n' ∉ l.chars.take j := fun h => l.plain (List.mem_of_mem_take h)
  rw [location_eq s (by omega), htake, Position.advanceAll_append,
    Position.column_advanceAll_of_notMem _ hplain, (column_advanceAll l.before).2,
    l.getLastD_startsAfter, Nat.sub_self, List.length_take_of_le hj, Position.line_advanceAll,
    Position.line_advanceAll, List.count_eq_zero.mpr hplain, Line.number, Position.start]
  rw [Prod.mk.injEq]
  dsimp only
  omega

end Index

/-! ## Offsets and locations -/

/-- Every number up to that of lines is the number of a line. -/
theorem exists_line_numbered {s : String} {n : Nat} (h : 1 ≤ n) (hn : n ≤ (ofText s).lineCount) :
    ∃ l : Line s.toList, l.number = n := by
  rw [lineCount_ofText, ← length_pieces] at hn
  have hlt : n - 1 < (Text.pieces '\n' s.toList).length := by omega
  obtain ⟨l, hl, -⟩ := exists_line_of_piece (List.getElem?_eq_getElem hlt)
  exact ⟨l, by omega⟩

theorem Line.number_le {s : String} (l : Line s.toList) : l.number ≤ (ofText s).lineCount := by
  have hcount : s.toList.count '\n' = (l.before ++ (l.chars ++ l.after)).count '\n' :=
    congrArg (List.count '\n') l.split
  rw [lineCount_ofText, hcount, List.count_append, Line.number]
  omega

/-- **Later offsets have later locations**, by lines first. -/
theorem strictMonoOn_location (s : String) :
    StrictMonoOn (fun o : Nat => toLex ((ofText s).location o)) (Set.Iic s.length) := by
  intro a ha b hb hlt
  rw [Set.mem_Iic, ← String.length_toList] at ha hb
  dsimp only
  rw [location_eq s ha, location_eq s hb]
  exact Position.start.place_take_lt hlt hb

/-- **Every line in every column** is the location of an offset, and nothing else is. -/
theorem bijOn_location (s : String) :
    Set.BijOn (fun o : Nat => (ofText s).location o) (Set.Iic s.length)
      {p | 1 ≤ p.1 ∧ p.1 ≤ (ofText s).lineCount ∧
        1 ≤ p.2 ∧ p.2 ≤ ((ofText s).lineText p.1).length + 1} := by
  -- maps there, one to one since it is increasing, and onto since every line has a start
  refine ⟨fun o ho => ?_, ?_, ?_⟩
  · rw [Set.mem_Iic, ← String.length_toList] at ho
    obtain ⟨l, j, hj, rfl⟩ := exists_line_at ho
    dsimp only
    rw [l.location_add hj, Set.mem_ofPred_eq, l.lineText_number, String.length_ofList]
    exact ⟨Nat.succ_pos _, l.number_le, Nat.succ_pos _, Nat.succ_le_succ hj⟩
  · exact fun a ha b hb h => (strictMonoOn_location s).injOn ha hb (congrArg toLex h)
  · rintro ⟨line, column⟩ ⟨hline, hcount, hcolumn, hlength⟩
    obtain ⟨l, rfl⟩ := exists_line_numbered hline hcount
    obtain ⟨j, rfl⟩ := Nat.exists_eq_add_of_le' hcolumn
    rw [l.lineText_number, String.length_ofList] at hlength
    have hj : j ≤ l.chars.length := Nat.le_of_succ_le_succ hlength
    have hsplit := congrArg List.length l.split
    rw [List.length_append, List.length_append, String.length_toList] at hsplit
    refine ⟨l.before.length + j, ?_, l.location_add hj⟩
    rw [Set.mem_Iic]
    omega

/-- The texts of the lines are what stands between the line feeds. -/
theorem map_lineText_range (s : String) :
    ((List.range (ofText s).lineCount).map fun k : Nat => (ofText s).lineText (k + 1)) =
      Text.divide '\n' s := by
  refine List.ext_getElem ?_ fun k hk hk' => ?_
  · rw [List.length_map, List.length_range, lineCount_ofText, Text.divide, List.length_map,
      length_pieces]
  · rw [Text.divide, List.length_map] at hk'
    obtain ⟨l, hnumber, hchars⟩ := exists_line_of_piece (List.getElem?_eq_getElem hk')
    simp only [Text.divide, List.getElem_map, List.getElem_range]
    rw [← hchars, ← l.lineText_number, hnumber, Int.natCast_succ]

/-- **The index charts the text**: its locations and the offsets of the text determine each
other. -/
structure Charts (ix : LineIndex) (s : String) : Prop where
  /-- A later offset of the text has a later location, by lines first. -/
  increasing : StrictMonoOn (fun o : Nat => toLex (ix.location o)) (Set.Iic s.length)
  /-- The locations of the offsets are the lines, each with the columns of its characters and the
  one behind them, and each of these is the location of one offset. -/
  bijective : Set.BijOn (fun o : Nat => ix.location o) (Set.Iic s.length)
    {p | 1 ≤ p.1 ∧ p.1 ≤ ix.lineCount ∧ 1 ≤ p.2 ∧ p.2 ≤ (ix.lineText p.1).length + 1}
  /-- The offset is as far behind the start of its line as its column says. -/
  recovered : ∀ o : Nat, o ≤ s.length → ∃ start, ix.starts[(ix.location o).1 - 1]? = some start ∧
    o = start + (ix.location o).2 - 1
  /-- An offset before the text has the location of its start, -/
  before : ∀ offset : Int, offset ≤ 0 → ix.location offset = ix.location 0
  /-- and one behind it that of its end. -/
  behind : ∀ offset : Int, s.length ≤ offset → ix.location offset = ix.location s.length
  /-- The lines with line feeds between them make up the text. -/
  joined : "\n".intercalate ((List.range ix.lineCount).map fun k : Nat => ix.lineText (k + 1)) = s

theorem location_clamp (s : String) (offset : Int) :
    (ofText s).location offset = (ofText s).location ((ofText s).clamp offset : Nat) := by
  have hclamp : (ofText s).clamp ((ofText s).clamp offset : Nat) = (ofText s).clamp offset := by
    rw [clamp, clamp, Int.toNat_natCast, Nat.min_assoc, Nat.min_self]
  rw [location, location, hclamp]

/-- **The line index of a text charts it.** -/
theorem charts_ofText (s : String) : (ofText s).Charts s where
  increasing := strictMonoOn_location s
  bijective := bijOn_location s
  recovered o ho := by
    rw [← String.length_toList] at ho
    obtain ⟨l, j, hj, rfl⟩ := exists_line_at ho
    rw [l.location_add hj]
    exact ⟨_, l.getElem?_starts, rfl⟩
  before offset h := by
    rw [location_clamp, clamp, Int.toNat_of_nonpos h, Nat.zero_min]
    rfl
  behind offset h := by
    have hlength : (ofText s).chars.length = s.length := String.length_toList
    rw [location_clamp, clamp, hlength, Nat.min_eq_right (by omega)]
  joined := by
    rw [map_lineText_range, ← String.toList_inj, String.toList_intercalate, Text.divide,
      List.map_map]
    have hpieces : (Text.pieces '\n' s.toList).map (String.toList ∘ String.ofList) =
        Text.pieces '\n' s.toList :=
      List.map_id'' (fun _ => String.toList_ofList) _
    rw [hpieces]
    exact Text.intercalate_pieces '\n' s.toList

end LineIndex

end KlarAudit

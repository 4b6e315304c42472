import KlarAudit.Proofs.Token.TakenWhole

/-!
# Character literals

A character literal is a character between single quotes, with a backslash before a single quote or
a backslash. Literals that are written one after another, with commas between them, are read as they
are written as long as none of them is the literal of the single quote. That one is not recognised:
what is escaped may be any character but a quote, so its first quote is left alone, and the quotes
behind it pair up with those of its neighbours.

## Main definitions

* `charLiteral c`: the literal of a character
* `charLiterals cs`: the literals of some characters, with commas between them

## Main results

* `takenWhole_charLiteral`: any other literal is taken whole
* `charLiterals_read_iff`: literals are read as they are written just if no quote is among them
-/

namespace KlarAudit

open Munch

/-- **The literal of a character.** -/
def charLiteral (c : Char) : List Char :=
  inQuotes '\'' [c]

/-- **The literals of some characters**, with commas between them. -/
def charLiterals (cs : List Char) : List Char :=
  [','].intercalate (cs.map charLiteral)

/-- The literals and the commas between them, as tokens without a place. -/
def charTokens (cs : List Char) : List (TokenKind × String) :=
  (cs.map fun c => (.literal, String.ofList (charLiteral c))).intersperse (.operator, ",")

theorem charLiteral_slash : charLiteral '\\' = ['\'', '\\', '\\', '\''] := by
  decide

theorem charLiteral_quote : charLiteral '\'' = ['\'', '\\', '\'', '\''] := by
  decide

theorem charLiteral_plain {c : Char} (hquote : c ≠ '\'') (hslash : c ≠ '\\') :
    charLiteral c = ['\'', c, '\''] := by
  simp [charLiteral, inQuotes, escapeFor, escapeChar, hquote, hslash]

/-! ## One literal -/

/-- **A character literal is taken whole**, unless it is that of the single quote. -/
theorem takenWhole_charLiteral {c : Char} (hquote : c ≠ '\'') (hline : c ≠ '\n')
    (rest : List Char) : TakenWhole .literal (charLiteral c) rest := by
  by_cases hslash : c = '\\'
  · subst hslash
    have hlen : charLength? ('\\' :: '\\' :: '\'' :: rest) = some 3 := by
      have hbody : escapeBody ('\\' :: '\'' :: rest) = ['\\'] := rfl
      rw [charLength?_escape, hbody]
      rfl
    rw [charLiteral_slash]
    apply takenWhole_of_munch (by decide)
    simp [munch, hlen]
  · have hlen : charLength? (c :: '\'' :: rest) = some 2 := by
      rw [charLength?_quote hslash, if_neg (by simp [hquote, hline])]
    rw [charLiteral_plain hquote hslash]
    apply takenWhole_of_munch (by decide)
    simp [munch, hlen]

/-- The literal of the single quote starts with a quote that is left alone. -/
theorem takenWhole_quoteAlone (rest : List Char) :
    TakenWhole .unknown ['\''] ('\\' :: '\'' :: '\'' :: rest) := by
  have hnone : charLength? ('\\' :: '\'' :: '\'' :: rest) = none := by
    have hbody : escapeBody ('\'' :: '\'' :: rest) = [] := rfl
    rw [charLength?_escape, hbody]
    rfl
  apply takenWhole_of_munch (by decide)
  simp [munch, hnone]

theorem takenWhole_comma (rest : List Char) : TakenWhole .operator [','] rest := by
  have hlong : longOperators.find? (fun op => op.toList.isPrefixOf (',' :: rest)) = none := by
    have hhead : ∀ op ∈ longOperators, op.toList.head?.any (· != ',') := by decide
    rw [List.find?_eq_none]
    intro op hop hprefix
    obtain ⟨c, hc, hne⟩ := (Option.any_eq_true _ _).mp (hhead op hop)
    obtain ⟨cs, hcs⟩ := List.head?_eq_some_iff.mp hc
    rw [hcs, List.isPrefixOf_cons_cons, Bool.and_eq_true, beq_iff_eq] at hprefix
    exact bne_iff_ne.mp hne hprefix.1
  apply takenWhole_of_munch (by decide)
  have hlen : operatorLength? ',' rest = some 0 := by
    rw [operatorLength?, hlong]
    rfl
  have hdigit : Text.isDigit ',' = false := by decide
  have hword : isWordStart ',' = false := by decide
  simp [munch, hdigit, hword, hlen]

/-! ## Literals one after another -/

theorem TakenWhole.written {kind : TokenKind} {cs rest : List Char}
    (h : TakenWhole kind cs rest) (p : Position) :
    (scanFrom p 0 (cs ++ rest)).map Token.written =
      (kind, String.ofList cs) :: (scanFrom (p.advanceAll cs) 0 rest).map Token.written := by
  rw [h p]
  rfl

theorem charLiterals_singleton (c : Char) : charLiterals [c] = charLiteral c := by
  simp [charLiterals]

theorem charLiterals_cons_cons (c d : Char) (cs : List Char) :
    charLiterals (c :: d :: cs) = charLiteral c ++ ([','] ++ charLiterals (d :: cs)) := by
  simp [charLiterals, List.intercalate]

theorem exists_charLiterals_cons (c : Char) (cs : List Char) :
    ∃ rest, charLiterals (c :: cs) = charLiteral c ++ rest := by
  cases cs with
  | nil => exact ⟨[], by rw [charLiterals_singleton, List.append_nil]⟩
  | cons d cs => exact ⟨_, charLiterals_cons_cons c d cs⟩

theorem exists_charTokens_cons (c : Char) (cs : List Char) :
    ∃ rest, charTokens (c :: cs) = (.literal, String.ofList (charLiteral c)) :: rest := by
  cases cs with
  | nil => exact ⟨[], rfl⟩
  | cons d cs => exact ⟨_, rfl⟩

/-- Scanning anywhere reads the literals as they are written, just if no quote is among them. -/
theorem written_scanFrom_charLiterals {cs : List Char} (h : '\n' ∉ cs) (p : Position) :
    (scanFrom p 0 (charLiterals cs)).map Token.written = charTokens cs ↔ '\'' ∉ cs := by
  -- Induction on the characters; the first quote among them decides.
  induction cs generalizing p with
  | nil => simp [charLiterals, charTokens, scanFrom]
  | cons c cs ih =>
    rw [List.mem_cons, not_or] at h
    obtain ⟨hline, hcs⟩ := h
    by_cases hquote : c = '\''
    · subst hquote
      obtain ⟨rest, hrest⟩ := exists_charLiterals_cons '\'' cs
      obtain ⟨more, hmore⟩ := exists_charTokens_cons '\'' cs
      have halone := (takenWhole_quoteAlone rest).written p
      rw [charLiteral_quote] at hrest
      refine iff_of_false (fun heq => ?_) fun hnot => hnot List.mem_cons_self
      rw [hrest, hmore] at heq
      exact absurd (List.cons.inj (halone.symm.trans heq)).1 (by simp)
    · rw [List.mem_cons, not_or, and_iff_right (Ne.symm hquote)]
      cases cs with
      | nil =>
        have hliteral := (takenWhole_charLiteral hquote (Ne.symm hline) []).written p
        rw [List.append_nil] at hliteral
        rw [charLiterals_singleton, hliteral]
        simp [charTokens, scanFrom]
      | cons d cs =>
        rw [charLiterals_cons_cons,
          (takenWhole_charLiteral hquote (Ne.symm hline) _).written p,
          (takenWhole_comma _).written, ← ih hcs ((p.advanceAll (charLiteral c)).advanceAll [','])]
        simp [charTokens]

/-- **Character literals are read as they are written**, each as one literal and with the commas
between them as operators, just if the single quote is none of the characters. -/
theorem charLiterals_read_iff {cs : List Char} (h : '\n' ∉ cs) :
    (scan (String.ofList (charLiterals cs))).map Token.written = charTokens cs ↔ '\'' ∉ cs := by
  rw [scan, String.toList_ofList]
  exact written_scanFrom_charLiterals h .start

/-- The literal of the single quote lays open the bracket in the literal behind it. -/
theorem not_read_quoteBeforeBracket :
    '\n' ∉ ['\'', '('] ∧ String.ofList (charLiterals ['\'', '(']) = "'\\'','('" ∧
    (scan "'\\'','('").map Token.written =
      [(.unknown, "'"), (.unknown, "\\"), (.unknown, "'"), (.literal, "','"), (.operator, "("),
       (.unknown, "'")] ∧
    (scan (String.ofList (charLiterals ['\'', '(']))).map Token.written ≠
      charTokens ['\'', '('] := by
  have hline : '\n' ∉ ['\'', '('] := by decide
  refine ⟨hline, by decide, by decide +kernel, fun hread => ?_⟩
  exact (charLiterals_read_iff hline).mp hread List.mem_cons_self

end KlarAudit

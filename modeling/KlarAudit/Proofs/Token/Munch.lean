import KlarAudit.Token.Scan

/-!
# What a token takes

How many characters a token takes is decided by the characters it takes and the one behind them. So
a line feed behind a text changes nothing in the tokens of the text, and more text behind the line
feed does not either. Two kinds of tokens are different: a string literal and a block comment that
nothing closes.

## Main definitions

* `closesBlock`: the block comment is closed
* `Munch.Open c cs`: what starts with `c` before `cs` is a string literal or a block comment that
  nothing closes
* `Token.isUnclosed`: the token has been left open

## Main results

* `munch_le`: a token takes no more characters than there are
* `munch_append_line`: a line feed and more text do not change a token before them
* `exists_scan_append_line`: the tokens of a text stay when text is put behind it on a new line
-/

namespace KlarAudit

namespace Munch

variable {c b : Char} {cs ds : List Char}

/-! ## Runs of characters -/

theorem takeWhile_append_stop {p : Char → Bool} (hb : p b = false) :
    (cs ++ b :: ds).takeWhile p = cs.takeWhile p := by
  induction cs with
  | nil => simp [hb]
  | cons c cs ih => by_cases hc : p c <;> simp [hc, ih]

theorem runLength_append {p : Char → Bool} (hb : p b = false) :
    runLength p (cs ++ b :: ds) = runLength p cs := by
  rw [runLength, runLength, takeWhile_append_stop hb]

theorem runLength_le (p : Char → Bool) (cs : List Char) : runLength p cs ≤ cs.length :=
  (List.takeWhile_prefix p).length_le

theorem restOfLine_append : restOfLine (cs ++ '\n' :: ds) = restOfLine cs :=
  takeWhile_append_stop (by decide)

theorem restOfLine_le (cs : List Char) : (restOfLine cs).length ≤ cs.length :=
  (List.takeWhile_prefix _).length_le

/-- A word that does not hold the character behind a text is found in front of the text only. -/
theorem isPrefixOf_append {s : List Char} (hb : b ∉ s) :
    s.isPrefixOf (cs ++ b :: ds) = s.isPrefixOf cs := by
  induction s generalizing cs with
  | nil => cases cs <;> rfl
  | cons a s ih =>
    have hne : (a == b) = false := by
      rw [beq_eq_false_iff_ne]
      rintro rfl
      exact hb List.mem_cons_self
    cases cs with
    | nil =>
      show (a == b && _) = false
      rw [hne, Bool.false_and]
    | cons c cs =>
      simp only [List.cons_append, List.isPrefixOf_cons_cons]
      rw [ih fun h => hb (List.mem_cons_of_mem a h)]

theorem find?_congr {α : Type} {p q : α → Bool} {xs : List α} (h : ∀ x ∈ xs, p x = q x) :
    xs.find? p = xs.find? q := by
  induction xs with
  | nil => rfl
  | cons x xs ih =>
    rw [List.find?_cons, List.find?_cons, h x List.mem_cons_self,
      ih fun y hy => h y (List.mem_cons_of_mem x hy)]

theorem find?_isPrefixOf_append {words : List String} (hb : ∀ s ∈ words, b ∉ s.toList) :
    (words.find? fun s => s.toList.isPrefixOf (cs ++ b :: ds)) =
      words.find? fun s => s.toList.isPrefixOf cs :=
  find?_congr fun s hs => isPrefixOf_append (hb s hs)

theorem length_le_of_find? {words : List String} {s : String}
    (h : (words.find? fun s => s.toList.isPrefixOf cs) = some s) : s.length ≤ cs.length := by
  have hprefix : s.toList.isPrefixOf cs :=
    List.find?_some (p := fun s : String => s.toList.isPrefixOf cs) h
  rw [← String.length_toList]
  exact (List.isPrefixOf_iff_prefix.mp hprefix).length_le

theorem head?_append (hb : (b == c) = false) :
    ((cs ++ b :: ds).head? == some c) = (cs.head? == some c) := by
  cases cs with
  | nil => simpa using hb
  | cons _ _ => rfl

/-! ## Comments and literals -/

/-- **The block comment is closed** by the characters after its opening mark; `depth` counts the
comments around the innermost open one. -/
def closesBlock (depth : Nat) : List Char → Bool
  | [] => false
  | '/' :: '*' :: cs => closesBlock (depth + 1) cs
  | '*' :: '/' :: cs => match depth with
    | 0 => true
    | depth + 1 => closesBlock depth cs
  | _ :: cs => closesBlock depth cs

theorem blockLength_le (depth : Nat) (cs : List Char) : blockLength depth cs ≤ cs.length := by
  fun_induction blockLength depth cs <;>
    simp only [List.length_cons, List.length_nil] at * <;> omega

theorem blockLength_cons (depth : Nat) (h₁ : ∀ ds, c = '/' → cs = '*' :: ds → False)
    (h₂ : ∀ ds, c = '*' → cs = '/' :: ds → False) :
    blockLength depth (c :: cs) = blockLength depth cs + 1 := by
  rw [blockLength] <;> assumption

/-- A block comment that nothing closes extends to the end of the text. -/
theorem blockLength_of_open {depth : Nat} (h : closesBlock depth cs = false) :
    blockLength depth cs = cs.length := by
  fun_induction closesBlock depth cs with
  | case1 => rfl
  | case2 depth cs ih => rw [blockLength, ih h]; rfl
  | case3 cs => cases h
  | case4 cs depth ih => rw [blockLength, ih h]; rfl
  | case5 depth c cs h₁ h₂ ih => rw [blockLength_cons depth h₁ h₂, ih h]; rfl

/-- A closed block comment ends where it ends, whatever follows. -/
theorem blockLength_append {depth : Nat} (h : closesBlock depth cs) (ds : List Char) :
    blockLength depth (cs ++ ds) = blockLength depth cs := by
  fun_induction closesBlock depth cs with
  | case1 => cases h
  | case2 depth cs ih => simp only [List.cons_append, blockLength, ih h]
  | case3 cs => simp only [List.cons_append, blockLength]
  | case4 cs depth ih => simp only [List.cons_append, blockLength, ih h]
  | case5 depth c cs h₁ h₂ ih =>
    cases cs with
    | nil => cases h
    | cons d cs =>
      rw [blockLength_cons depth h₁ h₂, ← ih h, List.cons_append]
      refine blockLength_cons depth ?_ ?_
      · rintro _ rfl ⟨⟩
        exact h₁ _ rfl rfl
      · rintro _ rfl ⟨⟩
        exact h₂ _ rfl rfl

theorem stringLength?_le {n : Nat} (h : stringLength? cs = some n) : n ≤ cs.length := by
  fun_induction stringLength? cs generalizing n with
  | case1 => cases h
  | case2 cs => cases h; simp
  | case3 => cases h
  | case4 c cs ih =>
    obtain ⟨k, hk, rfl⟩ := Option.map_eq_some_iff.mp h
    exact Nat.add_le_add_right (ih hk) 2
  | case5 c cs _ _ _ ih =>
    obtain ⟨k, hk, rfl⟩ := Option.map_eq_some_iff.mp h
    exact Nat.add_le_add_right (ih hk) 1

/-- A closed string literal ends where it ends, whatever follows. -/
theorem stringLength?_append {n : Nat} (h : stringLength? cs = some n) (ds : List Char) :
    stringLength? (cs ++ ds) = some n := by
  fun_induction stringLength? cs generalizing n with
  | case1 => cases h
  | case2 cs => cases h; rfl
  | case3 => cases h
  | case4 c cs ih =>
    obtain ⟨k, hk, rfl⟩ := Option.map_eq_some_iff.mp h
    simp only [List.cons_append, stringLength?, ih hk, Option.map_some]
  | case5 c cs h₁ h₂ h₃ ih =>
    obtain ⟨k, hk, rfl⟩ := Option.map_eq_some_iff.mp h
    rw [List.cons_append, stringLength?, ih hk, Option.map_some]
    · exact h₁
    · rintro rfl hnil
      exact h₂ rfl (List.append_eq_nil_iff.mp hnil).1
    · rintro d rest rfl hcons
      cases cs with
      | nil => exact h₂ rfl rfl
      | cons e cs => exact h₃ _ _ rfl rfl

/-- The characters of a character literal up to a quote or the end of the line. -/
abbrev escapeBody (cs : List Char) : List Char :=
  cs.takeWhile fun c => c ≠ '\'' && c ≠ '\n'

theorem charLength?_escape (cs : List Char) : charLength? ('\\' :: cs) =
    if 1 ≤ (escapeBody cs).length && (escapeBody cs).length ≤ 10 &&
      (cs.drop (escapeBody cs).length).head? == some '\'' then
      some ((escapeBody cs).length + 2)
    else none := rfl

theorem charLength?_quote (hc : c ≠ '\\') (cs : List Char) : charLength? (c :: '\'' :: cs) =
    if c = '\'' || c = '\n' then none else some 2 := by
  rw [charLength?]
  exact hc

theorem charLength?_of_ne {d : Char} (hc : c ≠ '\\') (hd : d ≠ '\'') (cs : List Char) :
    charLength? (c :: d :: cs) = none := by
  rw [charLength?]
  · exact fun _ h => absurd (List.cons.inj h).1 hc
  · exact fun _ _ h => absurd (List.cons.inj (List.cons.inj h).2).1 hd

theorem charLength?_singleton (hc : c ≠ '\\') : charLength? [c] = none := by
  rw [charLength?]
  · exact fun _ h => absurd (List.cons.inj h).1 hc
  · rintro _ _ ⟨⟩

theorem charLength?_le {n : Nat} (h : charLength? cs = some n) : n ≤ cs.length := by
  unfold charLength? at h
  split at h
  · rename_i cs
    change (if _ then _ else _) = some n at h
    split at h
    · rename_i hbody
      cases h
      simp only [Bool.and_eq_true, beq_iff_eq] at hbody
      obtain ⟨rest, hrest⟩ := List.head?_eq_some_iff.mp hbody.2
      have := congrArg List.length hrest
      simp only [List.length_drop, List.length_cons] at *
      omega
    · cases h
  · split at h <;> cases h
    simp
  · cases h

theorem charLength?_append : charLength? (cs ++ '\n' :: ds) = charLength? cs := by
  -- the literal is decided by two characters, and the second may be the line feed
  cases cs with
  | nil =>
    cases ds with
    | nil => rfl
    | cons d ds =>
      by_cases hd : d = '\''
      · subst hd
        rfl
      · exact charLength?_of_ne (by decide) hd ds
  | cons c cs =>
    by_cases hc : c = '\\'
    · subst hc
      have hbody : escapeBody (cs ++ '\n' :: ds) = escapeBody cs :=
        takeWhile_append_stop (by decide)
      have hle : (escapeBody cs).length ≤ cs.length := (List.takeWhile_prefix _).length_le
      rw [List.cons_append, charLength?_escape, charLength?_escape, hbody,
        List.drop_append_of_le_length hle, head?_append (by decide)]
    · cases cs with
      | nil =>
        rw [charLength?_singleton hc]
        exact charLength?_of_ne hc (by decide) ds
      | cons d cs =>
        by_cases hd : d = '\''
        · subst hd
          rw [charLength?_quote hc]
          exact charLength?_quote hc _
        · rw [charLength?_of_ne hc hd]
          exact charLength?_of_ne hc hd _

/-! ## Numbers -/

theorem basedLength?_le {n : Nat} (h : basedLength? c cs = some n) : n ≤ cs.length := by
  unfold basedLength? at h
  split at h
  · cases h
  · cases cs with
    | nil => cases h
    | cons mark body =>
      obtain ⟨-, h⟩ := Option.ite_none_left_eq_some.mp h
      cases h
      have hhex := runLength_le isHexBody body
      have hbinary := runLength_le isBinaryBody body
      have hoctal := runLength_le isOctalBody body
      simp only [List.length_cons, Nat.add_le_add_iff_right]
      -- whichever base the letter names
      split
      · exact hhex
      · split
        · exact hbinary
        · split
          · exact hoctal
          · exact Nat.zero_le _

theorem basedLength?_append : basedLength? c (cs ++ '\n' :: ds) = basedLength? c cs := by
  unfold basedLength?
  split
  · rfl
  · cases cs with
    | nil => rfl
    | cons mark body =>
      simp only [List.cons_append, runLength_append (show isHexBody '\n' = false by decide),
        runLength_append (show isBinaryBody '\n' = false by decide),
        runLength_append (show isOctalBody '\n' = false by decide)]

theorem fractionLength_le (cs : List Char) : fractionLength cs ≤ cs.length := by
  unfold fractionLength
  split
  · rename_i cs
    have := runLength_le isDecimalBody cs
    simp only [List.length_cons]
    split <;> omega
  · exact Nat.zero_le _

theorem fractionLength_append : fractionLength (cs ++ '\n' :: ds) = fractionLength cs := by
  cases cs with
  | nil => rfl
  | cons a cs =>
    by_cases ha : a = '.'
    · subst ha
      cases cs with
      | nil =>
        have hdigit : Text.isDigit '\n' = false := by decide
        cases ds with
        | nil => rfl
        | cons _ _ => simp [fractionLength, hdigit]
      | cons d cs =>
        show (if Text.isDigit d then runLength isDecimalBody (cs ++ '\n' :: ds) + 2 else 0) = _
        rw [runLength_append (show isDecimalBody '\n' = false by decide)]
        rfl
    · have hnone (cs : List Char) : fractionLength (a :: cs) = 0 := by
        rw [fractionLength]
        exact fun _ _ h => absurd (List.cons.inj h).1 ha
      rw [hnone, List.cons_append, hnone]

theorem exponentLength_le (cs : List Char) : exponentLength cs ≤ cs.length := by
  cases cs with
  | nil => exact Nat.zero_le _
  | cons e cs =>
    dsimp only [exponentLength]
    generalize (if cs.head? == some '+' || cs.head? == some '-' then 1 else 0) = sign
    have hrun := runLength_le Text.isDigit (cs.drop sign)
    simp only [List.length_cons, List.length_drop] at *
    split
    · split <;> omega
    · omega

theorem exponentLength_append : exponentLength (cs ++ '\n' :: ds) = exponentLength cs := by
  cases cs with
  | nil => rfl
  | cons e cs =>
    have hsign : ((cs ++ '\n' :: ds).head? == some '+' || (cs ++ '\n' :: ds).head? == some '-') =
        (cs.head? == some '+' || cs.head? == some '-') := by
      rw [head?_append (by decide), head?_append (by decide)]
    have hle : (if cs.head? == some '+' || cs.head? == some '-' then 1 else 0) ≤ cs.length := by
      cases cs with
      | nil => simp
      | cons _ _ => split <;> simp
    simp only [List.cons_append, exponentLength, hsign, List.drop_append_of_le_length hle,
      runLength_append (show Text.isDigit '\n' = false by decide)]

theorem suffixLength_le (cs : List Char) : suffixLength cs ≤ cs.length := by
  unfold suffixLength
  split
  · rename_i s hs
    exact length_le_of_find? hs
  · exact Nat.zero_le _

theorem suffixLength_append : suffixLength (cs ++ '\n' :: ds) = suffixLength cs := by
  rw [suffixLength, suffixLength, find?_isPrefixOf_append (by decide)]

/-- The length of a number without its type. -/
def plainLength (c : Char) (cs : List Char) : Nat :=
  match basedLength? c cs with
  | some n => n
  | none =>
    let whole := runLength isDecimalBody cs
    let fraction := fractionLength (cs.drop whole)
    whole + fraction + exponentLength (cs.drop (whole + fraction))

theorem numberLength_eq (c : Char) (cs : List Char) : numberLength c cs =
    plainLength c cs + suffixLength (cs.drop (plainLength c cs)) := rfl

theorem wholeLength_le (cs : List Char) :
    runLength isDecimalBody cs + fractionLength (cs.drop (runLength isDecimalBody cs)) ≤
      cs.length := by
  have hwhole := runLength_le isDecimalBody cs
  have hfraction := fractionLength_le (cs.drop (runLength isDecimalBody cs))
  simp only [List.length_drop] at *
  omega

theorem plainLength_le (c : Char) (cs : List Char) : plainLength c cs ≤ cs.length := by
  unfold plainLength
  split
  · rename_i n hn
    exact basedLength?_le hn
  · have hwhole := wholeLength_le cs
    have hexponent := exponentLength_le (cs.drop (runLength isDecimalBody cs +
      fractionLength (cs.drop (runLength isDecimalBody cs))))
    simp only [List.length_drop] at *
    omega

theorem plainLength_append : plainLength c (cs ++ '\n' :: ds) = plainLength c cs := by
  have hrun : runLength isDecimalBody (cs ++ '\n' :: ds) = runLength isDecimalBody cs :=
    runLength_append (by decide)
  simp only [plainLength, basedLength?_append, hrun,
    List.drop_append_of_le_length (runLength_le isDecimalBody cs), fractionLength_append,
    List.drop_append_of_le_length (wholeLength_le cs), exponentLength_append]

theorem numberLength_le (c : Char) (cs : List Char) : numberLength c cs ≤ cs.length := by
  have hplain := plainLength_le c cs
  have hsuffix := suffixLength_le (cs.drop (plainLength c cs))
  simp only [numberLength_eq, List.length_drop] at *
  omega

theorem numberLength_append : numberLength c (cs ++ '\n' :: ds) = numberLength c cs := by
  rw [numberLength_eq, numberLength_eq, plainLength_append,
    List.drop_append_of_le_length (plainLength_le c cs), suffixLength_append]

/-! ## Operators -/

theorem operatorLength?_le {n : Nat} (h : operatorLength? c cs = some n) : n ≤ cs.length := by
  unfold operatorLength? at h
  split at h
  · rename_i op hop
    cases h
    have := length_le_of_find? hop
    simp only [List.length_cons] at this
    omega
  · split at h <;> cases h
    exact Nat.zero_le _

theorem operatorLength?_append (hb : ∀ op ∈ longOperators, b ∉ op.toList) :
    operatorLength? c (cs ++ b :: ds) = operatorLength? c cs := by
  rw [operatorLength?, operatorLength?, ← List.cons_append, find?_isPrefixOf_append hb]

end Munch

/-! ## Tokens -/

open Munch

variable {c : Char} {cs ds : List Char}

/-- What starts with `c` before `cs` is a string literal or a block comment that nothing closes. -/
def Munch.Open (c : Char) (cs : List Char) : Prop :=
  c = '"' ∧ stringLength? cs = none ∨
    c = '/' ∧ cs.head? = some '*' ∧ closesBlock 0 cs.tail = false

/-- **A token takes no more characters than there are.** -/
theorem munch_le (c : Char) (cs : List Char) : (munch c cs).2 ≤ cs.length := by
  unfold munch
  split
  · exact restOfLine_le cs
  · split
    · rename_i h
      have hblock := blockLength_le 0 cs.tail
      cases cs with
      | nil => simp at h
      | cons d cs => exact Nat.add_le_add_right hblock 1
    · split
      · split
        · rename_i n hn
          exact stringLength?_le hn
        · exact restOfLine_le cs
      · split
        · split
          · rename_i n hn
            exact charLength?_le hn
          · exact Nat.zero_le _
        · split
          · exact numberLength_le c cs
          · split
            · exact runLength_le isWordBody cs
            · split
              · rename_i n hn
                exact operatorLength?_le hn
              · exact Nat.zero_le _

/-- **A line feed and more text do not change a token before them**, unless it is a string literal
or a block comment that nothing closes. -/
theorem munch_append_line (h : ¬ Open c cs) (ds : List Char) :
    munch c (cs ++ '\n' :: ds) = munch c cs := by
  -- each reader stops at a line feed, so that what stands behind one is not seen
  have hslash : ((cs ++ '\n' :: ds).head? == some '/') = (cs.head? == some '/') :=
    head?_append (by decide)
  have hstar : ((cs ++ '\n' :: ds).head? == some '*') = (cs.head? == some '*') :=
    head?_append (by decide)
  have hword : runLength isWordBody (cs ++ '\n' :: ds) = runLength isWordBody cs :=
    runLength_append (by decide)
  have hoperator : operatorLength? c (cs ++ '\n' :: ds) = operatorLength? c cs :=
    operatorLength?_append (by decide)
  simp only [munch, hslash, hstar, hword, hoperator, restOfLine_append, charLength?_append,
    numberLength_append, List.take_append_of_le_length (runLength_le isWordBody cs)]
  split
  · rfl
  · split
    · rename_i hblock
      simp only [Bool.and_eq_true, decide_eq_true_eq, beq_iff_eq] at hblock
      obtain ⟨cs', rfl⟩ := List.head?_eq_some_iff.mp hblock.2
      have hclosed : closesBlock 0 cs' := by
        rw [← Bool.not_eq_false]
        exact fun hopen => h (.inr ⟨hblock.1, rfl, hopen⟩)
      simp only [List.cons_append, List.tail_cons, blockLength_append hclosed, List.take_succ_cons,
        List.take_append_of_le_length (blockLength_le 0 cs')]
    · split
      · rename_i hquote
        cases hs : stringLength? cs with
        | none => exact absurd (.inl ⟨hquote, hs⟩) h
        | some n => rw [stringLength?_append hs]
      · rfl

/-! ## Text behind a text -/

/-- **The token is not closed**: it is a block comment without its end, or no string literal
although it starts as one. -/
def Token.isUnclosed (t : Token) : Bool :=
  match t.text.toList with
  | '"' :: _ => t.kind == .unknown
  | '/' :: '*' :: cs => !closesBlock 0 cs
  | _ => false

/-- What nothing closes leaves a token that is not closed. -/
theorem isUnclosed_of_open (h : Open c cs) (p : Position) :
    (Token.mk (munch c cs).1 (String.ofList (c :: cs.take (munch c cs).2)) p).isUnclosed := by
  rcases h with ⟨rfl, hs⟩ | ⟨rfl, hhead, hopen⟩
  · have hm : munch '"' cs = (.unknown, (restOfLine cs).length) := by
      simp [munch, hs]
    simp [hm, Token.isUnclosed]
  · obtain ⟨cs, rfl⟩ := List.head?_eq_some_iff.mp hhead
    rw [List.tail_cons] at hopen
    have hm : (munch '/' ('*' :: cs)).2 = cs.length + 1 := by
      have hlen := blockLength_of_open hopen
      simp [munch, hlen]
    simp [hm, Token.isUnclosed, hopen]

/-- The tokens of a text, behind a line feed, come after the tokens in front of it. -/
theorem scanFrom_append_line {p : Position} {n : Nat} (hn : n ≤ cs.length)
    (h : ∀ t ∈ scanFrom p n cs, ¬ t.isUnclosed) (ds : List Char) :
    scanFrom p n (cs ++ '\n' :: ds) =
      scanFrom p n cs ++ scanFrom (p.advanceAll cs) 0 ('\n' :: ds) := by
  induction cs generalizing p n with
  | nil =>
    obtain rfl : n = 0 := by simpa using hn
    rfl
  | cons c cs ih =>
    cases n with
    | succ n => exact ih (Nat.le_of_succ_le_succ hn) h
    | zero =>
      simp only [List.cons_append, scanFrom, Position.advanceAll_cons] at h ⊢
      split
      · rename_i hb
        rw [if_pos hb] at h
        exact ih (Nat.zero_le _) h
      · rename_i hb
        rw [if_neg hb] at h
        -- a token that runs to the end of the text may grow, and the hypothesis excludes it
        have hclosed : ¬ Open c cs := fun hopen =>
          h _ List.mem_cons_self (isUnclosed_of_open hopen p)
        rw [munch_append_line hclosed, List.take_append_of_le_length (munch_le c cs),
          ih (munch_le c cs) fun t ht => h t (List.mem_cons_of_mem _ ht)]
        rfl

/-- **The tokens of a text stay** when another text is put behind it on a new line, if they are
closed. -/
theorem exists_scan_append_line {a : String} (h : ∀ t ∈ scan a, ¬ t.isUnclosed) (b : String) :
    ∃ more, scan (a ++ "\n" ++ b) = scan a ++ more := by
  have happend := scanFrom_append_line (Nat.zero_le _) h b.toList
  rw [scan, String.toList_append, String.toList_append, List.append_assoc]
  exact ⟨_, happend⟩

end KlarAudit

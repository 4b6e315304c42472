import KlarAudit.Grammar.Delimiter

/-!
# How runs of tokens nest

A run of tokens moves a stack of open brackets. What a parser takes is described by the pairs that
are open before and after it, whatever else is open around them. Braces can also be counted on
their own, without looking at the other pairs.

## Main definitions

* `Shifts a b ts`: the run `ts` turns the open pairs `a` into `b`
* `Partners ts k m`: the brackets at `k` and `m` belong together
* `CountsBrackets f`: a reader that counts open brackets, whatever their kind
* `bracesAfter depth ts`: the number of open braces after `ts`, counting braces only

## Main results

* `wellNested_iff_shifts`: a well-nested run is one that turns no open pair into no open pair
* `CountsBrackets.append_of_nestAll`: counting brackets agrees with nesting them
* `bracesAfter_of_nestAll`: nesting agrees with the count of braces
-/

namespace KlarAudit

/-! ## Opening and closing tokens -/

theorem Token.opens?_eq_some_iff {t : Token} {d : Delimiter} :
    t.opens? = some d ↔ t.kind = .operator ∧ t.text = d.opener := by
  unfold Token.opens?
  split
  · rename_i hk
    cases d <;> simp only [hk, true_and, Delimiter.all, List.find?, Delimiter.opener] <;> grind
  · rename_i hk
    simp [hk]

theorem Token.closes?_eq_some_iff {t : Token} {d : Delimiter} :
    t.closes? = some d ↔ t.kind = .operator ∧ t.text = d.closer := by
  unfold Token.closes?
  split
  · rename_i hk
    cases d <;> simp only [hk, true_and, Delimiter.all, List.find?, Delimiter.closer] <;> grind
  · rename_i hk
    simp [hk]

theorem Delimiter.opener_ne_closer (d e : Delimiter) : d.opener ≠ e.closer := by
  cases d <;> cases e <;> decide

theorem Token.opens?_eq_none_of_closes? {t : Token} {d : Delimiter} (h : t.closes? = some d) :
    t.opens? = none := by
  rw [Option.eq_none_iff_forall_ne_some]
  intro e he
  rw [opens?_eq_some_iff] at he
  rw [closes?_eq_some_iff] at h
  exact Delimiter.opener_ne_closer e d (he.2.symm.trans h.2)

theorem nest_of_opens? {t : Token} {d : Delimiter} (h : t.opens? = some d) (stack : List Token) :
    nest stack t = some (t :: stack) := by
  simp [nest, h]

theorem nest_of_closes? {t o : Token} {d : Delimiter} (h : t.closes? = some d)
    (ho : o.opens? = some d) (stack : List Token) : nest (o :: stack) t = some stack := by
  simp [nest, h, ho, Token.opens?_eq_none_of_closes? h]

theorem nest_of_plain {t : Token} (ho : t.opens? = none) (hc : t.closes? = none)
    (stack : List Token) : nest stack t = some stack := by
  simp [nest, ho, hc]

/-- What one token does to a stack: it opens a pair, closes the innermost one, or neither. -/
theorem nest_cases {stack stack' : List Token} {t : Token} (h : nest stack t = some stack') :
    (∃ d, t.opens? = some d ∧ stack' = t :: stack) ∨
    (t.opens? = none ∧ t.closes? = none ∧ stack' = stack) ∨
    (∃ d o, t.opens? = none ∧ t.closes? = some d ∧ o.opens? = some d ∧ stack = o :: stack') := by
  unfold nest at h
  split at h
  · rename_i hd
    exact .inl ⟨_, hd, by simpa using h.symm⟩
  · rename_i ho hc
    exact .inr (.inl ⟨ho, hc, by simpa using h.symm⟩)
  · cases h
  · rename_i d o outer ho hc
    split at h
    · rename_i hd
      cases h
      exact .inr (.inr ⟨d, o, ho, hc, hd, rfl⟩)
    · cases h

/-- What lies below a stack does not matter as long as the stack suffices. -/
theorem nest_append {stack stack' : List Token} {t : Token} (h : nest stack t = some stack')
    (below : List Token) : nest (stack ++ below) t = some (stack' ++ below) := by
  rcases nest_cases h with ⟨d, ho, rfl⟩ | ⟨ho, hc, rfl⟩ | ⟨d, o, -, hc, ho, rfl⟩
  · exact nest_of_opens? ho _
  · exact nest_of_plain ho hc _
  · exact nest_of_closes? hc ho _

theorem nestAll_append_stack {stack stack' ts : List Token} (h : nestAll stack ts = some stack')
    (below : List Token) : nestAll (stack ++ below) ts = some (stack' ++ below) := by
  induction ts generalizing stack with
  | nil => cases h; rfl
  | cons t ts ih =>
    obtain ⟨mid, hm, h⟩ := Option.bind_eq_some_iff.mp h
    rw [nestAll_cons, nest_append hm below]
    exact ih h

/-- A run that nests has prefixes that nest. -/
theorem exists_nestAll_of_append {stack stack' ts us : List Token}
    (h : nestAll stack (ts ++ us) = some stack') : ∃ mid, nestAll stack ts = some mid := by
  rw [nestAll_append] at h
  obtain ⟨mid, hm, -⟩ := Option.bind_eq_some_iff.mp h
  exact ⟨mid, hm⟩

/-! ## Runs between open pairs -/

/-- **The run `ts` turns the open pairs `a` into `b`**, innermost first: started inside tokens that
open the pairs `a`, it ends inside tokens that open the pairs `b`. -/
def Shifts (a b : List Delimiter) (ts : List Token) : Prop :=
  ∀ stack : List Token, stack.map Token.opens? = a.map some →
    ∃ stack', stack'.map Token.opens? = b.map some ∧ nestAll stack ts = some stack'

theorem Shifts.nil (a : List Delimiter) : Shifts a a [] :=
  fun stack h => ⟨stack, h, rfl⟩

theorem Shifts.append {a b c : List Delimiter} {ts us : List Token} (h : Shifts a b ts)
    (k : Shifts b c us) : Shifts a c (ts ++ us) := by
  intro stack hs
  obtain ⟨mid, hm, h⟩ := h stack hs
  obtain ⟨stack', hs', k⟩ := k mid hm
  exact ⟨stack', hs', by rw [nestAll_append, h]; exact k⟩

/-- A run that needs only the pairs `a` does not see the pairs around them. -/
theorem Shifts.frame {a b : List Delimiter} {ts : List Token} (h : Shifts a b ts)
    (c : List Delimiter) : Shifts (a ++ c) (b ++ c) ts := by
  intro stack hs
  rw [List.map_append] at hs
  -- the stack falls into a part that opens `a`, which the run sees, and a part that opens `c`
  obtain ⟨inner, outer, rfl, hi, ho⟩ := List.map_eq_append_iff.mp hs
  obtain ⟨inner', hi', h⟩ := h inner hi
  exact ⟨inner' ++ outer, by rw [List.map_append, hi', ho, List.map_append],
    nestAll_append_stack h outer⟩

/-- A well-nested run leaves everything as it is. -/
theorem Shifts.around {ts : List Token} (h : Shifts [] [] ts) (a : List Delimiter) :
    Shifts a a ts := by
  simpa using h.frame a

theorem shifts_of_opens? {t : Token} {d : Delimiter} (h : t.opens? = some d)
    (a : List Delimiter) : Shifts a (d :: a) [t] := by
  intro stack hs
  refine ⟨t :: stack, by rw [List.map_cons, h, hs, List.map_cons], ?_⟩
  rw [nestAll_cons, nest_of_opens? h]
  rfl

theorem shifts_of_closes? {t : Token} {d : Delimiter} (h : t.closes? = some d)
    (a : List Delimiter) : Shifts (d :: a) a [t] := by
  intro stack hs
  obtain ⟨o, outer, rfl, ho, hs⟩ := List.map_eq_cons_iff.mp hs
  refine ⟨outer, hs, ?_⟩
  rw [nestAll_cons, nest_of_closes? h ho]
  rfl

theorem shifts_of_plain {t : Token} (ho : t.opens? = none) (hc : t.closes? = none)
    (a : List Delimiter) : Shifts a a [t] := by
  intro stack hs
  refine ⟨stack, hs, ?_⟩
  rw [nestAll_cons, nest_of_plain ho hc]
  rfl

/-- **A well-nested run** is one that turns no open pair into no open pair. -/
theorem wellNested_iff_shifts {ts : List Token} : WellNested ts ↔ Shifts [] [] ts := by
  constructor
  · intro h stack hs
    obtain rfl := List.map_eq_nil_iff.mp hs
    exact ⟨[], rfl, h⟩
  · intro h
    obtain ⟨stack, hs, h⟩ := h [] rfl
    obtain rfl := List.map_eq_nil_iff.mp hs
    exact h

/-- **Partners**: the token at `k` opens the pair that the token at `m` closes, and what stands
between the two is well nested. -/
def Partners (ts : List Token) (k m : Nat) : Prop :=
  ∃ before o inner c after d, ts = before ++ o :: (inner ++ c :: after) ∧ before.length = k ∧
    k + 1 + inner.length = m ∧ o.opens? = some d ∧ c.closes? = some d ∧ WellNested inner

/-! ## Counting brackets -/

/-- **A reader that counts the open brackets**, whatever their kind: where one is open, it keeps the
tokens that it goes over. -/
structure CountsBrackets (f : Nat → List Token → List Token) : Prop where
  /-- An opening bracket counts. -/
  opens {t : Token} {d : Delimiter} (h : t.opens? = some d) (depth : Nat) (rest : List Token) :
    f (depth + 1) (t :: rest) = t :: f (depth + 2) rest
  /-- A closing bracket counts back. -/
  closes {t : Token} {d : Delimiter} (h : t.closes? = some d) (depth : Nat) (rest : List Token) :
    f (depth + 2) (t :: rest) = t :: f (depth + 1) rest
  /-- No other token counts. -/
  plain {t : Token} (ho : t.opens? = none) (hc : t.closes? = none) (depth : Nat)
    (rest : List Token) : f (depth + 1) (t :: rest) = t :: f (depth + 1) rest

/-- **Counting brackets agrees with nesting them**: inside brackets, a run that nests is kept. -/
theorem CountsBrackets.append_of_nestAll {f : Nat → List Token → List Token} (hf : CountsBrackets f)
    {stack stack' ts : List Token} (h : nestAll stack ts = some stack') (depth : Nat)
    (rest : List Token) :
    f (stack.length + depth + 1) (ts ++ rest) = ts ++ f (stack'.length + depth + 1) rest := by
  induction ts generalizing stack with
  | nil =>
    cases h
    rfl
  | cons t ts ih =>
    -- the count is the number of open brackets, and of those that were open before
    obtain ⟨mid, hmid, hts⟩ := Option.bind_eq_some_iff.mp h
    rw [List.cons_append, List.cons_append]
    rcases nest_cases hmid with ⟨d, ho, rfl⟩ | ⟨ho, hc, rfl⟩ | ⟨d, o, -, hc, -, rfl⟩
    · rw [hf.opens ho, ← ih hts, List.length_cons, Nat.add_right_comm stack.length 1 depth]
    · rw [hf.plain ho hc, ih hts]
    · rw [← ih hts, List.length_cons, Nat.add_right_comm mid.length 1 depth, hf.closes hc]

/-! ## Counting braces -/

/-- The number of open braces after the token `t` when `depth` braces are open before; `none` when
`t` closes a brace and none is open. -/
def countBrace (depth : Nat) (t : Token) : Option Nat :=
  if t.isOperator "\x7b" then some (depth + 1)
  else if t.isOperator "\x7d" then if depth = 0 then none else some (depth - 1)
  else some depth

/-- **The number of open braces** after the tokens `ts` when `depth` braces are open before; `none`
when a closing brace finds no open one. Other brackets do not count. -/
def bracesAfter (depth : Nat) : List Token → Option Nat
  | [] => some depth
  | t :: ts => (countBrace depth t).bind (bracesAfter · ts)

theorem Token.isOperator_opener_iff {t : Token} {d : Delimiter} :
    t.isOperator d.opener = true ↔ t.opens? = some d := by
  simp [Token.isOperator, opens?_eq_some_iff]

theorem Token.isOperator_closer_iff {t : Token} {d : Delimiter} :
    t.isOperator d.closer = true ↔ t.closes? = some d := by
  simp [Token.isOperator, closes?_eq_some_iff]

theorem countBrace_of_opens? {t : Token} (h : t.opens? = some .brace) (depth : Nat) :
    countBrace depth t = some (depth + 1) := by
  have ho : t.isOperator "\x7b" = true := Token.isOperator_opener_iff (d := .brace) |>.mpr h
  simp [countBrace, ho]

theorem countBrace_of_closes? {t : Token} (h : t.closes? = some .brace) (depth : Nat) :
    countBrace (depth + 1) t = some depth := by
  have hc : t.isOperator "\x7d" = true := Token.isOperator_closer_iff (d := .brace) |>.mpr h
  have ho : ¬ t.isOperator "\x7b" = true := fun k => by
    rw [show "\x7b" = Delimiter.brace.opener from rfl, Token.isOperator_opener_iff,
      Token.opens?_eq_none_of_closes? h] at k
    cases k
  simp [countBrace, ho, hc]

theorem countBrace_of_ne {t : Token} (ho : t.opens? ≠ some .brace)
    (hc : t.closes? ≠ some .brace) (depth : Nat) : countBrace depth t = some depth := by
  have ho : ¬ t.isOperator "\x7b" = true := mt (Token.isOperator_opener_iff (d := .brace)).mp ho
  have hc : ¬ t.isOperator "\x7d" = true := mt (Token.isOperator_closer_iff (d := .brace)).mp hc
  simp [countBrace, ho, hc]

/-- A brace that is open around a token only adds to the count. -/
theorem countBrace_add {depth k : Nat} {t : Token} (h : countBrace depth t = some k)
    (outer : Nat) : countBrace (depth + outer) t = some (k + outer) := by
  unfold countBrace at h ⊢
  split at h
  · rename_i ho
    cases h
    rw [if_pos ho, Nat.add_right_comm]
  · rename_i ho
    rw [if_neg ho]
    split at h
    · rename_i hc
      rw [if_pos hc]
      split at h
      · cases h
      · cases h
        rw [if_neg (by omega)]
        congr 1
        omega
    · rename_i hc
      cases h
      rw [if_neg hc]

@[simp] theorem bracesAfter_nil (depth : Nat) : bracesAfter depth [] = some depth := rfl

@[simp] theorem bracesAfter_cons (depth : Nat) (t : Token) (ts : List Token) :
    bracesAfter depth (t :: ts) = (countBrace depth t).bind (bracesAfter · ts) := rfl

theorem bracesAfter_append (depth : Nat) (ts us : List Token) :
    bracesAfter depth (ts ++ us) = (bracesAfter depth ts).bind (bracesAfter · us) := by
  induction ts generalizing depth with
  | nil => rfl
  | cons t ts ih => cases h : countBrace depth t <;> simp [h, ih]

/-- Braces that are open around a run only add to the count. -/
theorem bracesAfter_add {depth k : Nat} {ts : List Token} (h : bracesAfter depth ts = some k)
    (outer : Nat) : bracesAfter (depth + outer) ts = some (k + outer) := by
  induction ts generalizing depth with
  | nil => cases h; rfl
  | cons t ts ih =>
    obtain ⟨mid, hm, h⟩ := Option.bind_eq_some_iff.mp h
    rw [bracesAfter_cons, countBrace_add hm]
    exact ih h

/-- The open braces on a stack of open brackets. -/
def bracesOn (stack : List Token) : Nat :=
  stack.countP (·.opens? == some .brace)

theorem bracesOn_cons_brace {t : Token} (h : t.opens? = some .brace) (stack : List Token) :
    bracesOn (t :: stack) = bracesOn stack + 1 := by
  simp [bracesOn, h]

theorem bracesOn_cons_ne {t : Token} (h : t.opens? ≠ some .brace) (stack : List Token) :
    bracesOn (t :: stack) = bracesOn stack := by
  simp [bracesOn, h]

theorem countBrace_of_nest {stack stack' : List Token} {t : Token}
    (h : nest stack t = some stack') :
    countBrace (bracesOn stack) t = some (bracesOn stack') := by
  -- a token that opens or closes a pair counts only if the pair is a brace
  rcases nest_cases h with ⟨d, hd, rfl⟩ | ⟨hn, hn', rfl⟩ | ⟨d, o, hn, hd, hod, rfl⟩
  · by_cases hb : d = .brace
    · subst hb
      rw [countBrace_of_opens? hd, bracesOn_cons_brace hd]
    · have hc : t.closes? ≠ some .brace := fun hc => by
        rw [Token.opens?_eq_none_of_closes? hc] at hd
        cases hd
      have ho : t.opens? ≠ some .brace := by simp [hd, hb]
      rw [countBrace_of_ne ho hc, bracesOn_cons_ne ho]
  · exact countBrace_of_ne (by simp [hn]) (by simp [hn']) _
  · by_cases hb : d = .brace
    · subst hb
      rw [bracesOn_cons_brace hod, countBrace_of_closes? hd]
    · rw [bracesOn_cons_ne (by simp [hod, hb])]
      exact countBrace_of_ne (by simp [hn]) (by simp [hd, hb]) _

/-- **Nesting agrees with the count of braces.** -/
theorem bracesAfter_of_nestAll {stack stack' ts : List Token}
    (h : nestAll stack ts = some stack') :
    bracesAfter (bracesOn stack) ts = some (bracesOn stack') := by
  induction ts generalizing stack with
  | nil => cases h; rfl
  | cons t ts ih =>
    obtain ⟨mid, hm, h⟩ := Option.bind_eq_some_iff.mp h
    rw [bracesAfter_cons, countBrace_of_nest hm]
    exact ih h

end KlarAudit

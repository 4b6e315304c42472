import KlarAudit.Proofs.Grammar.Phrase
import Mathlib.Algebra.Ring.Int.Defs
import Mathlib.Data.List.Induction
import Mathlib.Order.MinMax

/-!
# Where runs are taken apart

A run that has been collected is well nested in round, square and curly brackets. It is cut at
commas and divided at a colon where a count of brackets stands at zero. The count does not tell
brackets apart, angle brackets nest in it like the others, and it never goes below zero: it is the
greatest surplus of opening over closing brackets in what was read last. A sign for `greater than`
in a group therefore takes the group's own bracket out of the count, and what follows in the group
counts as outside.

## Main definitions

* `Run.pairs ts`, `Run.angles ts`: by how much it is deeper behind the run, in brackets that nest
  and in angle brackets
* `Run.Sheltered ts`: more brackets are opened than closed in what stands last in `ts`
* `Run.Joined parts ts`: the parts make up the run, with commas between them
* `Run.DividedAt ts i`: the run is cut at the comma `i`, or `i` is its first colon
* `Run.Outside ts i`: the index `i` is in no bracket group

## Main results

* `Run.le_depth_iff`: the count of brackets is the greatest surplus of what stands last
* `Run.cutAt_iff`, `Run.colon?_eq_some_iff`: where a run is cut, and where it is divided
* `Run.divisions_of_collect`: the exact condition for a collected run to be taken apart outside its
  groups only
-/

namespace KlarAudit

/-! ## The count of brackets -/

namespace Token

/-- How much deeper in brackets that nest it is behind the token than before it. -/
def pairStep (t : Token) : Int :=
  if t.opens?.isSome then 1 else if t.closes?.isSome then -1 else 0

/-- How much deeper in angle brackets it is behind the token than before it. -/
def angleStep (t : Token) : Int :=
  if t.isOperator "<" then 1 else if t.isOperator ">" then -1 else 0

variable {t : Token} {d : Delimiter}

theorem pairStep_of_opens? (h : t.opens? = some d) : t.pairStep = 1 := by
  simp [pairStep, h]

theorem pairStep_of_closes? (h : t.closes? = some d) : t.pairStep = -1 := by
  simp [pairStep, h, opens?_eq_none_of_closes? h]

theorem pairStep_of_plain (ho : t.opens? = none) (hc : t.closes? = none) : t.pairStep = 0 := by
  simp [pairStep, ho, hc]

theorem angleStep_of_ne (hlt : t.text ≠ "<") (hgt : t.text ≠ ">") : t.angleStep = 0 := by
  simp [angleStep, isOperator_of_ne hlt, isOperator_of_ne hgt]

theorem angleStep_of_opens? (h : t.opens? = some d) : t.angleStep = 0 :=
  angleStep_of_ne (ne_of_opens? h (by decide)) (ne_of_opens? h (by decide))

theorem angleStep_of_closes? (h : t.closes? = some d) : t.angleStep = 0 :=
  angleStep_of_ne (ne_of_closes? h (by decide)) (ne_of_closes? h (by decide))

end Token

namespace Run

/-- By how much it is deeper in brackets that nest behind the run than before it. -/
def pairs (ts : List Token) : Int :=
  (ts.map Token.pairStep).sum

/-- By how much it is deeper in angle brackets behind the run than before it. -/
def angles (ts : List Token) : Int :=
  (ts.map Token.angleStep).sum

@[simp] theorem pairs_nil : pairs [] = 0 := rfl

@[simp] theorem angles_nil : angles [] = 0 := rfl

@[simp] theorem pairs_cons (t : Token) (ts : List Token) :
    pairs (t :: ts) = t.pairStep + pairs ts := rfl

@[simp] theorem angles_cons (t : Token) (ts : List Token) :
    angles (t :: ts) = t.angleStep + angles ts := rfl

@[simp] theorem pairs_concat (ts : List Token) (t : Token) :
    pairs (ts ++ [t]) = pairs ts + t.pairStep := by
  simp [pairs, List.sum_append]

@[simp] theorem angles_concat (ts : List Token) (t : Token) :
    angles (ts ++ [t]) = angles ts + t.angleStep := by
  simp [angles, List.sum_append]

/-- The number of open brackets agrees with the steps of a run that nests. -/
theorem length_of_nestAll {stack stack' ts : List Token} (h : nestAll stack ts = some stack') :
    (stack'.length : Int) = stack.length + pairs ts := by
  induction ts generalizing stack with
  | nil =>
    cases h
    simp
  | cons t ts ih =>
    obtain ⟨mid, hmid, hts⟩ := Option.bind_eq_some_iff.mp h
    rw [ih hts, pairs_cons]
    rcases nest_cases hmid with ⟨d, ho, rfl⟩ | ⟨ho, hc, rfl⟩ | ⟨d, o, -, hc, -, rfl⟩
    · rw [Token.pairStep_of_opens? ho, List.length_cons]
      omega
    · rw [Token.pairStep_of_plain ho hc]
      omega
    · rw [Token.pairStep_of_closes? hc, List.length_cons]
      omega

/-- The count of brackets behind a run, in which all of them nest. -/
def depth (ts : List Token) : Nat :=
  ts.foldl depthAfter 0

/-- One token changes the count by its steps, but not below zero. -/
theorem natCast_depthAfter (n : Nat) (t : Token) :
    (depthAfter n t : Int) = max 0 (n + (t.pairStep + t.angleStep)) := by
  -- a bracket that nests is no angle bracket, so only one of the two steps is not zero
  cases ho : t.opens? with
  | some d =>
    rw [Token.pairStep_of_opens? ho, Token.angleStep_of_opens? ho]
    simp only [depthAfter, ho, Option.isSome_some, Bool.true_or, if_true]
    omega
  | none =>
    cases hc : t.closes? with
    | some d =>
      have hlt := Token.isOperator_of_ne (Token.ne_of_closes? hc (s := "<") (by decide))
      rw [Token.pairStep_of_closes? hc, Token.angleStep_of_closes? hc]
      simp only [depthAfter, ho, hc, hlt, Option.isSome_none, Option.isSome_some, Bool.or_self,
        Bool.true_or, Bool.false_eq_true, if_false, if_true]
      omega
    | none =>
      rw [Token.pairStep_of_plain ho hc]
      simp only [depthAfter, Token.angleStep, ho, hc, Option.isSome_none, Bool.false_or]
      split_ifs <;> omega

/-- **The count of brackets** is the greatest surplus of opening over closing brackets in what
stands last in the run. -/
theorem le_depth_iff (n : Int) (ts : List Token) :
    n ≤ depth ts ↔ ∃ back, back <:+ ts ∧ n ≤ pairs back + angles back := by
  -- From behind: what stands last is nothing, or it ends with the last token.
  induction ts using List.reverseRecOn generalizing n with
  | nil => simp [depth]
  | append_singleton ts t ih =>
    have hdepth : (depth (ts ++ [t]) : Int) =
        max 0 (depth ts + (t.pairStep + t.angleStep)) := by
      rw [depth, List.foldl_append]
      exact natCast_depthAfter _ t
    have hstep : n ≤ depth ts + (t.pairStep + t.angleStep) ↔
        n - (t.pairStep + t.angleStep) ≤ depth ts := by omega
    rw [hdepth, le_max_iff, hstep, ih]
    constructor
    · rintro (hn | ⟨back, hback, hn⟩)
      · exact ⟨[], List.nil_suffix, by simpa using hn⟩
      · refine ⟨back ++ [t], List.suffix_concat_iff.mpr (.inr ⟨back, rfl, hback⟩), ?_⟩
        rw [pairs_concat, angles_concat]
        omega
    · rintro ⟨back, hback, hn⟩
      rcases List.suffix_concat_iff.mp hback with rfl | ⟨front, rfl, hfront⟩
      · exact .inl (by simpa using hn)
      · refine .inr ⟨front, hfront, ?_⟩
        rw [pairs_concat, angles_concat] at hn
        omega

/-- **Sheltered**: what stands last in `ts`, from some token on, opens more brackets than it closes,
angle brackets among them. -/
def Sheltered (ts : List Token) : Prop :=
  ∃ back, back <:+ ts ∧ 0 < pairs back + angles back

theorem depth_ne_zero_iff (ts : List Token) : depth ts ≠ 0 ↔ Sheltered ts := by
  have hdepth : 1 ≤ (depth ts : Int) ↔ Sheltered ts := le_depth_iff 1 ts
  rw [← hdepth]
  omega

/-! ## Cuts at commas -/

/-- **The parts make up the run**, with commas between them. -/
inductive Joined : List (List Token) → List Token → Prop where
  /-- One part is the run. -/
  | single (part : List Token) : Joined [part] part
  /-- A part stands before a comma, and the others behind it. -/
  | cons (part : List Token) {comma : Token} {parts : List (List Token)} {ts : List Token}
      (hc : comma.isOperator ",") (h : Joined parts ts) :
      Joined (part :: parts) (part ++ comma :: ts)

theorem Joined.ne_nil {parts : List (List Token)} {ts : List Token} (h : Joined parts ts) :
    parts ≠ [] := by
  cases h <;> exact List.cons_ne_nil _ _

theorem joined_splitFrom (n : Nat) (ts : List Token) :
    Joined ((splitFrom n ts).1 :: (splitFrom n ts).2) ts := by
  induction ts generalizing n with
  | nil => exact .single []
  | cons t ts ih =>
    have hrest := ih (depthAfter n t)
    simp only [splitFrom]
    split
    · rename_i hcut
      exact .cons [] (Bool.and_eq_true_iff.mp hcut).2 hrest
    · -- the token goes on in front of the first part
      generalize (splitFrom (depthAfter n t) ts).1 = first at hrest ⊢
      generalize (splitFrom (depthAfter n t) ts).2 = others at hrest ⊢
      cases hrest with
      | single => exact .single _
      | cons _ hc h => exact .cons (t :: first) hc h

/-- **Nothing is lost** where a run is cut at its commas. -/
theorem joined_splitCommas (ts : List Token) : Joined (splitCommas ts) ts :=
  joined_splitFrom 0 ts

theorem depthAfter_comma {comma : Token} (hc : comma.isOperator ",") (n : Nat) :
    depthAfter n comma = n :=
  depthAfter_of_isFlat (Token.isFlat_of_isOperator hc (by decide))

/-- The run is cut at the comma behind the first part, where the count stands at zero. -/
theorem exists_of_splitFrom {n : Nat} {ts part : List Token} {parts : List (List Token)}
    (h : splitFrom n ts = (part, parts)) (hne : parts ≠ []) :
    ∃ comma rest, ts = part ++ comma :: rest ∧ part.foldl depthAfter n = 0 ∧
      parts = splitCommas rest := by
  induction ts generalizing n part with
  | nil =>
    cases h
    exact absurd rfl hne
  | cons t ts ih =>
    simp only [splitFrom] at h
    split at h
    · -- cut right here: the first part is empty, and the count is zero behind the comma as well
      rename_i hcut
      obtain ⟨hn, hc⟩ := Bool.and_eq_true_iff.mp hcut
      obtain rfl := of_decide_eq_true hn
      cases h
      rw [depthAfter_comma hc]
      exact ⟨t, ts, rfl, rfl, rfl⟩
    · cases h
      obtain ⟨comma, rest, hts, hdepth, hparts⟩ := ih rfl
      exact ⟨comma, rest, congrArg (t :: ·) hts, hdepth, hparts⟩

/-- Behind a comma where the count stands at zero, the run is cut as if nothing stood before. -/
theorem splitFrom_append_comma {n : Nat} {before after : List Token} {comma : Token}
    (h : before.foldl depthAfter n = 0) (hc : comma.isOperator ",") :
    splitFrom n (before ++ comma :: after) =
      ((splitFrom n before).1, (splitFrom n before).2 ++ splitCommas after) := by
  induction before generalizing n with
  | nil =>
    obtain rfl : n = 0 := h
    simp [splitFrom, splitCommas, hc, depthAfter_comma hc]
  | cons t before ih =>
    -- whether there is a cut at `t` does not depend on what stands behind the comma
    simp only [List.cons_append, splitFrom, ih h]
    split <;> rfl

/-- The token at the index is the operator `s`. -/
def MarkAt (s : String) (ts : List Token) (i : Nat) : Prop :=
  ∃ t, ts[i]? = some t ∧ t.isOperator s

/-- **The run is cut at the comma** with the index `i`: some of the parts make up what stands before
the comma, and the others what stands behind it. -/
def CutAt (ts : List Token) (i : Nat) : Prop :=
  MarkAt "," ts i ∧ ∃ left right, splitCommas ts = left ++ right ∧ Joined left (ts.take i) ∧
    Joined right (ts.drop (i + 1))

theorem depth_of_joined {left right : List (List Token)} {before after : List Token}
    {comma : Token} (h : Joined left before) (hright : right ≠ [])
    (hsplit : splitCommas (before ++ comma :: after) = left ++ right) : depth before = 0 := by
  induction h with
  | single part =>
    obtain ⟨hfirst, hothers⟩ := List.cons.inj hsplit
    obtain ⟨comma', rest, -, hdepth, -⟩ := exists_of_splitFrom (Prod.ext hfirst hothers) hright
    exact hdepth
  | @cons part comma' parts ts hc h ih =>
    -- the first cut is at the first comma between parts, and nothing is open behind it
    obtain ⟨hfirst, hothers⟩ := List.cons.inj hsplit
    obtain ⟨cut, rest, hts, hdepth, hparts⟩ := exists_of_splitFrom (Prod.ext hfirst hothers)
      (List.append_ne_nil_of_right_ne_nil _ hright)
    rw [List.append_assoc] at hts
    obtain ⟨-, hrest⟩ := List.cons.inj (List.append_cancel_left hts)
    have hbehind : depth ts = 0 := ih ((congrArg splitCommas hrest).trans hparts.symm)
    rw [depth, List.foldl_append, hdepth, List.foldl_cons, depthAfter_comma hc]
    exact hbehind

/-- **Where a run is cut**: at the commas that are not sheltered by what stands before them. -/
theorem cutAt_iff (ts : List Token) (i : Nat) :
    CutAt ts i ↔ MarkAt "," ts i ∧ ¬ Sheltered (ts.take i) := by
  refine and_congr_right fun ⟨comma, hcomma, hc⟩ => ?_
  obtain ⟨hi, rfl⟩ := List.getElem?_eq_some_iff.mp hcomma
  have hts : ts = ts.take i ++ ts[i] :: ts.drop (i + 1) := by
    rw [← List.drop_eq_getElem_cons hi, List.take_append_drop]
  rw [← depth_ne_zero_iff, ne_eq, not_not]
  constructor
  · rintro ⟨left, right, hsplit, hleft, hright⟩
    exact depth_of_joined hleft hright.ne_nil (hts ▸ hsplit)
  · intro hdepth
    refine ⟨_, _, ?_, joined_splitCommas _, joined_splitCommas _⟩
    nth_rewrite 1 [hts]
    rw [splitCommas, splitFrom_append_comma hdepth hc]
    rfl

/-! ## The first colon -/

@[simp] theorem markAt_cons_zero {s : String} {t : Token} {ts : List Token} :
    MarkAt s (t :: ts) 0 ↔ t.isOperator s := by
  simp [MarkAt]

@[simp] theorem markAt_cons_succ {s : String} {t : Token} {ts : List Token} {i : Nat} :
    MarkAt s (t :: ts) (i + 1) ↔ MarkAt s ts i := by
  simp [MarkAt]

theorem colonFrom?_eq_some_iff {n i : Nat} {ts : List Token} :
    colonFrom? n ts = some i ↔ MarkAt ":" ts i ∧ (ts.take i).foldl depthAfter n = 0 ∧
      ∀ j < i, MarkAt ":" ts j → (ts.take j).foldl depthAfter n ≠ 0 := by
  induction ts generalizing n i with
  | nil => simp [colonFrom?, MarkAt]
  | cons t ts ih =>
    -- the first token is the colon looked for, or every index moves on by one
    by_cases hcolon : n = 0 ∧ t.isOperator ":"
    · have hhere : colonFrom? n (t :: ts) = some 0 := by simp [colonFrom?, hcolon]
      rw [hhere]
      cases i with
      | zero => simp [hcolon]
      | succ i =>
        refine iff_of_false (fun h => by cases h) ?_
        rintro ⟨-, -, hnone⟩
        exact hnone 0 (Nat.succ_pos i) (markAt_cons_zero.mpr hcolon.2) hcolon.1
    · have hthere : colonFrom? n (t :: ts) = (colonFrom? (depthAfter n t) ts).map (· + 1) := by
        simp [colonFrom?, hcolon]
      rw [hthere]
      cases i with
      | zero =>
        have hnot : ¬ (t.isOperator ":" ∧ n = 0) := fun h => hcolon h.symm
        simpa using hnot
      | succ i =>
        have hfirst : t.isOperator ":" → n ≠ 0 := fun ht hn => hcolon ⟨hn, ht⟩
        simp only [ih, Option.map_eq_some_iff, Nat.add_right_cancel_iff, exists_eq_right,
          markAt_cons_succ, markAt_cons_zero, List.take_succ_cons, List.foldl_cons, List.take_zero,
          List.foldl_nil, Nat.forall_lt_succ_left, and_iff_right hfirst]

/-- **Where a run is divided**: at the first of the colons that are not sheltered by what stands
before them. -/
theorem colon?_eq_some_iff {ts : List Token} {i : Nat} :
    colon? ts = some i ↔ MarkAt ":" ts i ∧ ¬ Sheltered (ts.take i) ∧
      ∀ j < i, MarkAt ":" ts j → Sheltered (ts.take j) := by
  simp only [← depth_ne_zero_iff, ne_eq, not_not]
  exact colonFrom?_eq_some_iff

/-! ## Bracket groups -/

/-- **The run is taken apart** at the index `i`: at a comma where it is cut, or at its first
colon. -/
def DividedAt (ts : List Token) (i : Nat) : Prop :=
  CutAt ts i ∨ colon? ts = some i

/-- The index `i` is in no group of round, square or curly brackets. -/
def Outside (ts : List Token) (i : Nat) : Prop :=
  ∀ k m, Partners ts k m → ¬ (k < i ∧ i < m)

theorem not_sheltered_of_dividedAt {ts : List Token} {i : Nat} (h : DividedAt ts i) :
    ¬ Sheltered (ts.take i) := by
  rcases h with h | h
  · exact ((cutAt_iff ts i).mp h).2
  · exact (colon?_eq_some_iff.mp h).2.1

/-- No prefix of a well-nested run closes more brackets than it opens. -/
theorem pairs_take_nonneg {ts : List Token} (h : WellNested ts) (i : Nat) :
    0 ≤ pairs (ts.take i) := by
  have hsplit : nestAll [] (ts.take i ++ ts.drop i) = some [] := by rwa [List.take_append_drop]
  obtain ⟨stack, hstack⟩ := exists_nestAll_of_append hsplit
  have hlength := length_of_nestAll hstack
  simp only [List.length_nil] at hlength
  omega

/-- In a group, what is not sheltered stands behind more closing than opening angle brackets of the
same group. -/
theorem angles_neg_of_partners {ts : List Token} {k m i : Nat} (h : Partners ts k m) (hki : k < i)
    (him : i < m) (hs : ¬ Sheltered (ts.take i)) : angles ((ts.take i).drop (k + 1)) < 0 := by
  obtain ⟨before, o, inner, c, after, d, rfl, rfl, rfl, ho, -, hinner⟩ := h
  obtain ⟨j, rfl⟩ := Nat.exists_eq_add_of_lt hki
  have hj : j ≤ inner.length := by omega
  have htake : (before ++ o :: (inner ++ c :: after)).take (before.length + j + 1) =
      before ++ o :: inner.take j := by
    rw [Nat.add_assoc, List.take_length_add_append, List.take_succ_cons,
      List.take_append_of_le_length hj]
  rw [htake] at hs ⊢
  have hdrop : (before ++ o :: inner.take j).drop (before.length + 1) = inner.take j := by
    rw [List.drop_length_add_append, List.drop_succ_cons, List.drop_zero]
  rw [hdrop]
  -- otherwise the bracket of the group shelters what stands behind it
  by_contra hangles
  have hpairs := pairs_take_nonneg hinner j
  refine hs ⟨o :: inner.take j, List.suffix_append _ _, ?_⟩
  rw [pairs_cons, angles_cons, Token.pairStep_of_opens? ho, Token.angleStep_of_opens? ho]
  omega

/-- **Where collected runs are taken apart.** A collected run is well nested, and nothing of it is
lost between the commas. It is taken apart outside its groups only, if and only if every comma in a
group is sheltered, and every colon in a group is sheltered or behind a colon that is not. A place
in a group where it is taken apart stands behind more signs for `greater than` of the group than for
`less than`. -/
theorem divisions_of_collect {terminators : List String} {ls rest : List Lexeme}
    {run : List Token} (h : Parser.collect terminators true ls = .ok (run, rest)) :
    WellNested run ∧ Joined (splitCommas run) run ∧
      ((∀ i, DividedAt run i → Outside run i) ↔
        ∀ i, ¬ Outside run i →
          (MarkAt "," run i → Sheltered (run.take i)) ∧
          (MarkAt ":" run i →
            Sheltered (run.take i) ∨ ∃ j < i, MarkAt ":" run j ∧ ¬ Sheltered (run.take j))) ∧
      ∀ k m i, Partners run k m → k < i → i < m → DividedAt run i →
        angles ((run.take i).drop (k + 1)) < 0 := by
  refine ⟨Parser.nestAll_of_collectFrom h, joined_splitCommas run, forall_congr' fun i => ?_,
    fun k m i hkm hki him hi =>
      angles_neg_of_partners hkm hki him (not_sheltered_of_dividedAt hi)⟩
  rw [← not_imp_not]
  refine imp_congr_right fun _ => ?_
  rw [DividedAt, not_or, cutAt_iff, colon?_eq_some_iff]
  simp only [not_and, not_not, or_iff_not_imp_left, not_forall, exists_prop]

/-- A structure in whose type a comparison stands before a comma, in one group. -/
def comparedPair : String :=
  "struct S(Pair[N > 0, T]);"

/-- The type in `comparedPair`, as a run. -/
def comparedPairType : List Token :=
  [.onLine 9 .identifier "Pair", .onLine 13 .operator "[", .onLine 14 .identifier "N",
    .onLine 16 .operator ">", .onLine 18 .literal "0", .onLine 19 .operator ",",
    .onLine 21 .identifier "T", .onLine 22 .operator "]"]

/-- The type of `comparedPair` is cut at the comma in its group. -/
theorem cutAt_comparedPairType :
    Parser.collect [")"] true ((Lexeme.ofTokens (scan comparedPair)).drop 3) =
        .ok (comparedPairType,
          [⟨[], .onLine 23 .operator ")"⟩, ⟨[], .onLine 24 .operator ";"⟩]) ∧
      CutAt comparedPairType 5 ∧ Partners comparedPairType 1 7 ∧
      angles ((comparedPairType.take 5).drop 2) < 0 ∧
      ¬ ∀ i, DividedAt comparedPairType i → Outside comparedPairType i := by
  have hcollect : Parser.collect [")"] true ((Lexeme.ofTokens (scan comparedPair)).drop 3) =
      .ok (comparedPairType,
        [⟨[], .onLine 23 .operator ")"⟩, ⟨[], .onLine 24 .operator ";"⟩]) := by
    have hlexemes : (Lexeme.ofTokens (scan comparedPair)).drop 3 =
        comparedPairType.map (⟨[], ·⟩) ++
          [⟨[], .onLine 23 .operator ")"⟩, ⟨[], .onLine 24 .operator ";"⟩] := by
      decide +kernel
    rw [hlexemes]
    rfl
  have hcut : CutAt comparedPairType 5 :=
    ⟨⟨_, rfl, rfl⟩, [comparedPairType.take 5], [comparedPairType.drop 6], rfl, .single _,
      .single _⟩
  have hpartners : Partners comparedPairType 1 7 :=
    ⟨comparedPairType.take 1, _, (comparedPairType.drop 2).take 5, _, [], .bracket, rfl, rfl, rfl,
      rfl, rfl, rfl⟩
  obtain ⟨-, -, -, hangles⟩ := divisions_of_collect hcollect
  exact ⟨hcollect, hcut, hpartners,
    hangles 1 7 5 hpartners (by decide) (by decide) (.inl hcut),
    fun h => h 5 (.inl hcut) 1 7 hpartners ⟨by decide, by decide⟩⟩

end Run

end KlarAudit

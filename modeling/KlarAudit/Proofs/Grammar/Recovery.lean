import KlarAudit.Proofs.Grammar.Heading

/-!
# Braces and recovery

Recovery in a body counts braces on its own, and starts to count behind the first token of the
member that it skips. A reading stays inside its body as long as it enters no brace without counting
it. There are two ways to do so: the first token of a skipped member is an opening brace, or the
comma missing between two fields of a structure is found inside a brace, and the fields go on there.
The braces that are entered so are counted here, exactly as they are met.

## Main definitions

* `Counts a b ts`: the run `ts` turns `a` open braces into `b`
* `looseBraces`: the tally of the braces that are entered uncounted

## Main results

* `counts_of_resyncInBody`: what recovery skips balances, counted as recovery counts
* `counts_item`: a declaration, or the members of a body, leave as many braces open as are entered
  uncounted in them, and never close more than they open
-/

namespace KlarAudit

/-! ## Braces entered uncounted -/

/-- The tokens of `ls` before its suffix `rest`. -/
def passed (ls rest : List Lexeme) : List Token :=
  (ls.take (ls.length - rest.length)).map (·.token)

theorem passed_append (taken rest : List Lexeme) :
    passed (taken ++ rest) rest = taken.map (·.token) := by
  rw [passed, List.length_append, Nat.add_sub_cancel, List.take_left]

/-- The braces that are open after the tokens `ts`. -/
def openBraces (ts : List Token) : Nat :=
  (bracesAfter 0 ts).getD 0

/-- **The braces entered uncounted between fields**: those that are open where a comma is missing,
since the next field is read from there. -/
def looseInFields (ls : List Lexeme) : Nat :=
  match ls with
  | [] => 0
  | l :: tail =>
    if l.token.is "\x7d" then 0
    else
      match _h : Parser.field (l :: tail) with
      | .error _ => 0
      | .ok ((_, following), rest) =>
        (if following.isSome then openBraces (passed (l :: tail) rest) else 0) +
          looseInFields (afterComma rest)
termination_by ls.length
decreasing_by
  exact Nat.lt_of_le_of_lt (length_afterComma_le _) (Parser.advances_field _ _ _ _h)

/-- The braces entered uncounted in a structure. -/
def looseInStruct (ls : List Lexeme) : Nat :=
  match Parser.structHeading ls with
  | .error _ => 0
  | .ok (_, rest) => if nextIs "\x7b" rest then looseInFields rest.tail else 0

/-- The braces entered uncounted in a declaration without members. -/
def looseInWhole (byPlace : Bool) (ls : List Lexeme) : Nat :=
  match ls with
  | [] => 0
  | l :: _ =>
    match Parser.preamble byPlace l ls with
    | .error _ => 0
    | .ok (_, after) => if nextIs "struct" after then looseInStruct after else 0

/-- **The tally of the braces entered uncounted**: those between the fields of structures, and one
for each member that is skipped and starts with an opening brace. -/
def looseBraces : Tally Nat where
  zero := 0
  add := (· + ·)
  whole := looseInWhole
  skipped := fun _ ls => if ls.head?.any (·.token.isOperator "\x7b") then 1 else 0

theorem looseInFields_of_close {l : Lexeme} {tail : List Lexeme} (hl : l.token.is "\x7d") :
    looseInFields (l :: tail) = 0 := by
  rw [looseInFields, if_pos hl]

theorem looseInFields_of_field {l : Lexeme} {tail rest : List Lexeme} {f : Field}
    {following : Option Token} (hl : ¬ l.token.is "\x7d")
    (h : Parser.field (l :: tail) = .ok ((f, following), rest)) :
    looseInFields (l :: tail) =
      (if following.isSome then openBraces (passed (l :: tail) rest) else 0) +
        looseInFields (afterComma rest) := by
  rw [looseInFields, if_neg hl]
  split
  · rename_i h'
    rw [h] at h'
    cases h'
  · rename_i h'
    rw [h] at h'
    cases h'
    rfl

/-! ## Runs between counts -/

/-- **The run `ts`**, if its tokens are genuine, turns `a` open braces into `b`. -/
def Counts (a b : Nat) (ts : List Token) : Prop :=
  (∀ t ∈ ts, t.Genuine) → bracesAfter a ts = some b

namespace Counts

variable {a b c : Nat} {ts us : List Token}

theorem nil (a : Nat) : Counts a a [] :=
  fun _ => rfl

theorem append (h : Counts a b ts) (k : Counts b c us) : Counts a c (ts ++ us) := by
  intro hg
  rw [bracesAfter_append, h fun t ht => hg t (List.mem_append_left _ ht)]
  exact k fun t ht => hg t (List.mem_append_right _ ht)

/-- Braces that are open around a run only add to the counts. -/
theorem around (h : Counts a b ts) (outer : Nat) : Counts (outer + a) (outer + b) ts := by
  intro hg
  rw [Nat.add_comm outer a, Nat.add_comm outer b]
  exact bracesAfter_add (h hg) outer

end Counts

theorem bracesOn_eq_count {stack : List Token} {a : List Delimiter}
    (h : stack.map Token.opens? = a.map some) : bracesOn stack = a.count .brace := by
  induction a generalizing stack with
  | nil =>
    obtain rfl := List.map_eq_nil_iff.mp h
    rfl
  | cons d a ih =>
    obtain ⟨t, stack, rfl, ht, hs⟩ := List.map_eq_cons_iff.mp h
    by_cases hd : d = .brace
    · subst hd
      rw [bracesOn_cons_brace ht, ih hs, List.count_cons_self]
    · rw [bracesOn_cons_ne (by simp [ht, hd]), ih hs, List.count_cons_of_ne hd]

/-- Some tokens open the pairs `a`. -/
theorem exists_opening_stack (a : List Delimiter) :
    ∃ stack : List Token, stack.map Token.opens? = a.map some := by
  induction a with
  | nil => exact ⟨[], rfl⟩
  | cons d a ih =>
    obtain ⟨stack, hs⟩ := ih
    have ht : Token.opens? ⟨.operator, d.opener, 0, 0, 0⟩ = some d :=
      Token.opens?_eq_some_iff.mpr ⟨rfl, rfl⟩
    exact ⟨_ :: stack, by rw [List.map_cons, ht, hs, List.map_cons]⟩

/-- **Open pairs and open braces**: a run between open pairs is one between the braces in them. -/
theorem Parser.Leads.counts {a b : List Delimiter} {ts : List Token} (h : Parser.Leads a b ts) :
    Counts (a.count .brace) (b.count .brace) ts := by
  intro hg
  obtain ⟨stack, hs⟩ := exists_opening_stack a
  obtain ⟨stack', hs', hn⟩ := h hg stack hs
  rw [← bracesOn_eq_count hs, ← bracesOn_eq_count hs']
  exact bracesAfter_of_nestAll hn

/-! ## What recovery skips -/

/-- **What recovery skips in a body** balances the braces that are open where it starts. -/
theorem counts_of_resyncInBody {before : Token} {depth : Nat} {ls rest : List Lexeme}
    (h : resyncInBody before depth ls = some rest) : Between ls rest (Counts depth 0) := by
  induction ls generalizing before depth with
  | nil => cases h
  | cons l ls ih =>
    have step {k : Nat} (hk : countBrace depth l.token = some k)
        (h : resyncInBody l.token k ls = some rest) : Between (l :: ls) rest (Counts depth 0) := by
      have hl : Between (l :: ls) ls (Counts depth k) :=
        ⟨[l], rfl, fun _ => by rw [List.map_singleton, bracesAfter_cons, hk]; rfl⟩
      exact hl.trans (ih h) fun _ _ => Counts.append
    simp only [resyncInBody] at h
    split at h
    · rename_i ho
      exact step (by rw [countBrace, if_pos ho]) h
    · rename_i ho
      split at h
      · rename_i hc
        cases depth with
        | zero =>
          -- the brace that closes the body stays
          cases h
          exact .refl _ (Counts.nil 0)
        | succ depth => exact step (by rw [countBrace, if_neg ho, if_pos hc]; rfl) h
      · rename_i hc
        split at h
        · rename_i hstop
          -- recovery stops at a keyword only where no brace is open
          cases h
          simp only [Bool.and_eq_true, beq_iff_eq] at hstop
          rw [hstop.1.1]
          exact .refl _ (Counts.nil 0)
        · exact step (by rw [countBrace, if_neg ho, if_neg hc]) h

/-- A skipped member leaves a brace open exactly if it starts with one. -/
theorem counts_skipped (byPlace : Bool) {l : Lexeme} {tail rest : List Lexeme}
    (hl : ¬ l.token.is "\x7d") (h : resyncInBody l.token 0 tail = some rest) :
    Between (l :: tail) rest (Counts 0 (looseBraces.skipped byPlace (l :: tail))) := by
  show Between _ _ (Counts 0 (if l.token.isOperator "\x7b" then 1 else 0))
  have htail := counts_of_resyncInBody h
  by_cases ho : l.token.isOperator "\x7b"
  · have hopen : Between (l :: tail) tail (Counts 0 1) :=
      ⟨[l], rfl, fun _ => by rw [List.map_singleton, bracesAfter_cons, countBrace, if_pos ho]; rfl⟩
    rw [if_pos ho]
    -- what recovery skips balances in itself, inside the brace as well as outside
    exact hopen.trans (htail.mono fun ts ht => ht.around 1) fun _ _ => Counts.append
  · have hc : ¬ l.token.isOperator "\x7d" := by
      intro hc
      simp only [Token.isOperator, Bool.and_eq_true, beq_iff_eq] at hc
      exact hl (by simp [Token.is, hc.1, hc.2, TokenKind.isStructural])
    have hplain : Between (l :: tail) tail (Counts 0 0) :=
      ⟨[l], rfl, fun _ => by
        rw [List.map_singleton, bracesAfter_cons, countBrace, if_neg ho, if_neg hc]; rfl⟩
    rw [if_neg ho]
    exact hplain.trans htail fun _ _ => Counts.append

/-! ## Structures -/

/-- A field leaves braces open only where the comma after it is missing. -/
theorem counts_field {ls rest : List Lexeme} {f : Field} {following : Option Token}
    (h : Parser.field ls = .ok ((f, following), rest)) :
    Between ls rest (Counts 0 (if following.isSome then openBraces (passed ls rest) else 0)) := by
  obtain ⟨taken, rfl, ht⟩ := Parser.takes_field _ _ _ h
  refine ⟨taken, rfl, fun hg => ?_⟩
  obtain ⟨stack, hs, hn⟩ := ht hg
  have hb : bracesAfter 0 (taken.map Lexeme.token) = some (bracesOn stack) :=
    bracesAfter_of_nestAll hs
  cases following with
  | none => rw [hb, hn rfl]; rfl
  | some t => rw [passed_append, openBraces, hb]; rfl

/-- **The fields of a structure**, up to their closing brace, leave those braces open that are
entered uncounted. -/
theorem counts_fields {first : Token} {ls rest : List Lexeme} {r : List Field × Token}
    (h : (fields first ls).outcome = .ok (r, rest)) :
    Between ls rest (Counts 1 (looseInFields ls)) := by
  refine fields_induction (P := fun ls _ rest => Between ls rest (Counts 1 (looseInFields ls)))
    ?close ?field h
  case close =>
    intro l tail hc
    rw [looseInFields_of_close hc]
    exact ⟨[l], rfl, (Parser.leads_of_closer .brace hc []).counts⟩
  case field =>
    intro l tail f following left r rest hc hf _ ih
    rw [looseInFields_of_field hc hf]
    -- the braces that the first field leaves open stay open around the others
    generalize hk : (if following.isSome then openBraces (passed (l :: tail) left) else 0) = k
    have hfield : Between (l :: tail) left (Counts 1 (k + 1)) :=
      (counts_field hf).mono fun ts ht => by
        rw [hk] at ht
        exact Nat.add_comm 1 k ▸ ht.around 1
    have hcomma : Between left (afterComma left) (Counts (k + 1) (k + 1)) :=
      (Parser.leads_afterComma left []).mono fun ts ht => ht.counts.around (k + 1)
    have hmore : Between (afterComma left) rest
        (Counts (k + 1) (k + looseInFields (afterComma left))) :=
      ih.mono fun ts ht => ht.around k
    refine hfield.trans ?_ fun _ _ => Counts.append
    exact hcomma.trans hmore fun _ _ => Counts.append

/-- **A structure** leaves those braces open that are entered uncounted between its fields. -/
theorem counts_structItem {pre : Preamble} {ls rest : List Lexeme} {d : Declaration}
    (h : (structItem pre ls).outcome = .ok (d, rest)) :
    Between ls rest (Counts 0 (looseInStruct ls)) := by
  obtain ⟨⟨⟨name, generics⟩, mid⟩, hhead, h⟩ := Attempt.outcome_bind_eq_ok.mp h
  obtain ⟨⟨⟨fs, close⟩, left⟩, hbody, h⟩ := Attempt.outcome_bind_eq_ok.mp h
  cases h
  have hhead : Parser.structHeading ls = .ok ((name, generics), mid) := hhead
  have hheading : Between ls mid (Counts 0 0) :=
    (Parser.nests_structHeading [] _ _ _ hhead).mono fun _ ht => ht.counts
  rw [looseInStruct, hhead]
  unfold structBody at hbody
  dsimp only at hbody ⊢
  -- only fields with names stand in braces and can be entered uncounted
  split at hbody
  · rename_i ho
    rw [if_pos ho]
    have hopen : Between mid mid.tail (Counts 0 1) :=
      (Parser.leads_of_nextIs_opener .brace ho []).mono fun _ ht => ht.counts
    refine hheading.trans ?_ fun _ _ => Counts.append
    exact hopen.trans (counts_fields hbody) fun _ _ => Counts.append
  · rename_i ho
    rw [if_neg ho]
    have htuple : Between mid rest (Counts 0 0) :=
      (Parser.nests_tupleBody [] _ _ _ hbody).mono fun _ ht => ht.counts
    exact hheading.trans htuple fun _ _ => Counts.append

/-! ## Declarations and bodies -/

/-- A declaration without members leaves those braces open that are entered uncounted in it, unless
it takes all the input. -/
theorem counts_whole {byPlace : Bool} {ls rest : List Lexeme} {d : Option Declaration}
    (h : (opening byPlace ls).outcome = .ok (.complete d, rest)) :
    rest = [] ∨ Between ls rest (Counts 0 (looseInWhole byPlace ls)) := by
  obtain ⟨l, tail, pre, after, rfl, hpre, hbefore, ho, -⟩ := opening_split h
  have hbefore : Between (l :: tail) after (Counts 0 0) := hbefore.mono fun _ ht => ht.counts
  rw [looseInWhole, hpre]
  dsimp only
  rcases openAfter_cases ho with ⟨hafter, -, hn⟩ | ⟨d', -, hn, -, hd⟩ | ⟨-, hrest, -⟩
  · rw [if_neg hn]
    have hafter : Between after rest (Counts 0 0) := hafter.mono fun _ ht => ht.counts
    exact .inr (hbefore.trans hafter fun _ _ => Counts.append)
  · rw [if_pos hn]
    exact .inr (hbefore.trans (counts_structItem hd) fun _ _ => Counts.append)
  · exact .inl hrest

/-- **What is read leaves those braces open that are entered uncounted.** A declaration may take all
the input instead; the members of a body stand before its closing brace. -/
theorem counts_item :
    (∀ byPlace ls (r : ItemResult ls), (item byPlace ls).outcome = .ok r →
      r.rest = [] ∨ Between ls r.rest (Counts 0 (looseBraces.item byPlace ls))) ∧
    ∀ first byPlace ls (m : BodyResult ls), (members first byPlace ls).outcome = .ok m →
      ∃ closer : Lexeme, closer.token = m.close ∧ m.close.is "\x7d" ∧
        Between ls (closer :: m.rest) (Counts 0 (looseBraces.members byPlace ls)) := by
  refine reading_induction ?complete ?block ?close ?member ?skipped
  case complete =>
    intro byPlace ls d rest h
    rw [looseBraces.item_of_complete h]
    exact counts_whole h
  case block =>
    intro byPlace ls b rest m h hm ih
    obtain ⟨closer, hclose, hc, hbody⟩ := ih
    rw [← hclose] at hc
    rw [looseBraces.item_of_block h]
    generalize looseBraces.members b.publicMembers rest = k at hbody ⊢
    have hheading : Between ls rest (Counts 0 1) :=
      (opening_of_block h).1.mono fun _ ht => ht.counts
    have hbody : Between rest (closer :: m.rest) (Counts 1 (k + 1)) :=
      hbody.mono fun ts ht => Nat.add_comm 1 k ▸ ht.around 1
    have hcloser : Between (closer :: m.rest) m.rest (Counts (k + 1) k) :=
      ⟨[closer], rfl, (Parser.leads_of_closer .brace hc []).counts.around k⟩
    refine .inr (hheading.trans ?_ fun _ _ => Counts.append)
    exact hbody.trans hcloser fun _ _ => Counts.append
  case close =>
    intro first byPlace l tail _ hl
    rw [looseBraces.members_of_close hl]
    exact ⟨l, rfl, hl, .refl _ (Counts.nil 0)⟩
  case member =>
    intro first byPlace l tail r m hl hr hm ihItem ihBody
    obtain ⟨closer, hclose, hc, hbody⟩ := ihBody
    -- the body goes on behind the member, so the member has not taken all the input
    have hne : r.rest ≠ [] := fun h => absurd m.shorter (by simp [h])
    have hitem := ihItem.resolve_left hne
    rw [looseBraces.members_of_item hl hr]
    have hbody := hbody.mono fun ts ht => ht.around (looseBraces.item byPlace (l :: tail))
    exact ⟨closer, hclose, hc, hitem.trans hbody fun _ _ => Counts.append⟩
  case skipped =>
    intro first byPlace l tail e rest m _ hl he hs hm ih
    obtain ⟨closer, hclose, hc, hbody⟩ := ih
    have hskipped := counts_skipped byPlace hl hs
    rw [looseBraces.members_of_resync hl he hs]
    have hbody := hbody.mono fun ts ht => ht.around (looseBraces.skipped byPlace (l :: tail))
    exact ⟨closer, hclose, hc, hskipped.trans hbody fun _ _ => Counts.append⟩

theorem suffix_of_item {byPlace : Bool} {ls : List Lexeme} {r : ItemResult ls}
    (h : (item byPlace ls).outcome = .ok r) : r.rest <:+ ls := by
  rcases counts_item.1 _ _ _ h with hend | hbetween
  · rw [hend]
    exact List.nil_suffix
  · exact hbetween.suffix

end KlarAudit

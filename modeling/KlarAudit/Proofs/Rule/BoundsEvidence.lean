import KlarAudit.Proofs.Arena.BodyTokens
import KlarAudit.Proofs.Rule.Place

/-!
# Evidence of a bounds check

A call that does not check its index is accepted when the tokens before it in the body show that the
bound was checked. Those tokens are a prefix of the body, which may end anywhere, also between the
brackets of an assertion, whose arguments then end where the prefix ends. A longer prefix shows all
that a shorter one shows: an assertion that is cut off has some of its arguments and no others, and
what stands next to a name stays there. So of two calls with the same index the later one is
accepted when the earlier one is.

## Main definitions

* `UncheckedCall body i callee name`: an unchecked call in a body, and its index
* `Subject.Flags s t`: the rule on unchecked indexing says something at a token

## Main results

* `prefix_argumentTokensFrom`: more tokens behind a call add to its arguments and take none away
* `boundsEstablished_mono`: a longer run has the evidence of a shorter one
* `flags_iff`: a call is remarked on just if there is no evidence before it
* `boundsEvidence_of_text`: evidence for one call is evidence for the later ones
-/

namespace KlarAudit

/-! ## Longer runs -/

/-- **More tokens behind a call** add to its arguments, and take none away. -/
theorem prefix_argumentTokensFrom (depth : Nat) (ts more : List Token) :
    argumentTokensFrom depth ts <+: argumentTokensFrom depth (ts ++ more) := by
  induction ts generalizing depth with
  | nil => exact List.nil_prefix
  | cons t ts ih =>
    rw [List.cons_append, argumentTokensFrom, argumentTokensFrom]
    split
    · exact List.cons_prefix_cons.mpr ⟨rfl, ih _⟩
    · split
      · split
        · exact List.prefix_refl []
        · exact List.cons_prefix_cons.mpr ⟨rfl, ih _⟩
      · exact List.cons_prefix_cons.mpr ⟨rfl, ih _⟩

theorem any_head?_append {p : Token → Bool} {ts : List Token} (h : ts.head?.any p)
    (more : List Token) : (ts ++ more).head?.any p := by
  cases ts with
  | nil => cases h
  | cons t ts => exact h

section Longer

variable {name : String} {before after : List Token} {t : Token}

/-- An assertion about a name stays one when more tokens follow, wherever it was cut off. -/
theorem assertsAbout_append (h : assertsAbout name ⟨before, t, after⟩) (more : List Token) :
    assertsAbout name ⟨before, t, after ++ more⟩ := by
  have arguments {p : Token} {rest : List Token}
      (h : p.is "(" && (argumentTokens rest).any (·.text == name)) :
      (p.is "(" && (argumentTokens (rest ++ more)).any (·.text == name)) = true := by
    rw [Bool.and_eq_true] at h ⊢
    refine ⟨h.1, ?_⟩
    obtain ⟨a, ha, hname⟩ := List.any_eq_true.mp h.2
    exact List.any_eq_true.mpr ⟨a, (prefix_argumentTokensFrom 1 rest more).subset ha, hname⟩
  unfold assertsAbout at h ⊢
  rw [Bool.and_eq_true] at h ⊢
  refine ⟨h.1, ?_⟩
  have hcall := h.2
  cases after with
  | nil => simp at hcall
  | cons a after =>
    -- an assertion is a call of a function, or of a macro with a mark behind its name
    by_cases hmark : a.is "!"
    · cases after with
      | nil => simp [hmark] at hcall
      | cons p rest =>
        simp only [List.cons_append, List.head?_cons, Option.any_some, hmark, if_true,
          List.tail_cons] at hcall ⊢
        exact arguments hcall
    · simp only [List.cons_append, List.head?_cons, Option.any_some, hmark] at hcall ⊢
      exact arguments hcall

/-- A comparison with a name stays one when more tokens follow. -/
theorem comparesWith_append (h : comparesWith name ⟨before, t, after⟩) (more : List Token) :
    comparesWith name ⟨before, t, after ++ more⟩ := by
  unfold comparesWith at h ⊢
  rw [Bool.and_eq_true, Bool.or_eq_true] at h ⊢
  refine ⟨h.1, h.2.imp_right fun hafter => any_head?_append hafter more⟩

end Longer

/-- **A longer run has the evidence of a shorter one.** -/
theorem boundsEstablished_mono {ts us : List Token} (h : ts <+: us) {name : String}
    (hts : boundsEstablished ts name) : boundsEstablished us name := by
  obtain ⟨more, rfl⟩ := h
  obtain ⟨⟨before, t, after⟩, hc, hevidence⟩ := List.any_eq_true.mp hts
  have hrun : before.reverse ++ t :: after = ts := Context.run_of_mem_all hc
  -- the same token is met in the longer run, with the same tokens before it
  have hmem : ⟨before, t, after ++ more⟩ ∈ Context.all (ts ++ more) := by
    have hall := Context.mem_all before.reverse t (after ++ more)
    rwa [List.reverse_reverse, ← List.cons_append, ← List.append_assoc, hrun] at hall
  refine List.any_eq_true.mpr ⟨_, hmem, ?_⟩
  rw [Bool.or_eq_true] at hevidence ⊢
  exact hevidence.imp (assertsAbout_append · more) (comparesWith_append · more)

theorem boundsEstablished_take_mono {i k : Nat} (h : i ≤ k) (ts : List Token) {name : String}
    (hi : boundsEstablished (ts.take i) name) : boundsEstablished (ts.take k) name :=
  boundsEstablished_mono (List.take_prefix_take_left h) hi

/-! ## Calls that do not check their index -/

/-- **An unchecked call** in a body, at the index of its name `callee`: the first name among its
arguments is `name`. -/
structure UncheckedCall (body : List Token) (i : Nat) (callee : Token) (name : String) : Prop where
  /-- The name stands at the index. -/
  at_index : body[i]? = some callee
  /-- It is a name. -/
  kind : callee.kind = .identifier
  /-- It says that nothing is checked. -/
  ending : Text.endsWith "_unchecked" callee.text
  /-- A bracket opens the arguments. -/
  opener : ∃ o, body[i + 1]? = some o ∧ o.is "("
  /-- The first name among the arguments. -/
  index : ((argumentTokens (body.drop (i + 2))).find? (·.kind == .identifier)).map (·.text) =
    some name

/-- **The rule on unchecked indexing says something** at the token. -/
def Subject.Flags (s : Subject) (t : Token) : Prop :=
  ∃ f ∈ uncheckedIndexRule.run s, f.IsAt t

namespace UncheckedCall

variable {body : List Token} {i : Nat} {callee : Token} {name : String}

/-- The tokens before the call, its name and its bracket, and the tokens behind them. -/
theorem exists_split (h : UncheckedCall body i callee name) :
    ∃ o rest, body = body.take i ++ callee :: o :: rest ∧ o.is "(" ∧
      ((argumentTokens rest).find? (·.kind == .identifier)).map (·.text) = some name := by
  obtain ⟨o, ho, hopener⟩ := h.opener
  obtain ⟨hi, hcallee⟩ := List.getElem?_eq_some_iff.mp h.at_index
  obtain ⟨hi', ho⟩ := List.getElem?_eq_some_iff.mp ho
  refine ⟨o, body.drop (i + 2), ?_, hopener, h.index⟩
  rw [← hcallee, ← ho, ← List.drop_eq_getElem_cons, ← List.drop_eq_getElem_cons,
    List.take_append_drop]

/-- **What is said on the call** depends on what stands before it. -/
theorem exists_context (h : UncheckedCall body i callee name) :
    ∃ c ∈ Context.all body, c.token = callee ∧
      ((uncheckedIndexRemark? c).isSome ↔ ¬ boundsEstablished (body.take i) name) := by
  obtain ⟨o, rest, hbody, ho, hindex⟩ := h.exists_split
  obtain ⟨index, hfind, rfl⟩ := Option.map_eq_some_iff.mp hindex
  have hmem := Context.mem_all (body.take i) callee (o :: rest)
  rw [← hbody] at hmem
  refine ⟨_, hmem, rfl, ?_⟩
  simp only [uncheckedIndexRemark?, h.kind, h.ending, ho, hfind, List.reverse_reverse]
  by_cases hbounds : boundsEstablished (body.take i) index.text <;> simp [hbounds]

end UncheckedCall

/-- What is said on a token is said at the token. -/
theorem pos_of_uncheckedIndexRemark? {c : Context} {m : Remark}
    (h : uncheckedIndexRemark? c = some m) :
    m.line = c.token.line ∧ m.column = c.token.column := by
  unfold uncheckedIndexRemark? at h
  split at h
  · split at h
    · split at h
      · cases h
      · split at h
        · cases h
        · cases h
          exact ⟨rfl, rfl⟩
    · cases h
  · cases h

/-- **The findings** are those on the tokens of the function bodies. -/
theorem mem_run_uncheckedIndexRule_iff {s : Subject} {f : Finding} :
    f ∈ uncheckedIndexRule.run s ↔ ∃ e sig c m, (e, sig) ∈ s.functions ∧
      c ∈ Context.all (bodyTokens s.stream sig) ∧ uncheckedIndexRemark? c = some m ∧
      f = uncheckedIndexRule.finding s.path m := by
  have hrun : uncheckedIndexRule.run s = (s.functions.flatMap fun p =>
      (Context.all (bodyTokens s.stream p.2)).filterMap uncheckedIndexRemark?).map
        (uncheckedIndexRule.finding s.path) := rfl
  rw [hrun, List.mem_map]
  constructor
  · rintro ⟨m, hm, rfl⟩
    obtain ⟨⟨e, sig⟩, he, hm⟩ := List.mem_flatMap.mp hm
    obtain ⟨c, hc, hm⟩ := List.mem_filterMap.mp hm
    exact ⟨e, sig, c, m, he, hc, hm, rfl⟩
  · rintro ⟨e, sig, c, m, he, hc, hm, rfl⟩
    exact ⟨m, List.mem_flatMap.mpr ⟨(e, sig), he, List.mem_filterMap.mpr ⟨c, hc, hm⟩⟩, rfl⟩

/-- A token of a run stands in one context. -/
theorem Context.eq_of_token {ts : List Token} (ho : Ordered ts) {c d : Context}
    (hc : c ∈ Context.all ts) (hd : d ∈ Context.all ts) (h : c.token = d.token) : c = d := by
  obtain ⟨before, t, after⟩ := c
  obtain ⟨before', t', after'⟩ := d
  obtain rfl : t = t' := h
  have hrun : before.reverse ++ t :: after = ts := Context.run_of_mem_all hc
  have hrun' : before'.reverse ++ t :: after' = ts := Context.run_of_mem_all hd
  rw [← hrun] at ho hrun'
  obtain ⟨hbefore, rfl⟩ := ho.append_cons_inj hrun'.symm
  rw [List.reverse_injective hbefore]

section Text

variable {path text : String} {e : Entry} {sig : Signature} {i : Nat} {callee : Token}
  {name : String}

theorem ordered_bodyTokens (he : (e, sig) ∈ (Subject.ofText path text).functions) :
    Ordered (bodyTokens (TokenStream.ofText text) sig) := by
  cases hs : sig.body with
  | none =>
    rw [bodyTokens, hs]
    exact ⟨by simp, .nil⟩
  | some s =>
    obtain ⟨inner, hinner⟩ :=
      exists_bodyAround (mem_of_mem_functions he) (signature?_of_mem_functions he) hs
    rw [bodyTokens_eq hs hinner]
    exact (ordered_and_holds_of_bodyAround hinner).1

/-- **A call is remarked on** just if there is no evidence before it. -/
theorem flags_iff (he : (e, sig) ∈ (Subject.ofText path text).functions)
    (hcall : UncheckedCall (bodyTokens (TokenStream.ofText text) sig) i callee name) :
    (Subject.ofText path text).Flags callee ↔
      ¬ boundsEstablished ((bodyTokens (TokenStream.ofText text) sig).take i) name := by
  obtain ⟨c, hc, rfl, hsome⟩ := hcall.exists_context
  rw [← hsome]
  constructor
  · rintro ⟨f, hf, hline, hcolumn⟩
    obtain ⟨e', sig', c', m, he', hc', hm, rfl⟩ := mem_run_uncheckedIndexRule_iff.mp hf
    obtain ⟨hline', hcolumn'⟩ := pos_of_uncheckedIndexRemark? hm
    have hin := Context.token_mem_of_mem_all hc
    have hin' := Context.token_mem_of_mem_all hc'
    -- the remark is on the same token, and so in the same body and with the same tokens around it
    have htoken : c'.token = c.token :=
      eq_of_location_eq (mem_of_mem_bodyTokens hin') (mem_of_mem_bodyTokens hin)
        (Int.ofNat_inj.mp (hline'.symm.trans hline))
        (Int.ofNat_inj.mp (hcolumn'.symm.trans hcolumn))
    have hsame : sig'.body = sig.body :=
      bodyTokens_unique (mem_of_mem_functions he') (mem_of_mem_functions he)
        (signature?_of_mem_functions he') (signature?_of_mem_functions he) hin' (htoken ▸ hin)
    have hbody : bodyTokens (TokenStream.ofText text) sig' =
        bodyTokens (TokenStream.ofText text) sig := by
      rw [bodyTokens, hsame, ← bodyTokens]
    obtain rfl : c' = c := Context.eq_of_token (ordered_bodyTokens he) (hbody ▸ hc') hc htoken
    rw [hm]
    rfl
  · intro h
    obtain ⟨m, hm⟩ := Option.isSome_iff_exists.mp h
    exact ⟨_, mem_run_uncheckedIndexRule_iff.mpr ⟨e, sig, c, m, he, hc, hm, rfl⟩,
      pos_of_uncheckedIndexRemark? hm⟩

end Text

/-- **Evidence lasts.** What the tokens of a body up to some index show of a name, they show up to
every later index, wherever an assertion is cut off. So of two unchecked calls in a body of a text
whose first names among the arguments are the same, the later one is not remarked on when the
earlier one is not; and a call is remarked on just if the tokens before it have no evidence. -/
theorem boundsEvidence_of_text (path text : String) :
    (∀ (body : List Token) (name : String) (i k : Nat), i ≤ k →
      boundsEstablished (body.take i) name → boundsEstablished (body.take k) name) ∧
    ∀ e sig, (e, sig) ∈ (Subject.ofText path text).functions →
      let body := bodyTokens (TokenStream.ofText text) sig
      ∀ i callee name, UncheckedCall body i callee name →
        ((Subject.ofText path text).Flags callee ↔ ¬ boundsEstablished (body.take i) name) ∧
        ∀ k callee', i < k → UncheckedCall body k callee' name →
          ¬ (Subject.ofText path text).Flags callee →
            ¬ (Subject.ofText path text).Flags callee' := by
  refine ⟨fun body name i k hle => boundsEstablished_take_mono hle body, ?_⟩
  intro e sig he body i callee name hcall
  refine ⟨flags_iff he hcall, fun k callee' hlt hcall' hsilent => ?_⟩
  rw [flags_iff he hcall, not_not] at hsilent
  rw [flags_iff he hcall', not_not]
  exact boundsEstablished_take_mono (Nat.le_of_lt hlt) body hsilent

/-- A function with two unchecked calls among the arguments of an assertion. -/
def assertedCallsText : String :=
  "fn f() \x7b assert(i, a.at_unchecked(i), b.at_unchecked(i)); \x7d"

/-- The name of the call at the given offset in that function. -/
def assertedCall (offset : Nat) : Token :=
  .onLine offset .identifier "at_unchecked"

/-- Where the assertion is cut off before the first call it mentions the index already, so neither
call is remarked on. -/
theorem not_flagged_assertedCalls :
    ∃ e sig, (e, sig) ∈ (Subject.ofText "main.kl" assertedCallsText).functions ∧
      (let body := bodyTokens (TokenStream.ofText assertedCallsText) sig
       UncheckedCall body 6 (assertedCall 21) "i" ∧ UncheckedCall body 13 (assertedCall 40) "i" ∧
       boundsEstablished (body.take 6) "i" ∧ boundsEstablished (body.take 13) "i") ∧
      ¬ (Subject.ofText "main.kl" assertedCallsText).Flags (assertedCall 21) ∧
      ¬ (Subject.ofText "main.kl" assertedCallsText).Flags (assertedCall 40) := by
  have hbodies : (Subject.ofText "main.kl" assertedCallsText).functions.map
      (fun p => bodyTokens (TokenStream.ofText assertedCallsText) p.2) =
        [((significant (scan assertedCallsText)).drop 5).dropLast] := by
    decide +kernel
  obtain ⟨⟨e, sig⟩, he, hbody⟩ := List.mem_map.mp (hbodies ▸ List.mem_singleton_self _)
  have htokens : ((significant (scan assertedCallsText)).drop 5).dropLast =
      [.onLine 9 .identifier "assert", .onLine 15 .operator "(", .onLine 16 .identifier "i",
       .onLine 17 .operator ",", .onLine 19 .identifier "a", .onLine 20 .operator ".",
       assertedCall 21, .onLine 33 .operator "(", .onLine 34 .identifier "i",
       .onLine 35 .operator ")", .onLine 36 .operator ",", .onLine 38 .identifier "b",
       .onLine 39 .operator ".", assertedCall 40, .onLine 52 .operator "(",
       .onLine 53 .identifier "i", .onLine 54 .operator ")", .onLine 55 .operator ")",
       .onLine 56 .operator ";"] := by
    decide +kernel
  have hcall : UncheckedCall (bodyTokens (TokenStream.ofText assertedCallsText) sig) 6
      (assertedCall 21) "i" := by
    rw [show bodyTokens _ sig = _ from hbody, htokens]
    exact ⟨rfl, rfl, by decide, ⟨_, rfl, by decide⟩, by decide⟩
  have hcall' : UncheckedCall (bodyTokens (TokenStream.ofText assertedCallsText) sig) 13
      (assertedCall 40) "i" := by
    rw [show bodyTokens _ sig = _ from hbody, htokens]
    exact ⟨rfl, rfl, by decide, ⟨_, rfl, by decide⟩, by decide⟩
  have hevidence : boundsEstablished
      ((bodyTokens (TokenStream.ofText assertedCallsText) sig).take 6) "i" := by
    rw [show bodyTokens _ sig = _ from hbody, htokens]
    decide
  -- evidence is never lost again, so the second call follows from the first
  obtain ⟨hmono, hcalls⟩ := boundsEvidence_of_text "main.kl" assertedCallsText
  obtain ⟨hflags, hlater⟩ := hcalls e sig he 6 _ "i" hcall
  have hsilent : ¬ (Subject.ofText "main.kl" assertedCallsText).Flags (assertedCall 21) :=
    fun h => hflags.mp h hevidence
  exact ⟨e, sig, he, ⟨hcall, hcall', hevidence, hmono _ "i" 6 13 (by decide) hevidence⟩, hsilent,
    hlater 13 _ (by decide) hcall' hsilent⟩

end KlarAudit

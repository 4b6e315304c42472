import KlarAudit.Proofs.Arena.BodyTokens

/-!
# The extents of calls

Checks find the arguments of a call by counting brackets, whatever their kind, from the opening
bracket on. The body of a function has been read with a stack of brackets, so it is well nested, and
in a well-nested run counting finds the partner of the opening bracket. A call in a body therefore
never runs to the end of the body for want of a closing bracket.

## Main definitions

* `closeIndex ts k`: where the arguments of a call end
* `CallAt ts k m`: the arguments of the call opened at `k` are what stands up to its partner `m`
* `BodyIn ts body o c`: the body of a function, with the braces around it and the calls in it

## Main results

* `argumentTokens_append`: counting brackets finds the end of well-nested arguments
* `callAt_of_wellNested`: the calls in a well-nested run
* `bodyIn_bodyTokens`: the tokens of a body are those between its braces, they are well nested,
  and so are the arguments of the calls in it
-/

namespace KlarAudit

/-! ## Counting brackets -/

section Counting

variable {t c : Token} {A rest : List Token} {d : Delimiter}

theorem argumentTokensFrom_of_opens (h : t.opens? = some d) (depth : Nat) (rest : List Token) :
    argumentTokensFrom depth (t :: rest) = t :: argumentTokensFrom (depth + 1) rest := by
  simp [argumentTokensFrom, h]

theorem argumentTokensFrom_of_closes (h : t.closes? = some d) (depth : Nat) (rest : List Token) :
    argumentTokensFrom (depth + 2) (t :: rest) = t :: argumentTokensFrom (depth + 1) rest := by
  simp [argumentTokensFrom, Token.opens?_eq_none_of_closes? h, h]

theorem argumentTokensFrom_of_plain (ho : t.opens? = none) (hc : t.closes? = none) (depth : Nat)
    (rest : List Token) :
    argumentTokensFrom depth (t :: rest) = t :: argumentTokensFrom depth rest := by
  simp [argumentTokensFrom, ho, hc]

theorem countsBrackets_argumentTokensFrom : CountsBrackets argumentTokensFrom where
  opens h _ _ := argumentTokensFrom_of_opens h _ _
  closes h _ _ := argumentTokensFrom_of_closes h _ _
  plain ho hc _ _ := argumentTokensFrom_of_plain ho hc _ _

/-- **Counting brackets finds the end of well-nested arguments.** -/
theorem argumentTokens_append (hA : WellNested A) (hc : c.closes? = some d) (rest : List Token) :
    argumentTokens (A ++ c :: rest) = A := by
  have hinside := countsBrackets_argumentTokensFrom.append_of_nestAll hA 0 (c :: rest)
  have hstop : argumentTokensFrom 1 (c :: rest) = [] := by
    simp [argumentTokensFrom, Token.opens?_eq_none_of_closes? hc, hc]
  rw [argumentTokens]
  simpa [hstop] using hinside

end Counting

/-! ## Partners -/

/-- Well-nested runs that stand at the same place, in front of closing brackets, are the same. -/
theorem WellNested.append_closes_inj {inner inner' after after' : List Token} {c c' : Token}
    {d d' : Delimiter} (h : WellNested inner) (h' : WellNested inner') (hc : c.closes? = some d)
    (hc' : c'.closes? = some d') (heq : inner ++ c :: after = inner' ++ c' :: after') :
    inner = inner' := by
  have hstop := argumentTokens_append h hc after
  rw [heq, argumentTokens_append h' hc' after'] at hstop
  exact hstop.symm

/-- **A bracket has one partner.** -/
theorem Partners.unique {ts : List Token} {k m m' : Nat} (h : Partners ts k m)
    (h' : Partners ts k m') : m = m' := by
  obtain ⟨before, o, inner, c, after, d, rfl, rfl, rfl, -, hc, hinner⟩ := h
  obtain ⟨before', o', inner', c', after', d', hts, hlength, rfl, -, hc', hinner'⟩ := h'
  obtain ⟨rfl, hrest⟩ := List.append_inj hts hlength.symm
  rw [hinner.append_closes_inj hinner' hc hc' (List.cons.inj hrest).2]

/-! ## Calls -/

/-- Where the arguments of a call end whose opening bracket stands at `k`: the index of the token
behind them, or the number of tokens if there is none. -/
def closeIndex (ts : List Token) (k : Nat) : Nat :=
  k + 1 + (argumentTokens (ts.drop (k + 1))).length

/-- **The call** whose opening bracket stands at `k`: its arguments end in front of the round bracket
that is the partner of the opening one. -/
structure CallAt (ts : List Token) (k : Nat) : Prop where
  /-- The arguments do not run to the end. -/
  lt_length : closeIndex ts k < ts.length
  /-- They end in front of a round bracket. -/
  closes : ∃ c, ts[closeIndex ts k]? = some c ∧ c.is ")"
  /-- This is the partner of the opening bracket, which has no other. -/
  partners_iff : ∀ m, Partners ts k m ↔ m = closeIndex ts k
  /-- The arguments are the tokens between the two. -/
  arguments : argumentTokens (ts.drop (k + 1)) = (ts.take (closeIndex ts k)).drop (k + 1)

/-- **The calls in a well-nested run.** -/
theorem callAt_of_wellNested {ts : List Token} (hts : WellNested ts) {k : Nat} {o : Token}
    (ho : ts[k]? = some o) (hopens : o.opens? = some .paren) : CallAt ts k := by
  obtain ⟨hk, rfl⟩ := List.getElem?_eq_some_iff.mp ho
  -- the run is taken apart at the bracket, so that indices become lengths
  obtain ⟨before, o, rest, rfl, rfl, hparen⟩ : ∃ before o rest, ts = before ++ o :: rest ∧
      before.length = k ∧ o.opens? = some .paren :=
    ⟨ts.take k, ts[k], ts.drop (k + 1), by simp, by simp [Nat.le_of_lt hk], hopens⟩
  obtain ⟨inner, c, after, rfl, hinner, hc⟩ := exists_closer hparen hts
  have hdrop : (before ++ o :: (inner ++ c :: after)).drop (before.length + 1) =
      inner ++ c :: after := by
    simp
  have hclose : closeIndex (before ++ o :: (inner ++ c :: after)) before.length =
      before.length + 1 + inner.length := by
    rw [closeIndex, hdrop, argumentTokens_append hinner hc]
  have hsplit : before ++ o :: (inner ++ c :: after) = (before ++ o :: inner) ++ c :: after := by
    simp
  have hlength : (before ++ o :: inner).length = before.length + 1 + inner.length := by
    simp
    omega
  have hpartners : Partners (before ++ o :: (inner ++ c :: after)) before.length
      (before.length + 1 + inner.length) :=
    ⟨before, o, inner, c, after, .paren, rfl, rfl, rfl, hparen, hc, hinner⟩
  constructor
  case lt_length =>
    rw [hclose, hsplit, List.length_append, hlength, List.length_cons]
    omega
  case closes =>
    refine ⟨c, ?_, Token.is_closer hc⟩
    rw [hclose, hsplit, ← hlength, List.getElem?_append_right (Nat.le_refl _), Nat.sub_self]
    rfl
  case partners_iff =>
    intro m
    rw [hclose]
    exact ⟨fun h => h.unique hpartners, fun h => h ▸ hpartners⟩
  case arguments =>
    rw [hclose, hdrop, argumentTokens_append hinner hc, hsplit, ← hlength, List.take_left]
    simp

/-! ## The bodies of a text -/

/-- **A body in the tokens** of a text: its tokens are all that stands between its braces, they are
well nested, and their calls are closed. -/
structure BodyIn (ts body : List Token) (s : Span) : Prop where
  /-- The tokens stand between the braces of the body. -/
  braces : ∃ before opener closer after, ts = before ++ opener :: (body ++ closer :: after) ∧
    opener.is "\x7b" ∧ closer.is "\x7d" ∧ s = ⟨opener.start, closer.stop⟩
  /-- They are well nested. -/
  nested : WellNested body
  /-- Every call in them is closed. -/
  calls : ∀ k o, body[k]? = some o → o.is "(" → CallAt body k

/-- **The body of a function in a text.** -/
theorem bodyIn_bodyTokens {text : String} {e : Entry} {sig : Signature} {s : Span}
    (he : e ∈ (parse (scan text)).arena.entries) (hsig : e.decl.signature? = some sig)
    (hs : sig.body = some s) :
    BodyIn (significant (scan text)) (bodyTokens (TokenStream.ofText text) sig) s := by
  obtain ⟨inner, before, here, after, htokens, hbraced⟩ := exists_braced he hsig hs
  have hbody : bodyTokens (TokenStream.ofText text) sig = inner :=
    bodyTokens_eq hs ⟨before, here, after, htokens, hbraced.bodyAround⟩
  obtain ⟨⟨opener, closer, rfl, hopens, hcloses, hspan⟩, hnested⟩ := hbraced
  rw [hbody]
  constructor
  case braces =>
    exact ⟨before, opener, closer, after, by simpa using htokens, Token.is_opener hopens,
      Token.is_closer hcloses, hspan⟩
  case nested => exact hnested
  case calls =>
    intro k o ho his
    -- a token of a text that is written like a bracket is one
    have hmem : o ∈ significant (scan text) := by
      rw [htokens]
      simp [List.mem_of_getElem? ho]
    have hgenuine : o.Genuine := genuine_of_mem_scan (List.mem_filter.mp hmem).1
    exact callAt_of_wellNested hnested ho (hgenuine.opens?_of_is (d := .paren) his)

/-- A function with calls in the arguments of a call. -/
def nestedCalls : String :=
  "fn f() \x7b g(a[0], h(\x7b b \x7d) /* ) */); \x7d"

/-- Its body. -/
theorem bodyIn_nestedCalls : ∃ e sig s, e ∈ (parse (scan nestedCalls)).arena.entries ∧
    e.decl.signature? = some sig ∧ sig.body = some s ∧
    BodyIn (significant (scan nestedCalls)) (bodyTokens (TokenStream.ofText nestedCalls) sig) s := by
  have hbodies : (parse (scan nestedCalls)).arena.entries.map
      (fun e => e.decl.signature?.bind (·.body)) = [some ⟨7, 37⟩] := by
    decide +kernel
  obtain ⟨e, he, hbody⟩ := List.mem_map.mp (hbodies ▸ List.mem_singleton_self _)
  obtain ⟨sig, hsig, hs⟩ := Option.bind_eq_some_iff.mp hbody
  exact ⟨e, sig, _, he, hsig, hs, bodyIn_bodyTokens he hsig hs⟩

end KlarAudit

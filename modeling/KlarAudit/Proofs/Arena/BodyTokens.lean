import KlarAudit.Proofs.Arena.BlockExtent
import KlarAudit.Proofs.Arena.TypeSource
import KlarAudit.Proofs.Source.Lines
import KlarAudit.Proofs.Token.Lookup
import KlarAudit.Rule.Basic

/-!
# The tokens of function bodies

Checks look at the tokens of a function body, which they find by its span. These are the significant
tokens between the two braces of the body, wherever comments stand, and no token is between the
braces of two functions. A token is known by its line and column.

## Main definitions

* `BodyAround inner s`: tokens with braces around them make up the body `s`
* `Braced inner s`: the braces are partners

## Main results

* `exists_braced`, `exists_bodyAround`: the body of a function stands on tokens of the text
* `bodyTokens_eq`: the tokens that checks look at are those between the braces
* `bodyTokens_unique`: a token belongs to one body
* `eq_of_location_eq`: a token is known by its line and column
-/

namespace KlarAudit

open KlarAudit.Parser

/-! ## Bodies of functions -/

/-- **Tokens with braces around them** make up the body `s`. -/
def BodyAround (inner : List Token) (s : Span) (here : List Token) : Prop :=
  ∃ opener closer, here = opener :: (inner ++ [closer]) ∧ opener.is "\x7b" ∧
    s = ⟨opener.start, closer.stop⟩

theorem BodyAround.extent {inner here : List Token} {s : Span} (h : BodyAround inner s here) :
    Extent here s := by
  obtain ⟨opener, closer, rfl, -, rfl⟩ := h
  exact Extent.cons opener (by simp)

/-- **Tokens between partners**: the body `s` consists of two braces and of what stands between them,
which is well nested. -/
structure Braced (inner : List Token) (s : Span) (here : List Token) : Prop where
  /-- The braces. -/
  around : ∃ opener closer, here = opener :: (inner ++ [closer]) ∧ opener.opens? = some .brace ∧
    closer.closes? = some .brace ∧ s = ⟨opener.start, closer.stop⟩
  /-- What stands between them. -/
  nested : WellNested inner

theorem Braced.bodyAround {inner here : List Token} {s : Span} (h : Braced inner s here) :
    BodyAround inner s here := by
  obtain ⟨⟨opener, closer, hhere, hopens, -, hs⟩, -⟩ := h
  exact ⟨opener, closer, hhere, Token.is_opener hopens, hs⟩

namespace Parser

/-- **A bracket group** ends with the partner of its opening bracket. -/
theorem takes_group_nested (d : Delimiter) :
    Takes (group d.opener) fun g ts => (∀ t ∈ ts, t.Genuine) → ∀ o c, g = some (o, c) →
      ∃ inner, ts = o :: (inner ++ [c]) ∧ o.opens? = some d ∧ WellNested inner ∧
        c.closes? = some d := by
  intro ls g rest h
  obtain ⟨rfl, rfl⟩ | ⟨l, tail, close, rfl, hl, hf, rfl⟩ := group_eq_ok h
  · exact ⟨[], rfl, nofun⟩
  · obtain ⟨taken, rfl, hnest, -⟩ := takes_groupFrom _ _ _ _ _ hf
    refine ⟨l :: taken, rfl, ?_⟩
    rintro hg _ _ ⟨⟩
    have ho := (hg l.token (by simp)).opens?_of_is hl
    have hnest : nestAll ([] ++ [l.token]) (taken.map Lexeme.token) = some [] := hnest
    obtain ⟨inner, c, after, htaken, hinner, hc⟩ :=
      exists_closer_of_nestAll ho hnest (Nat.le_refl _)
    obtain ⟨front, more, rfl, rfl, hmore⟩ := List.map_eq_append_iff.mp htaken
    obtain ⟨m, back, rfl, rfl, -⟩ := List.map_eq_cons_iff.mp hmore
    -- the reader stops at the partner, so nothing has been taken behind it
    have hstop : groupFrom l.token [] (front ++ m :: (back ++ rest)) =
        .ok (m.token, back ++ rest) := groupFrom_append ho hc hinner rfl
    rw [List.append_assoc, List.cons_append, hstop] at hf
    obtain ⟨rfl, hleft⟩ := Prod.mk.inj (Except.ok.inj hf)
    obtain rfl := List.append_left_eq_self.mp hleft
    exact ⟨_, by simp, ho, hinner, hc⟩

theorem takes_functionBody_braced (name : String) :
    Takes (functionBody name) fun r ts => ∀ s ∈ r.1, (∀ t ∈ ts, t.Genuine) →
      ∃ inner, Braced inner s ts := by
  intro ls r rest h
  obtain ⟨g, mid, hg, hrest⟩ := bind_eq_ok.mp h
  cases g with
  | none =>
    obtain ⟨t, left, ht, hrest⟩ := bind_eq_ok.mp hrest
    cases t with
    | none => cases hrest
    | some t =>
      cases hrest
      exact (takes_functionBody name _ _ _ h).mono fun ts _ s hs => by cases hs
  | some g =>
    cases hrest
    refine (takes_group_nested .brace _ _ _ hg).mono ?_
    rintro ts hts s ⟨⟩ hgenuine
    obtain ⟨inner, rfl, ho, hinner, hc⟩ := hts hgenuine g.1 g.2 rfl
    exact ⟨inner, ⟨g.1, g.2, rfl, ho, hc, rfl⟩, hinner⟩

end Parser

section Text

variable {text : String} {e e' : Entry} {sig sig' : Signature} {s s' : Span}

/-- **The body of a function** stands on tokens of the text, between two braces. -/
theorem exists_braced (he : e ∈ (parse (scan text)).arena.entries)
    (hsig : e.decl.signature? = some sig) (hs : sig.body = some s) :
    ∃ inner, StandsIn (significant (scan text)) (Braced inner s) := by
  obtain ⟨byPlace, ls, rest, ⟨before, hbefore⟩, ho⟩ :=
    exists_opening_of_mem he (isContainer_of_signature? hsig)
  obtain ⟨taken, rfl, hbody⟩ := endsWith_of_opening Parser.takes_functionBody_braced ho
  have hbody? : e.decl.body? = some s := by rw [Declaration.body?, hsig, Option.bind_some, hs]
  obtain ⟨front, here, htaken, hhere⟩ := hbody s hbody?
  have htokens : significant (scan text) = (before.map Lexeme.token ++ front) ++
      (here ++ rest.map Lexeme.token) := by
    rw [← Lexeme.map_token_ofTokens, ← hbefore, List.map_append, List.map_append, htaken]
    simp
  have hgenuine : ∀ t ∈ here, t.Genuine := by
    have hg := genuine_ofTokens_scan text
    rw [Lexeme.map_token_ofTokens, htokens] at hg
    exact fun t ht => hg t (List.mem_append_right _ (List.mem_append_left _ ht))
  obtain ⟨inner, hinner⟩ := hhere hgenuine
  exact ⟨inner, _, here, _, htokens, hinner⟩

theorem exists_bodyAround (he : e ∈ (parse (scan text)).arena.entries)
    (hsig : e.decl.signature? = some sig) (hs : sig.body = some s) :
    ∃ inner, StandsIn (significant (scan text)) (BodyAround inner s) := by
  obtain ⟨inner, before, here, after, htokens, hhere⟩ := exists_braced he hsig hs
  exact ⟨inner, before, here, after, htokens, hhere.bodyAround⟩

/-- **The tokens that checks look at** in a body are those between its braces. -/
theorem bodyTokens_eq {inner : List Token} (hs : sig.body = some s)
    (h : StandsIn (significant (scan text)) (BodyAround inner s)) :
    bodyTokens (TokenStream.ofText text) sig = inner := by
  obtain ⟨front, here, after, htokens, hhere⟩ := h
  have ho := ordered_significant_scan text
  rw [htokens] at ho
  have hwithin : significant ((TokenStream.ofText text).within s) = here := by
    rw [TokenStream.within_eq_filter, significant, List.filter_comm, ← significant, htokens,
      ho.filter_covers hhere.extent]
  obtain ⟨opener, closer, rfl, -⟩ := hhere
  rw [bodyTokens, hs]
  dsimp only
  rw [hwithin, List.drop_one, List.tail_cons, List.dropLast_concat]

/-- The tokens between the braces are in order, and the body holds them. -/
theorem ordered_and_holds_of_bodyAround {inner : List Token}
    (h : StandsIn (significant (scan text)) (BodyAround inner s)) :
    Ordered inner ∧ ∀ t ∈ inner, s.Holds t.start := by
  obtain ⟨front, here, after, htokens, hhere⟩ := h
  have ho := ordered_significant_scan text
  rw [htokens] at ho
  have hordered : Ordered here := ho.right.left
  have hextent := hhere.extent
  obtain ⟨opener, closer, rfl, -⟩ := hhere
  have hbehind : Ordered (inner ++ [closer]) :=
    Ordered.right (show Ordered ([opener] ++ (inner ++ [closer])) from hordered)
  refine ⟨hbehind.left, fun t ht => ?_⟩
  have hmem : t ∈ opener :: (inner ++ [closer]) := by simp [ht]
  have hcovers := hordered.covers hextent hmem
  have hlt := hordered.nonempty t hmem
  exact ⟨hcovers.1, by omega⟩

/-- Two bodies that hold the start of one token are the same. -/
theorem body_unique (he : e ∈ (parse (scan text)).arena.entries)
    (he' : e' ∈ (parse (scan text)).arena.entries) (hs : e.decl.body? = some s)
    (hs' : e'.decl.body? = some s') {offset : Int} (hin : s.Holds offset) (hin' : s'.Holds offset) :
    s = s' := by
  obtain ⟨i, hi⟩ := List.mem_iff_getElem?.mp he
  obtain ⟨i', hi'⟩ := List.mem_iff_getElem?.mp he'
  have hmem : (i, s) ∈ bodies 0 (parse (scan text)).arena.entries :=
    mem_bodies_iff.mpr ⟨e, hi, hs⟩
  have hmem' : (i', s') ∈ bodies 0 (parse (scan text)).arena.entries :=
    mem_bodies_iff.mpr ⟨e', hi', hs'⟩
  have held {b : Nat × Span} (hb : b ∈ bodies 0 (parse (scan text)).arena.entries)
      (hin : b.2.Holds offset) : b ∈ (bodies 0 (parse (scan text)).arena.entries).filter
        fun b => decide (b.2.Holds offset) :=
    List.mem_filter.mpr ⟨hb, decide_eq_true hin⟩
  have hheld := held hmem hin
  have hheld' := held hmem' hin'
  have hapart := (bodiesOn_scan text).apart (ordered_significant_scan text)
  -- bodies are apart, so that one at most holds the offset
  rcases filter_holds_of_apart hapart offset with hnil | ⟨b, hb⟩
  · rw [hnil] at hheld
    cases hheld
  · rw [hb, List.mem_singleton] at hheld hheld'
    exact congrArg Prod.snd (hheld.trans hheld'.symm)

/-- **A token belongs to one body.** -/
theorem bodyTokens_unique (he : e ∈ (parse (scan text)).arena.entries)
    (he' : e' ∈ (parse (scan text)).arena.entries) (hsig : e.decl.signature? = some sig)
    (hsig' : e'.decl.signature? = some sig') {t : Token}
    (ht : t ∈ bodyTokens (TokenStream.ofText text) sig)
    (ht' : t ∈ bodyTokens (TokenStream.ofText text) sig') : sig.body = sig'.body := by
  have held {e : Entry} {sig : Signature} (he : e ∈ (parse (scan text)).arena.entries)
      (hsig : e.decl.signature? = some sig) (ht : t ∈ bodyTokens (TokenStream.ofText text) sig) :
      ∃ s, sig.body = some s ∧ s.Holds t.start := by
    cases hs : sig.body with
    | none =>
      rw [bodyTokens, hs] at ht
      cases ht
    | some s =>
      obtain ⟨inner, hinner⟩ := exists_bodyAround he hsig hs
      rw [bodyTokens_eq hs hinner] at ht
      exact ⟨s, rfl, (ordered_and_holds_of_bodyAround hinner).2 t ht⟩
  obtain ⟨s, hs, hin⟩ := held he hsig ht
  obtain ⟨s', hs', hin'⟩ := held he' hsig' ht'
  rw [hs, hs', body_unique he he' (by rw [Declaration.body?, hsig, Option.bind_some, hs])
    (by rw [Declaration.body?, hsig', Option.bind_some, hs']) hin hin']

/-! ## Locations -/

/-- A token that starts later starts at a later place. -/
theorem place_lt_of_start_lt {a b : Token} (ha : a.StandsIn text) (hb : b.StandsIn text)
    (hlt : a.start < b.start) : a.pos.place < b.pos.place := by
  rw [ha.pos_eq, hb.pos_eq]
  exact Position.start.place_take_lt hlt hb.start_le

/-- **A token is known by its line and column.** -/
theorem eq_of_location_eq {a b : Token} (ha : a ∈ scan text) (hb : b ∈ scan text)
    (hline : a.line = b.line) (hcolumn : a.column = b.column) : a = b := by
  have hsa := (@standsIn_of_mem_scanAt text 0 a ha).1
  have hsb := (@standsIn_of_mem_scanAt text 0 b hb).1
  have hplace : a.pos.place = b.pos.place := congrArg toLex (Prod.ext hline hcolumn)
  rcases Nat.lt_trichotomy a.start b.start with hlt | heq | hlt
  · exact absurd hplace (place_lt_of_start_lt hsa hsb hlt).ne
  · exact (ordered_scan text).eq_of_start_eq ha hb heq
  · exact absurd hplace (place_lt_of_start_lt hsb hsa hlt).ne'

end Text

end KlarAudit

import KlarAudit.Proofs.Arena.Prefix

/-!
# The bodies of functions

The bodies of the functions in an arena have been read from stretches of the tokens, one after
another, each of them a bracket group. So an offset lies in at most one body, and it does not matter
which of several bodies a search for the function around an offset would prefer.

## Main definitions

* `BodyOn ts s`: the body `s` has been read from the tokens `ts`
* `BodiesOn bs ts`: bodies have been read from stretches of `ts`, one after another

## Main results

* `bodiesOn_scan`: the bodies of a text, with the functions they belong to
* `innermostFunction?_eq`: the two searches for the function around an offset agree
-/

namespace KlarAudit

/-- **A body on the tokens** from which it has been read: it extends over them, their brackets pair
up, and the last of them may end a declaration. -/
structure BodyOn (ts : List Token) (s : Span) : Prop where
  /-- The body extends over the tokens. -/
  extent : Extent ts s
  /-- The brackets pair up. -/
  nested : Parser.Leads [] [] ts
  /-- The last token ends the function. -/
  terminal : ∀ t ∈ ts.getLast?, t.Terminal

/-- **Bodies on stretches of the tokens**, each with the index of its function. -/
abbrev BodiesOn (bs : List (Nat × Span)) (ts : List Token) : Prop :=
  InOrder (fun b ts => BodyOn ts b.2) bs ts

/-- The body of the declaration, if it has one, is the end of the tokens. -/
def EndsWithBody (d : Declaration) (ts : List Token) : Prop :=
  ∀ s ∈ d.body?, ∃ before here, ts = before ++ here ∧ BodyOn here s

/-- The body of the declaration, if it has one, is the end of the tokens, which satisfies `Q`. -/
def EndsWith (Q : List Token → Span → Prop) (d : Declaration) (ts : List Token) : Prop :=
  ∀ s ∈ d.body?, ∃ before here, ts = before ++ here ∧ Q here s

theorem EndsWith.prepend {Q : List Token → Span → Prop} (d : Declaration) (ts us : List Token)
    (h : EndsWith Q d us) : EndsWith Q d (ts ++ us) := by
  intro s hs
  obtain ⟨before, here, rfl, hhere⟩ := h s hs
  exact ⟨ts ++ before, here, (List.append_assoc ..).symm, hhere⟩

/-! ## Where bodies are read -/

/-- The same stretch, described twice. -/
theorem Between.and {ls rest : List Lexeme} {R S : List Token → Prop} (h : Between ls rest R)
    (k : Between ls rest S) : Between ls rest fun ts => R ts ∧ S ts := by
  obtain ⟨taken, rfl, hR⟩ := h
  obtain ⟨taken', hls, hS⟩ := k
  obtain rfl := List.append_cancel_right hls
  exact ⟨taken, rfl, hR, hS⟩

namespace Parser

/-- **A function ends with its body**, and what is read for the body stands there. -/
theorem endsWith_function {Q : List Token → Span → Prop} (pre : Preamble)
    (hbody : ∀ name, Takes (functionBody name) fun r ts => ∀ s ∈ r.1, Q ts s) :
    Takes (function pre) (EndsWith Q) := by
  refine .before EndsWith.prepend (takes_expect _) fun _ =>
    .before EndsWith.prepend (takes_expectName _) fun name =>
      .before EndsWith.prepend (nests_generics []) fun _ =>
        .before EndsWith.prepend (takes_expect _) fun _ =>
          .before EndsWith.prepend (nests_slots []) fun slots =>
            .before EndsWith.prepend (nests_typeAfter (by decide) _ []) fun _ =>
              .before EndsWith.prepend (nests_whereBounds []) fun _ => ?_
  refine (hbody name.text).bind (fun r => takes_pure (R := fun d us => us = [] ∧ d.body? = r.1) _
    ⟨rfl, rfl⟩) ?_
  rintro r d ts us hr ⟨rfl, hd⟩ s hs
  rw [List.append_nil]
  exact ⟨[], ts, rfl, hr s (hd ▸ hs)⟩

theorem bodyOn_functionBody (name : String) :
    Takes (functionBody name) fun r ts => ∀ s ∈ r.1, BodyOn ts s := by
  intro ls r rest h
  refine ((takes_functionBody _ _ _ _ h).and (nests_functionBody _ [] _ _ _ h)).mono ?_
  rintro ts ⟨⟨last, hlast, hterminal, -, hextent⟩, hnested⟩ s hs
  refine ⟨hextent s hs, hnested, fun t ht => ?_⟩
  cases hlast.symm.trans ht
  exact hterminal

theorem signatureless_enumeration (pre : Preamble) :
    Yields (enumeration pre) (·.signature? = none) :=
  .bind fun _ => .bind fun _ => .bind fun _ => .bind fun _ => .bind fun _ => .bind fun _ =>
    yields_pure rfl

theorem signatureless_constant (keyword : String) (pre : Preamble) :
    Yields (constant keyword pre) (·.signature? = none) :=
  .bind fun _ => .bind fun _ => .bind fun _ => .bind fun _ => .bind fun _ => .bind fun _ =>
    yields_pure rfl

end Parser

theorem signatureless_structItem {pre : Preamble} {ls rest : List Lexeme} {d : Declaration}
    (h : (structItem pre ls).outcome = .ok (d, rest)) : d.signature? = none := by
  obtain ⟨⟨⟨name, generics⟩, mid⟩, -, h⟩ := Attempt.outcome_bind_eq_ok.mp h
  obtain ⟨⟨⟨fs, close⟩, mid'⟩, -, h⟩ := Attempt.outcome_bind_eq_ok.mp h
  cases h
  rfl

/-- A declaration with a signature has no members. -/
theorem isContainer_of_signature? {d : Declaration} {sig : Signature}
    (hsig : d.signature? = some sig) : d.shape.isContainer = false := by
  cases hd : d.shape <;> simp_all [Declaration.signature?, Shape.isContainer]

/-- **A declaration with a signature** that is read whole is read as a function. -/
theorem function_of_opening {byPlace : Bool} {ls rest : List Lexeme} {d : Declaration}
    {sig : Signature} (h : (opening byPlace ls).outcome = .ok (.complete (some d), rest))
    (hsig : d.signature? = some sig) :
    ∃ pre mid, Between ls mid (fun _ => True) ∧ Parser.function pre mid = .ok (d, rest) := by
  obtain ⟨l, tail, pre, after, rfl, hpre, hbefore, ho, -⟩ := opening_split h
  obtain ⟨m, more, i, rfl, -, hopen⟩ := exists_introducer ho
  rw [hopen] at ho
  -- no other reader gives a signature
  have lift {p : Parser Declaration} (hp : Parser.Yields p (·.signature? = none))
      (h : (Attempt.ofParser ((Opening.complete ∘ some) <$> p) (m :: more)).outcome =
        .ok (.complete (some d), rest)) : d.signature? = none := by
    obtain ⟨d', hd, ⟨⟩⟩ := Parser.map_eq_ok.mp h
    exact hp _ _ _ hd
  have signed (hnone : d.signature? = none) : False := nomatch hsig.symm.trans hnone
  cases i with
  | function =>
    obtain ⟨d', hd, ⟨⟩⟩ := Parser.map_eq_ok.mp ho
    exact ⟨pre, _, hbefore.mono fun _ _ => trivial, hd⟩
  | enumeration => exact (signed (lift (Parser.signatureless_enumeration pre) ho)).elim
  | constant => exact (signed (lift (Parser.signatureless_constant _ pre) ho)).elim
  | struct =>
    obtain ⟨⟨d', mid⟩, hd, ⟨⟩⟩ := Attempt.outcome_map_eq_ok.mp ho
    exact (signed (signatureless_structItem hd)).elim
  | module => exact absurd rfl (Parser.yields_module _ pre _ _ _ ho d)
  | _ => obtain ⟨_, -, ⟨⟩⟩ := Parser.map_eq_ok.mp ho

/-- **A declaration read whole** ends with its body, if it has one. -/
theorem endsWith_of_opening {Q : List Token → Span → Prop}
    (hbody : ∀ name, Parser.Takes (Parser.functionBody name) fun r ts => ∀ s ∈ r.1, Q ts s)
    {byPlace : Bool} {ls rest : List Lexeme} {d : Declaration}
    (h : (opening byPlace ls).outcome = .ok (.complete (some d), rest)) :
    Between ls rest (EndsWith Q d) := by
  cases hsig : d.signature? with
  | none =>
    obtain ⟨pre, -, hplaced⟩ := placed_of_opening h
    refine hplaced.mono fun ts _ s hs => ?_
    rw [Declaration.body?, hsig] at hs
    cases hs
  | some sig =>
    obtain ⟨pre, mid, hbefore, hd⟩ := function_of_opening h hsig
    exact hbefore.trans (Parser.endsWith_function pre hbody _ _ _ hd) fun _ _ _ =>
      EndsWith.prepend _ _ _

/-! ## The bodies of a forest -/

namespace DeclTree

/-- A declaration without members has its own body only. -/
theorem bodies_leaf (index : Nat) (parent : Option Nat) (d : Declaration) :
    bodies index (flattenTree index parent (node d [])) =
      (d.body?.map fun s => (index, s)).toList := by
  rw [flattenTree, flattenForest, bodies, bodies, List.append_nil]

/-- A declaration without a body has the bodies of its members. -/
theorem bodies_container {d : Declaration} (hd : d.body? = none) (index : Nat)
    (parent : Option Nat) (ts : List DeclTree) :
    bodies index (flattenTree index parent (node d ts)) =
      bodies (index + 1) (flattenForest (index + 1) (some index) ts) := by
  rw [flattenTree, bodies, hd]
  rfl

theorem bodies_single (index : Nat) (parent : Option Nat) (t : DeclTree) :
    bodies index (flattenForest index parent [t]) = bodies index (flattenTree index parent t) := by
  rw [flattenForest, flattenForest, List.append_nil]

theorem bodies_flattenForest_append (index : Nat) (parent : Option Nat) (ts us : List DeclTree) :
    bodies index (flattenForest index parent (ts ++ us)) =
      bodies index (flattenForest index parent ts) ++
        bodies (index + sizes ts) (flattenForest (index + sizes ts) parent us) := by
  rw [flattenForest_append, bodies_append, length_flattenForest]

end DeclTree

/-- The bodies of the trees stand on stretches of the tokens, whatever their indices are. -/
def ForestBodiesOn (trees : List DeclTree) (ts : List Token) : Prop :=
  ∀ index parent, BodiesOn (bodies index (DeclTree.flattenForest index parent trees)) ts

namespace ForestBodiesOn

variable {trees more : List DeclTree} {ts us : List Token}

theorem nil (ts : List Token) : ForestBodiesOn [] ts :=
  fun _ _ => .nil ts

theorem prepend (h : ForestBodiesOn trees us) (ts : List Token) :
    ForestBodiesOn trees (ts ++ us) :=
  fun index parent => (h index parent).prepend ts

theorem append (h : ForestBodiesOn trees ts) (k : ForestBodiesOn more us) :
    ForestBodiesOn (trees ++ more) (ts ++ us) := by
  intro index parent
  rw [DeclTree.bodies_flattenForest_append]
  exact (h index parent).append (k _ parent)

/-- A declaration without members. -/
theorem leaf {d : Declaration} (h : EndsWithBody d ts) : ForestBodiesOn [.node d []] ts := by
  intro index parent
  rw [DeclTree.bodies_single, DeclTree.bodies_leaf]
  cases hs : d.body? with
  | none => exact .nil ts
  | some s =>
    obtain ⟨before, here, rfl, hhere⟩ := h s hs
    exact InOrder.single hhere before

/-- A declaration with members and without a body. -/
theorem container {d : Declaration} (hd : d.body? = none) (h : ForestBodiesOn trees ts) :
    ForestBodiesOn [.node d trees] ts := by
  intro index parent
  rw [DeclTree.bodies_single, DeclTree.bodies_container hd]
  exact h (index + 1) (some index)

end ForestBodiesOn

/-- What is read has its bodies on the tokens that are taken. -/
theorem bodiesOn_item :
    (∀ byPlace ls (r : ItemResult ls), (item byPlace ls).outcome = .ok r →
      Between ls r.rest (ForestBodiesOn r.tree.toList)) ∧
    ∀ first byPlace ls (m : BodyResult ls), (members first byPlace ls).outcome = .ok m →
      Between ls m.rest (ForestBodiesOn m.trees) := by
  refine reading_induction ?complete ?block ?close ?member ?skipped
  case complete =>
    intro byPlace ls d rest h
    cases d with
    | none =>
      obtain ⟨taken, hls⟩ := suffix_of_item (congrArg Attempt.outcome (item_of_complete h))
      exact ⟨taken, hls.symm, .nil _⟩
    | some d => exact (endsWith_of_opening Parser.bodyOn_functionBody h).mono fun _ => .leaf
  case block =>
    intro byPlace ls b rest m h hm ih
    obtain ⟨l, tail, hl, hfirst, hc, heading, opener, hls, -⟩ := block_of_opening h
    obtain ⟨taken, hrest, htaken⟩ := ih
    refine ⟨(heading ++ [opener]) ++ taken, by simp [hls, ← hrest], ?_⟩
    rw [List.map_append]
    -- a declaration with members has no body of its own, so its heading adds nothing
    exact (ForestBodiesOn.container (body?_of_isContainer hc) htaken).prepend _
  case close =>
    intro first byPlace l tail h hl
    exact ⟨[l], rfl, .nil _⟩
  case member =>
    intro first byPlace l tail r m hl hr hm ihItem ihBody
    exact ihItem.trans ihBody fun _ _ => ForestBodiesOn.append
  case skipped =>
    intro first byPlace l tail e rest m h hl he hs hm ih
    exact (counts_skipped byPlace hl hs).trans ih fun ts us _ hus => hus.prepend ts

/-- **The bodies of a file** have been read from stretches of it, one after another. -/
theorem bodiesOn_topLevel (ls : List Lexeme) :
    ForestBodiesOn (topLevel ls).2 (ls.map Lexeme.token) := by
  induction ls using topLevel_induction with
  | nil => simpa [topLevel_nil] using ForestBodiesOn.nil []
  | @read l tail r h ih =>
    rw [topLevel_of_item h]
    obtain ⟨taken, hls, htaken⟩ := bodiesOn_item.1 _ _ _ h
    have hbodies := htaken.append ih
    rw [← List.map_append, ← hls] at hbodies
    exact hbodies
  | @skipped l tail e h ih =>
    rw [topLevel_of_error h]
    obtain ⟨taken, hls⟩ := (List.dropWhile_suffix _).trans (List.suffix_cons l tail)
    rw [← hls, List.map_append]
    exact ih.prepend _

/-- **The bodies in the arena of a text** stand on stretches of its significant tokens. -/
theorem bodiesOn_scan (text : String) :
    BodiesOn (bodies 0 (parse (scan text)).arena.entries) (significant (scan text)) := by
  have hbodies := bodiesOn_topLevel (Lexeme.ofTokens (scan text)) 0 none
  rw [Lexeme.map_token_ofTokens] at hbodies
  exact hbodies

/-! ## The function around an offset -/

/-- Bodies on stretches of tokens in order come one after another. -/
theorem BodiesOn.apart {bs : List (Nat × Span)} {ts : List Token} (h : BodiesOn bs ts)
    (ho : Ordered ts) : bs.Pairwise fun b c => b.2.stop ≤ c.2.start :=
  List.pairwise_map.mp (ho.pairwise_inOrder (h.map fun _ _ hb => hb.extent))

/-- The body belongs to the entry of its function. -/
theorem mem_bodies_iff {entries : List Entry} {b : Nat × Span} :
    b ∈ bodies 0 entries ↔ ∃ e, entries[b.1]? = some e ∧ e.decl.body? = some b.2 := by
  obtain ⟨f, s⟩ := b
  rw [bodies_eq, List.mem_filterMap]
  constructor
  · rintro ⟨⟨i, e⟩, hmem, hbody⟩
    obtain ⟨⟨e', i'⟩, hzip, ⟨⟩⟩ := List.mem_map.mp hmem
    obtain ⟨s', hs', ⟨⟩⟩ := Option.map_eq_some_iff.mp hbody
    exact ⟨e, List.mem_zipIdx_iff_getElem?.mp hzip, hs'⟩
  · rintro ⟨e, he, hbody⟩
    refine ⟨(f, e), List.mem_map.mpr ⟨(e, f), List.mem_zipIdx_iff_getElem?.mpr he, rfl⟩, ?_⟩
    exact congrArg (Option.map fun s => (f, s)) hbody

/-- **An offset lies in at most one body**, if the bodies come one after another. -/
theorem filter_holds_of_apart {bs : List (Nat × Span)}
    (h : bs.Pairwise fun b c => b.2.stop ≤ c.2.start) (offset : Int) :
    (bs.filter fun b => decide (b.2.Holds offset)) = [] ∨
      ∃ b, (bs.filter fun b => decide (b.2.Holds offset)) = [b] := by
  have hapart := h.filter fun b => decide (b.2.Holds offset)
  have hholds : ∀ b ∈ bs.filter (fun b => decide (b.2.Holds offset)), b.2.Holds offset :=
    fun b hb => of_decide_eq_true (List.mem_filter.mp hb).2
  generalize bs.filter (fun b => decide (b.2.Holds offset)) = held at hapart hholds
  match held with
  | [] => exact .inl rfl
  | [b] => exact .inr ⟨b, rfl⟩
  | b :: c :: held =>
    -- the first one stops before the second one starts, and the offset lies in both
    have hle := (List.pairwise_cons.mp hapart).1 c List.mem_cons_self
    have hb := (hholds b List.mem_cons_self).2
    have hc := (hholds c (by simp)).1
    omega

/-- The bodies of the functions with their declarations. -/
def declaredBodies (entries : List Entry) : List (Nat × Declaration × Span) :=
  (indexed entries).filterMap fun (i, e) => e.decl.body?.map fun s => (i, e.decl, s)

theorem map_declaredBodies (entries : List Entry) :
    (declaredBodies entries).map (fun b => (b.1, b.2.2)) = bodies 0 entries := by
  rw [declaredBodies, bodies_eq, List.map_filterMap]
  refine List.filterMap_congr fun x _ => ?_
  cases hs : x.2.decl.body? <;> simp [hs]

/-- **The two searches agree**: they prefer another one of several bodies around an offset, but
there is at most one. -/
theorem innermostFunction?_eq {entries : List Entry}
    (h : (bodies 0 entries).Pairwise fun b c => b.2.stop ≤ c.2.start) (offset : Int) :
    innermostFunction? entries offset = (enclosingFunction? entries offset).map (·.1) := by
  have hheld : (bodies 0 entries).filter (fun b => decide (b.2.Holds offset)) =
      ((declaredBodies entries).filter fun b => decide (b.2.2.Holds offset)).map
        fun b => (b.1, b.2.2) := by
    rw [← map_declaredBodies, List.filter_map]
    rfl
  rw [innermostFunction?_eq_foldl, enclosingFunction?, ← declaredBodies]
  dsimp only
  rcases filter_holds_of_apart h offset with hnil | ⟨b, hb⟩
  · rw [hnil] at hheld ⊢
    rw [List.map_eq_nil_iff.mp hheld.symm]
    rfl
  · rw [hb] at hheld ⊢
    obtain ⟨c, hc, rfl⟩ := List.map_eq_singleton_iff.mp hheld.symm
    rw [hc]
    rfl

/-- The function around an offset has a body that holds it. -/
theorem exists_body_of_innermostFunction? {entries : List Entry}
    (h : (bodies 0 entries).Pairwise fun b c => b.2.stop ≤ c.2.start) {offset : Int} {f : Nat}
    (hf : innermostFunction? entries offset = some f) :
    ∃ s, (f, s) ∈ bodies 0 entries ∧ s.Holds offset := by
  rw [innermostFunction?_eq_foldl] at hf
  rcases filter_holds_of_apart h offset with hnil | ⟨⟨g, s⟩, hb⟩
  · rw [hnil] at hf
    cases hf
  · have hmem : (g, s) ∈ (bodies 0 entries).filter fun b => decide (b.2.Holds offset) := by
      simp [hb]
    rw [hb] at hf
    cases hf
    obtain ⟨hmem, hholds⟩ := List.mem_filter.mp hmem
    exact ⟨s, hmem, of_decide_eq_true hholds⟩

end KlarAudit

import KlarAudit.Proofs.Arena.Body
import KlarAudit.Proofs.Grammar.Origin

/-!
# Where the positions in a file come from

What holds of the parsers carries over to attempts, to declarations with their members and to files:
the declarations of a file are marked by its tokens, and every issue that has been recorded is sited
at one of them or at the end.

## Main definitions

* `Attempt.Draws S x V`: the attempt `x` gives a value that satisfies `V`, and its issues and its
  error are sited in `S`

## Main results

* `draws_opening`: any declaration, whole or up to its members
* `draws_item`: a declaration with its members, and the members of a body
* `draws_topLevel`: the declarations and the issues of a file
* `exists_of_mem_issues`, `marked_of_mem_entries`: what has been parsed, by the tokens it is from
-/

namespace KlarAudit

variable {S : Token → Prop}

/-- **The attempt draws on `S`**: it gives a value that satisfies `V`, and its issues and its error
are sited in `S`. -/
structure Attempt.Draws {α : Type} (S : Token → Prop) (x : Attempt α) (V : α → Prop) : Prop where
  /-- The issues recorded. -/
  issues : ∀ i ∈ x.issues, i.error.site.In S
  /-- The value or the error. -/
  outcome : Sited S V x.outcome

namespace Attempt

variable {α β : Type} {V : α → Prop} {W : β → Prop}

section

variable {x : Attempt α}

theorem Draws.of_ok {a : α} (hx : Draws S x V) (h : x.outcome = .ok a) :
    (∀ i ∈ x.issues, i.error.site.In S) ∧ V a := by
  obtain ⟨hissues, houtcome⟩ := hx
  rw [h] at houtcome
  exact ⟨hissues, houtcome⟩

theorem Draws.of_error {e : SyntaxError} (hx : Draws S x V) (h : x.outcome = .error e) :
    (∀ i ∈ x.issues, i.error.site.In S) ∧ e.site.In S := by
  obtain ⟨hissues, houtcome⟩ := hx
  rw [h] at houtcome
  exact ⟨hissues, houtcome⟩

end

/-- **One attempt after another.** -/
theorem Draws.bind {x : Attempt α} {f : α → Attempt β} (hx : Draws S x V)
    (hf : ∀ a, V a → Draws S (f a) W) : Draws S (x >>= f) W := by
  show Draws S (x.andThen f) W
  unfold andThen
  cases ho : x.outcome with
  | error e =>
    obtain ⟨hissues, he⟩ := hx.of_error ho
    exact ⟨hissues, he⟩
  | ok a =>
    obtain ⟨hissues, ha⟩ := hx.of_ok ho
    obtain ⟨hmore, hvalue⟩ := hf a ha
    exact ⟨List.forall_mem_append.mpr ⟨hissues, hmore⟩, hvalue⟩

theorem draws_pure {a : α} (h : V a) : Draws S (pure a) V :=
  ⟨List.forall_mem_nil _, h⟩

theorem draws_fail {e : SyntaxError} (h : e.site.In S) : Draws S (fail e) V :=
  ⟨List.forall_mem_nil _, h⟩

theorem draws_ofParser {p : Parser α} (hp : Parser.Draws S p V) {ls : List Lexeme}
    (hls : Supplied S ls) : Draws S (ofParser p ls) fun r => V r.1 ∧ Supplied S r.2 :=
  ⟨List.forall_mem_nil _, hp ls hls⟩

theorem Draws.map {x : Attempt α} {f : α → β} (hx : Draws S x V) (hf : ∀ a, V a → W (f a)) :
    Draws S (f <$> x) W :=
  hx.bind fun a ha => draws_pure (hf a ha)

end Attempt

/-! ## Structures -/

theorem Supplied.afterComma {ls : List Lexeme} (h : Supplied S ls) :
    Supplied S (afterComma ls) := by
  unfold KlarAudit.afterComma
  split
  · exact h.tail
  · exact h

theorem draws_recordMissing {following : Option Token} (h : ∀ t ∈ following, S t) :
    (recordMissing following).Draws S fun _ => True := by
  cases following with
  | none => exact Attempt.draws_pure trivial
  | some t => exact ⟨List.forall_mem_singleton.mpr (h t rfl), trivial⟩

theorem draws_fields {first : Token} (hfirst : S first) {ls : List Lexeme} (hls : Supplied S ls) :
    (fields first ls).Draws S fun r => (∀ f ∈ r.1.1, Marked S f.pos) ∧ Supplied S r.2 := by
  fun_induction fields first ls with
  | case1 => exact Attempt.draws_fail hfirst
  | case2 l tail hc => exact Attempt.draws_pure ⟨by simp, hls.tail⟩
  | case3 l tail hc e he => exact Attempt.draws_fail (Parser.draws_field.of_error hls he)
  | case4 l tail hc f following rest he ih =>
    obtain ⟨⟨hf, hfollowing⟩, hrest⟩ := Parser.draws_field.of_ok hls he
    refine (draws_recordMissing hfollowing).bind fun _ _ => (ih hrest.afterComma).bind ?_
    rintro ⟨⟨fs, close⟩, left⟩ ⟨hfs, hleft⟩
    exact Attempt.draws_pure ⟨List.forall_mem_cons.mpr ⟨hf, hfs⟩, hleft⟩

theorem draws_structItem {pre : Preamble} (hpre : S pre.first) {ls : List Lexeme}
    (hls : Supplied S ls) :
    (structItem pre ls).Draws S fun r => Heading.MarkedBy S r.1.toHeading ∧ Supplied S r.2 := by
  refine (Attempt.draws_ofParser Parser.draws_structHeading hls).bind ?_
  rintro ⟨⟨name, generics⟩, mid⟩ ⟨hname, hmid⟩
  have hbody : (structBody pre.first mid).Draws S fun r =>
      (∀ f ∈ r.1.1, Marked S f.pos) ∧ Supplied S r.2 := by
    unfold structBody
    split
    · exact draws_fields hpre hmid.tail
    · exact Attempt.draws_ofParser Parser.draws_tupleBody hmid
  refine hbody.bind ?_
  rintro ⟨⟨fs, close⟩, rest⟩ ⟨hfs, hrest⟩
  exact Attempt.draws_pure
    ⟨Heading.markedBy_mk (marked_of hname) (List.forall_mem_map.mpr hfs), hrest⟩

/-! ## Any declaration -/

theorem draws_open (i : Introducer) (t : Token) {pre : Preamble} (hpre : S pre.first)
    {ls : List Lexeme} (hls : Supplied S ls) :
    (i.open t pre ls).Draws S fun r => r.1.MarkedBy S ∧ Supplied S r.2 := by
  -- The keyword decides whether a whole declaration is read, nothing that is kept, or what stands
  -- before members; structures are read by an attempt of their own.
  have whole {p : Parser Declaration}
      (hp : Parser.Draws S p fun d => Heading.MarkedBy S d.toHeading) :
      (Attempt.ofParser ((Opening.complete ∘ some) <$> p) ls).Draws S fun r =>
        r.1.MarkedBy S ∧ Supplied S r.2 := by
    refine Attempt.draws_ofParser (hp.map fun d hd => ?_) hls
    rintro _ ⟨⟩
    exact hd
  have nothing {p : Parser Unit} (hp : Parser.Draws S p fun _ => True) :
      (Attempt.ofParser ((fun _ => Opening.complete none) <$> p) ls).Draws S fun r =>
        r.1.MarkedBy S ∧ Supplied S r.2 :=
    Attempt.draws_ofParser (hp.map fun _ _ _ hd => nomatch hd) hls
  have upToMembers {p : Parser Block} (hp : Parser.Draws S p (Block.MarkedBy S)) :
      (Attempt.ofParser (Opening.block <$> p) ls).Draws S fun r =>
        r.1.MarkedBy S ∧ Supplied S r.2 :=
    Attempt.draws_ofParser (hp.map fun b hb => show (Opening.block b).MarkedBy S from hb) hls
  cases i with
  | function => exact whole (Parser.draws_function pre)
  | struct =>
    refine (draws_structItem hpre hls).map ?_
    rintro ⟨d, rest⟩ ⟨hd, hrest⟩
    refine ⟨?_, hrest⟩
    rintro _ ⟨⟩
    exact hd
  | enumeration => exact whole (Parser.draws_enumeration hpre)
  | trait => exact upToMembers (Parser.draws_trait hpre)
  | impl => exact upToMembers (Parser.draws_impl hpre)
  | constant => exact whole (Parser.draws_constant _ pre)
  | module => exact Attempt.draws_ofParser (Parser.draws_module _ hpre) hls
  | importItem => exact nothing (Parser.draws_importItem _)
  | typeAlias => exact nothing Parser.draws_typeAlias

/-- **Any declaration**, whole or up to its members. -/
theorem draws_opening (byPlace : Bool) {ls : List Lexeme} (hls : Supplied S ls) :
    (opening byPlace ls).Draws S fun r => r.1.MarkedBy S ∧ Supplied S r.2 := by
  cases ls with
  | nil => exact Attempt.draws_fail trivial
  | cons l tail =>
    have hl : S l.token := hls l List.mem_cons_self
    refine (Attempt.draws_ofParser (Parser.draws_preamble byPlace hl) hls).bind ?_
    rintro ⟨pre, after⟩ ⟨hpre, hafter⟩
    cases after with
    | nil => exact Attempt.draws_fail trivial
    | cons m more =>
      show (openAfter pre (m :: more)).Draws S _
      rw [openAfter]
      split
      · exact Attempt.draws_fail (hafter m List.mem_cons_self)
      · exact draws_open _ _ hpre hafter

/-! ## Declarations with their members -/

theorem Supplied.resyncInBody {before : Token} {depth : Nat} {ls rest : List Lexeme}
    (h : Supplied S ls) (hr : resyncInBody before depth ls = some rest) : Supplied S rest :=
  h.suffix (counts_of_resyncInBody hr).suffix

/-- All declarations of a tree are marked by tokens in `S`. -/
abbrev DeclTree.MarkedBy (S : Token → Prop) : DeclTree → Prop :=
  DeclTree.All fun d => Heading.MarkedBy S d.toHeading

/-- **A declaration with its members**, and the members of a body. -/
theorem draws_item :
    (∀ byPlace ls, Supplied S ls → (item byPlace ls).Draws S fun r =>
      (∀ t ∈ r.tree, t.MarkedBy S) ∧ Supplied S r.rest) ∧
    ∀ first byPlace ls, S first → Supplied S ls → (members first byPlace ls).Draws S fun r =>
      (∀ t ∈ r.trees, t.MarkedBy S) ∧ Supplied S r.rest := by
  -- Each case joins what its parts give: their issues, their trees, and what the last one leaves.
  refine forest_induction ?failed ?complete ?block ?nil ?close ?member ?ended ?skipped
  case failed =>
    intro byPlace ls e ho hls
    obtain ⟨hissues, he⟩ := (draws_opening byPlace hls).of_error ho
    rw [item_of_error ho]
    exact ⟨hissues, he⟩
  case complete =>
    intro byPlace ls d rest ho hls
    obtain ⟨hissues, hmarked, hrest⟩ := (draws_opening byPlace hls).of_ok ho
    rw [item_of_complete ho]
    refine ⟨hissues, fun t ht => ?_, hrest⟩
    obtain ⟨d, rfl, rfl⟩ := Option.map_eq_some_iff.mp ht
    exact .node (hmarked d rfl) (List.forall_mem_nil _)
  case block =>
    intro byPlace ls b rest ho ih hls
    obtain ⟨hissues, ⟨hfirst, hheading⟩, hrest⟩ := (draws_opening byPlace hls).of_ok ho
    obtain ⟨hmore, hbody⟩ := ih hfirst hrest
    rw [item_of_block ho]
    refine ⟨List.forall_mem_append.mpr ⟨hissues, hmore⟩, ?_⟩
    generalize (members b.first b.publicMembers rest).outcome = body at hbody ⊢
    cases body with
    | error e => exact hbody
    | ok m =>
      refine ⟨?_, hbody.2⟩
      rintro t ⟨⟩
      exact .node hheading hbody.1
  case nil =>
    intro first byPlace hfirst hls
    rw [members]
    exact Attempt.draws_fail hfirst
  case close =>
    intro first byPlace l tail hl hfirst hls
    rw [members_of_close hl]
    exact Attempt.draws_pure ⟨List.forall_mem_nil _, hls.tail⟩
  case member =>
    intro first byPlace l tail r hl hi ihItem ihBody hfirst hls
    obtain ⟨hissues, htree, hrest⟩ := (ihItem hls).of_ok hi
    obtain ⟨hmore, hbody⟩ := ihBody hfirst hrest
    rw [members_of_item hl hi]
    refine ⟨List.forall_mem_append.mpr ⟨hissues, hmore⟩, ?_⟩
    generalize (members first byPlace r.rest).outcome = body at hbody ⊢
    cases body with
    | error e => exact hbody
    | ok m => exact ⟨List.forall_mem_append.mpr ⟨by simpa using htree, hbody.1⟩, hbody.2⟩
  case ended =>
    intro first byPlace l tail e hl hi hr ihItem hfirst hls
    obtain ⟨hissues, he⟩ := (ihItem hls).of_error hi
    rw [members_of_end hl hi hr]
    exact ⟨hissues, he⟩
  case skipped =>
    intro first byPlace l tail e rest hl hi hr ihItem ihBody hfirst hls
    obtain ⟨hissues, he⟩ := (ihItem hls).of_error hi
    obtain ⟨hmore, hbody⟩ := ihBody hfirst (hls.tail.resyncInBody hr)
    rw [members_of_resync hl hi hr]
    -- the error of the skipped member becomes an issue
    refine ⟨List.forall_mem_append.mpr ⟨hissues, List.forall_mem_cons.mpr ⟨he, hmore⟩⟩, ?_⟩
    generalize (members first byPlace rest).outcome = body at hbody ⊢
    cases body with
    | error e => exact hbody
    | ok m => exact hbody

/-- **A file**: its declarations are marked by its tokens, and its issues are sited at them. -/
theorem draws_topLevel {ls : List Lexeme} (hls : Supplied S ls) :
    (∀ i ∈ (topLevel ls).1, i.error.site.In S) ∧ ∀ t ∈ (topLevel ls).2, t.MarkedBy S := by
  induction ls using topLevel_induction with
  | nil => simp [topLevel_nil]
  | @read l tail r h ih =>
    obtain ⟨hissues, htree, hrest⟩ := (draws_item.1 false (l :: tail) hls).of_ok h
    obtain ⟨hmore, htrees⟩ := ih hrest
    rw [topLevel_of_item h]
    exact ⟨List.forall_mem_append.mpr ⟨hissues, hmore⟩,
      List.forall_mem_append.mpr ⟨by simpa using htree, htrees⟩⟩
  | @skipped l tail e h ih =>
    obtain ⟨hissues, he⟩ := (draws_item.1 false (l :: tail) hls).of_error h
    obtain ⟨hmore, htrees⟩ := ih (hls.tail.suffix (List.dropWhile_suffix _))
    rw [topLevel_of_error h]
    refine ⟨List.forall_mem_append.mpr ⟨hissues, ?_⟩, htrees⟩
    exact List.forall_mem_cons.mpr ⟨he, hmore⟩

/-! ## The issues and the entries of a token sequence -/

/-- The lexemes of a sequence are made of its tokens. -/
theorem supplied_ofTokens (ts : List Token) : Supplied (· ∈ ts) (Lexeme.ofTokens ts) := by
  intro l hl
  have hmem := List.mem_map_of_mem (f := Lexeme.token) hl
  rw [Lexeme.map_token_ofTokens] at hmem
  exact (List.mem_filter.mp hmem).1

/-- A site in a sequence that is not without significant tokens is the place of a token. -/
theorem Site.marked_position {ts : List Token} {site : Site} (hne : significant ts ≠ [])
    (h : site.In (· ∈ ts)) : Marked (· ∈ ts) (site.position ts) := by
  cases site with
  | token t => exact marked_of h
  | lastSignificant =>
    have hlast := List.getLast?_eq_some_getLast hne
    rw [position, hlast]
    exact marked_of (List.mem_filter.mp (List.getLast_mem hne)).1
  | last =>
    have hts : ts ≠ [] := fun h => hne (by rw [h]; rfl)
    rw [position, List.getLast?_eq_some_getLast hts]
    exact marked_of (List.getLast_mem hts)

/-- **An issue is at a token** of the sequence that has been parsed. -/
theorem exists_of_mem_issues {ts : List Token} {i : ParseIssue} (h : i ∈ (parse ts).issues) :
    ∃ t ∈ ts, t.line = i.line ∧ t.column = i.column := by
  obtain ⟨issue, hissue, rfl⟩ := List.mem_map.mp h
  -- Without significant tokens nothing is read, so there would be no issue.
  have hne : significant ts ≠ [] := by
    intro hnil
    rw [← Lexeme.map_token_ofTokens, List.map_eq_nil_iff] at hnil
    rw [hnil, topLevel_nil] at hissue
    cases hissue
  have hsite := (draws_topLevel (supplied_ofTokens ts)).1 issue hissue
  obtain ⟨t, ht, hpos⟩ := Site.marked_position hne hsite
  exact ⟨t, ht, congrArg Position.line hpos, congrArg Position.column hpos⟩

/-- **The positions of an entry** are those of tokens of the sequence that has been parsed. -/
theorem marked_of_mem_entries {ts : List Token} {e : Entry} (h : e ∈ (parse ts).arena.entries) :
    Heading.MarkedBy (· ∈ ts) e.decl.toHeading :=
  DeclTree.All.of_mem_flattenForest _ (draws_topLevel (supplied_ofTokens ts)).2 h

end KlarAudit

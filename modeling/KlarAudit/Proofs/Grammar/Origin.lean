import KlarAudit.Grammar.Opening
import KlarAudit.Proofs.Grammar.Nesting

/-!
# Where positions come from

Reading makes up no positions: every position in what is read, and every site of an error, is that
of a token of the input, or else the end of the input. A parser is described by what it draws on:
started on tokens of a set, it reads values whose positions are marked by tokens of the set, leaves
tokens of the set, and points at one of them when it fails.

## Main definitions

* `Marked S p`: the position `p` is that of a token in `S`
* `Shape.positions`, `Heading.positions`: the positions in what is read of a declaration
* `Parser.Draws S p V`: the parser `p`, on tokens in `S`, reads values that satisfy `V`

## Main results

* `Draws.bind`: one parser after another
* `draws_collect`, `draws_group`: the two ways to read a run of tokens
* `draws_function`, `draws_enumeration`, `draws_trait`, `draws_impl`: declarations
-/

namespace KlarAudit

/-- The position is that of a token in `S`. -/
def Marked (S : Token → Prop) (p : Position) : Prop :=
  ∃ t, S t ∧ t.pos = p

/-- The site is a token in `S`, or the end of the input. -/
def Site.In (S : Token → Prop) : Site → Prop
  | token t => S t
  | lastSignificant | last => True

/-- The tokens of the lexemes are in `S`. -/
def Supplied (S : Token → Prop) (ls : List Lexeme) : Prop :=
  ∀ l ∈ ls, S l.token

/-- The positions in what the kind of a declaration adds. -/
def Shape.positions : Shape → List Position
  | struct _ fields => fields.map (·.pos)
  | enum _ variants => variants.map (·.pos)
  | function sig => sig.params.map (·.pos)
  | _ => []

/-- **The positions in a declaration**: its own, and those in what its kind adds. -/
def Heading.positions (h : Heading) : List Position :=
  h.pos :: h.shape.positions

/-- All positions in the declaration are those of tokens in `S`. -/
def Heading.MarkedBy (S : Token → Prop) (h : Heading) : Prop :=
  ∀ p ∈ h.positions, Marked S p

/-- A declaration with members starts with a token in `S`, and its heading is marked by such
tokens. -/
structure Block.MarkedBy (S : Token → Prop) (b : Block) : Prop where
  /-- Its first token. -/
  first : S b.first
  /-- Its heading. -/
  heading : b.heading.MarkedBy S

/-- What has been opened is marked by tokens in `S`. -/
def Opening.MarkedBy (S : Token → Prop) : Opening → Prop
  | complete d? => ∀ d ∈ d?, Heading.MarkedBy S d.toHeading
  | block b => b.MarkedBy S

variable {S : Token → Prop}

theorem marked_of {t : Token} (h : S t) : Marked S t.pos :=
  ⟨t, h, rfl⟩

namespace Supplied

variable {ls rest : List Lexeme}

theorem tail (h : Supplied S ls) : Supplied S ls.tail :=
  fun l hl => h l (List.mem_of_mem_tail hl)

theorem suffix (h : Supplied S ls) (hs : rest <:+ ls) : Supplied S rest :=
  fun l hl => h l (hs.subset hl)

/-- The site of an error at the next token, or at the end of the input. -/
theorem in_head (h : Supplied S ls) {site : Site} (hs : site.In S) :
    ((ls.head?.map (.token ·.token)).getD site).In S := by
  cases ls with
  | nil => exact hs
  | cons l ls => exact h l List.mem_cons_self

end Supplied

theorem Heading.markedBy_mk {h : Heading} (hpos : Marked S h.pos)
    (hshape : ∀ p ∈ h.shape.positions, Marked S p) : h.MarkedBy S :=
  List.forall_mem_cons.mpr ⟨hpos, hshape⟩

/-- Reading on changes the open brackets by tokens that have been read. -/
theorem mem_of_nest {stack stack' : List Token} {t o : Token} (h : nest stack t = some stack')
    (ho : o ∈ stack') : o = t ∨ o ∈ stack := by
  rcases nest_cases h with ⟨_, -, rfl⟩ | ⟨-, -, rfl⟩ | ⟨_, _, -, -, -, rfl⟩
  · exact List.mem_cons.mp ho
  · exact .inr ho
  · exact .inr (List.mem_cons_of_mem _ ho)

/-- Cutting a run at its commas gives tokens of the run. -/
theorem Run.mem_of_mem_splitFrom {depth : Nat} {ts part : List Token} {t : Token}
    (h : part ∈ (splitFrom depth ts).1 :: (splitFrom depth ts).2) (ht : t ∈ part) : t ∈ ts := by
  -- Induction on the run: a comma outside brackets starts a part, any other token joins the first.
  induction ts generalizing depth part with
  | nil =>
    rw [splitFrom, List.mem_singleton] at h
    rwa [h] at ht
  | cons u ts ih =>
    rw [splitFrom] at h
    dsimp only at h
    split at h
    · rcases List.mem_cons.mp h with rfl | h
      · cases ht
      · exact List.mem_cons_of_mem _ (ih h ht)
    · rcases List.mem_cons.mp h with rfl | h
      · rcases List.mem_cons.mp ht with rfl | ht
        · exact List.mem_cons_self
        · exact List.mem_cons_of_mem _ (ih List.mem_cons_self ht)
      · exact List.mem_cons_of_mem _ (ih (List.mem_cons_of_mem _ h) ht)

/-! ## Values and errors -/

section Sited

variable {α β : Type} {V : α → Prop} {W : β → Prop}

/-- A value that satisfies `V`, or an error at a token in `S`. -/
def Sited (S : Token → Prop) (V : α → Prop) : Except SyntaxError α → Prop
  | .ok a => V a
  | .error e => e.site.In S

namespace Sited

theorem map {x : Except SyntaxError α} {f : α → β} (h : Sited S V x)
    (hf : ∀ a, V a → W (f a)) : Sited S W (x.map f) := by
  cases x with
  | ok a => exact hf a h
  | error e => exact h

theorem bind {x : Except SyntaxError α} {f : α → Except SyntaxError β} (h : Sited S V x)
    (hf : ∀ a, V a → Sited S W (f a)) : Sited S W (x >>= f) := by
  cases x with
  | ok a => exact hf a h
  | error e => exact h

theorem ite {c : Prop} [Decidable c] {x y : Except SyntaxError α} (hx : Sited S V x)
    (hy : Sited S V y) : Sited S V (if c then x else y) := by
  split
  · exact hx
  · exact hy

end Sited

end Sited

namespace Parser

variable {α β : Type} {V : α → Prop} {W : β → Prop}

/-- What reading gives: a value that satisfies `V` and tokens in `S`, or an error at one of them. -/
abbrev Drawn (S : Token → Prop) (V : α → Prop) : Except SyntaxError (α × List Lexeme) → Prop :=
  Sited S fun r => V r.1 ∧ Supplied S r.2

/-- **The parser draws on `S`**: on tokens in `S` it reads values that satisfy `V`, and neither what
it leaves nor an error points elsewhere. -/
def Draws (S : Token → Prop) (p : Parser α) (V : α → Prop) : Prop :=
  ∀ ls, Supplied S ls → Drawn S V (p ls)

section

variable {p : Parser α} {ls rest : List Lexeme}

/-- What a parser has read that draws on the input. -/
theorem Draws.of_ok {a : α} (hp : Draws S p V) (hls : Supplied S ls) (h : p ls = .ok (a, rest)) :
    V a ∧ Supplied S rest := by
  have hd := hp ls hls
  rwa [h] at hd

/-- Where a parser has failed that draws on the input. -/
theorem Draws.of_error {e : SyntaxError} (hp : Draws S p V) (hls : Supplied S ls)
    (h : p ls = .error e) : e.site.In S := by
  have hd := hp ls hls
  rwa [h] at hd

end

/-- **One parser after another.** -/
theorem Draws.bind {p : Parser α} {f : α → Parser β} (hp : Draws S p V)
    (hf : ∀ a, V a → Draws S (f a) W) : Draws S (p >>= f) W :=
  fun ls hls => (hp ls hls).bind fun r hr => hf r.1 hr.1 r.2 hr.2

theorem Draws.map {p : Parser α} {f : α → β} (hp : Draws S p V) (hf : ∀ a, V a → W (f a)) :
    Draws S (f <$> p) W :=
  fun ls hls => (hp ls hls).bind fun r hr => ⟨hf r.1 hr.1, hr.2⟩

theorem draws_pure {a : α} (h : V a) : Draws S (pure a) V :=
  fun _ hls => ⟨h, hls⟩

theorem draws_fail {e : SyntaxError} (h : e.site.In S) : Draws S (fail e) V :=
  fun _ _ => h

theorem draws_peek? : Draws S peek? fun _ => True :=
  fun _ hls => ⟨trivial, hls⟩

theorem draws_accept (s : String) : Draws S (accept s) fun t => ∀ x ∈ t, S x := by
  intro ls hls
  cases ls with
  | nil => exact ⟨by simp, hls⟩
  | cons l ls =>
    rw [accept]
    split
    · refine ⟨?_, hls.tail⟩
      rintro x ⟨⟩
      exact hls l List.mem_cons_self
    · exact ⟨by simp, hls⟩

theorem draws_expect (s : String) : Draws S (expect s) S := by
  intro ls hls
  cases ls with
  | nil => trivial
  | cons l ls =>
    rw [expect]
    split
    · exact ⟨hls l List.mem_cons_self, hls.tail⟩
    · exact hls l List.mem_cons_self

theorem draws_expectName (what : String) : Draws S (expectName what) S := by
  intro ls hls
  cases ls with
  | nil => trivial
  | cons l ls =>
    rw [expectName]
    split
    · exact ⟨hls l List.mem_cons_self, hls.tail⟩
    · exact hls l List.mem_cons_self

theorem draws_groupFrom {o : Token} {stack : List Token} (h : ∀ x ∈ o :: stack, S x) :
    Draws S (groupFrom o stack) S := by
  intro ls hls
  -- The open brackets have been read, so an error at one that is not closed is at a token in `S`.
  induction ls generalizing o stack with
  | nil => exact h o List.mem_cons_self
  | cons l ls ih =>
    have hl := hls l List.mem_cons_self
    rw [groupFrom]
    split
    · exact hl
    · exact ⟨hl, hls.tail⟩
    · rename_i o' stack' hn
      refine ih (fun x hx => ?_) hls.tail
      rcases mem_of_nest hn hx with rfl | hx
      · exact hl
      · exact h x hx

/-- **A bracket group** is read between two tokens in `S`. -/
theorem draws_group (s : String) : Draws S (group s) fun g => ∀ x ∈ g, S x.1 ∧ S x.2 := by
  intro ls hls
  cases ls with
  | nil => exact ⟨by simp, hls⟩
  | cons l ls =>
    have hl := hls l List.mem_cons_self
    rw [group]
    split
    · refine Sited.map (draws_groupFrom (List.forall_mem_singleton.mpr hl) ls hls.tail) ?_
      rintro ⟨close, rest⟩ ⟨hclose, hrest⟩
      refine ⟨?_, hrest⟩
      rintro x ⟨⟩
      exact ⟨hl, hclose⟩
    · exact ⟨by simp, hls⟩

theorem draws_collectFrom (terminators : List String) (angles : Bool) {stack : List Token}
    (angle : Nat) (h : ∀ x ∈ stack, S x) :
    Draws S (collectFrom terminators angles stack angle) fun ts => ∀ t ∈ ts, S t := by
  intro ls hls
  induction ls generalizing stack angle with
  | nil =>
    cases stack with
    | nil => trivial
    | cons o stack => exact h o List.mem_cons_self
  | cons l ls ih =>
    have hl := hls l List.mem_cons_self
    unfold collectFrom
    dsimp only
    split
    · exact ⟨by simp, hls⟩
    · split
      · exact hl
      · rename_i stack' hn
        refine Sited.map (ih _ (fun x hx => ?_) hls.tail) ?_
        · rcases mem_of_nest hn hx with rfl | hx
          · exact hl
          · exact h x hx
        · rintro ⟨ts, rest⟩ ⟨hts, hrest⟩
          exact ⟨List.forall_mem_cons.mpr ⟨hl, hts⟩, hrest⟩

/-- **A collected run** is one of tokens in `S`. -/
theorem draws_collect (terminators : List String) (angles : Bool) :
    Draws S (collect terminators angles) fun ts => ∀ t ∈ ts, S t :=
  draws_collectFrom terminators angles 0 (by simp)

/-! ## Attributes and marks -/

theorem draws_attributeGroup : Draws S attributeGroup fun _ => True := by
  refine (draws_group _).bind fun g _ => ?_
  cases g with
  | some _ => exact draws_pure trivial
  | none => exact fun ls hls => hls.in_head trivial

theorem draws_oneAttribute : Draws S oneAttribute fun _ => True := by
  refine (draws_accept _).bind fun t _ => ?_
  cases t with
  | some _ => exact (draws_accept _).bind fun _ _ => draws_attributeGroup
  | none =>
    refine (draws_accept _).bind fun t _ => ?_
    cases t with
    | some _ =>
      exact (draws_expectName _).bind fun _ _ => (draws_group _).bind fun _ _ => draws_pure trivial
    | none => exact draws_pure trivial

theorem draws_attributes : Draws S attributes fun _ => True := by
  intro ls hls
  fun_induction attributes ls with
  | case1 ls e he => exact draws_oneAttribute.of_error hls he
  | case2 ls rest he => exact draws_oneAttribute.of_ok hls he
  | case3 ls rest he ih => exact ih (draws_oneAttribute.of_ok hls he).2

theorem draws_visibility (byPlace : Bool) : Draws S (visibility byPlace) fun _ => True := by
  refine (draws_accept _).bind fun t _ => ?_
  cases t with
  | none => exact draws_pure trivial
  | some _ => exact (draws_group _).bind fun _ _ => draws_pure trivial

theorem draws_preamble (byPlace : Bool) {l : Lexeme} (hl : S l.token) :
    Draws S (preamble byPlace l) fun pre => S pre.first :=
  draws_attributes.bind fun _ _ => draws_peek?.bind fun _ _ =>
    (draws_visibility byPlace).bind fun _ _ => (draws_accept _).bind fun _ _ => draws_pure hl

/-! ## Generic parameters, bounds and types -/

theorem draws_genericsIn (opener closer : String) :
    Draws S (genericsIn opener closer) fun _ => True := by
  refine (draws_accept _).bind fun t _ => ?_
  cases t with
  | none => exact draws_pure trivial
  | some _ =>
    exact (draws_collect _ _).bind fun _ _ => (draws_expect _).bind fun _ _ => draws_pure trivial

theorem draws_generics : Draws S generics fun _ => True := by
  refine (draws_genericsIn _ _).bind fun g _ => ?_
  cases g with
  | some _ => exact draws_pure trivial
  | none => exact (draws_genericsIn _ _).bind fun _ _ => draws_pure trivial

theorem draws_whereBounds : Draws S whereBounds fun _ => True := by
  refine (draws_accept _).bind fun t _ => ?_
  cases t with
  | none => exact draws_pure trivial
  | some _ => exact (draws_collect _ _).bind fun _ _ => draws_pure trivial

theorem draws_typeAfter (s : String) (terminators : List String) :
    Draws S (typeAfter s terminators) fun _ => True := by
  refine (draws_accept _).bind fun t _ => ?_
  cases t with
  | none => exact draws_pure trivial
  | some _ => exact (draws_collect _ _).bind fun _ _ => draws_pure trivial

/-! ## Functions -/

/-- The position of a parameter is that of a token in `S`. -/
def Slot.MarkedBy (S : Token → Prop) : Slot → Prop
  | receiver _ => True
  | param p => Marked S p.pos

theorem sited_slotOfRun {t : Token} {ts : List Token} (h : ∀ x ∈ t :: ts, S x) :
    Sited S (Slot.MarkedBy S) (slotOfRun t ts) := by
  have ht : S t := h t List.mem_cons_self
  unfold slotOfRun
  dsimp only
  refine .ite trivial ?_
  split
  · exact ht
  · split
    · exact ht
    · rename_i name hname
      have hmem := (List.mem_filter.mp (List.mem_of_getLast? hname)).1
      exact marked_of (h name (List.mem_of_mem_take hmem))

theorem sited_slotsOfRun {run : List Token} (h : ∀ x ∈ run, S x) :
    Sited S (fun slots => ∀ s ∈ slots, s.MarkedBy S) (slotsOfRun run) := by
  cases run with
  | nil => simp [slotsOfRun, Sited]
  | cons t ts => exact (sited_slotOfRun h).map fun s hs => List.forall_mem_singleton.mpr hs

theorem draws_slots : Draws S slots fun slots => ∀ s ∈ slots, s.MarkedBy S := by
  intro ls hls
  -- what is collected and described before the list goes on or ends
  have describe {run : List Token} {rest : List Lexeme} {here : List Slot} {ls : List Lexeme}
      (hls : Supplied S ls) (he : collect [")", ","] true ls = .ok (run, rest))
      (hs : slotsOfRun run = .ok here) : (∀ s ∈ here, s.MarkedBy S) ∧ Supplied S rest := by
    obtain ⟨hrun, hrest⟩ := (draws_collect _ _).of_ok hls he
    have hslots := sited_slotsOfRun hrun
    rw [hs] at hslots
    exact ⟨hslots, hrest⟩
  fun_induction slots ls with
  | case1 ls hn => exact ⟨List.forall_mem_nil _, hls.tail⟩
  | case2 ls hn e he => exact (draws_collect _ _).of_error hls he
  | case3 ls hn run rest he e hs =>
    have hslots := sited_slotsOfRun ((draws_collect _ _).of_ok hls he).1
    rwa [hs] at hslots
  | case4 ls hn run rest he here hs hc ih =>
    obtain ⟨hhere, hrest⟩ := describe hls he hs
    refine Sited.map (ih hrest.tail) ?_
    rintro ⟨more, left⟩ ⟨hmore, hleft⟩
    exact ⟨List.forall_mem_append.mpr ⟨hhere, hmore⟩, hleft⟩
  | case5 ls hn run rest he here hs hc =>
    obtain ⟨hhere, hrest⟩ := describe hls he hs
    refine Sited.map (draws_expect ")" rest hrest) ?_
    rintro ⟨close, left⟩ ⟨-, hleft⟩
    exact ⟨hhere, hleft⟩

theorem draws_functionBody (name : String) : Draws S (functionBody name) fun _ => True := by
  refine (draws_group _).bind fun g _ => ?_
  cases g with
  | some _ => exact draws_pure trivial
  | none =>
    refine (draws_accept _).bind fun t _ => ?_
    cases t with
    | some _ => exact draws_pure trivial
    | none => exact fun ls hls => hls.in_head trivial

theorem draws_function (pre : Preamble) :
    Draws S (function pre) fun d => d.toHeading.MarkedBy S := by
  refine (draws_expect _).bind fun _ _ => (draws_expectName _).bind fun name hname =>
    draws_generics.bind fun _ _ => (draws_expect _).bind fun _ _ =>
      draws_slots.bind fun slots hslots => (draws_typeAfter _ _).bind fun _ _ =>
        draws_whereBounds.bind fun _ _ => (draws_functionBody _).bind fun _ _ => draws_pure ?_
  refine Heading.markedBy_mk (marked_of hname) fun p hp => ?_
  obtain ⟨param, hparam, rfl⟩ := List.mem_map.mp hp
  obtain ⟨slot, hslot, hparam⟩ := List.mem_filterMap.mp hparam
  have hmarked := hslots slot hslot
  cases slot with
  | receiver _ => cases hparam
  | param q =>
    cases hparam
    exact hmarked

/-! ## Enumerations and constants -/

theorem draws_payload : Draws S payload fun _ => True := by
  refine (draws_group _).bind fun g _ => ?_
  cases g with
  | some _ => exact draws_pure trivial
  | none => exact (draws_group _).bind fun _ _ => draws_pure trivial

theorem draws_valueBefore (terminators : List String) :
    Draws S (valueBefore terminators) fun ts => ∀ t ∈ ts, S t := by
  refine (draws_accept _).bind fun t _ => ?_
  cases t with
  | none => exact draws_pure (by simp)
  | some _ => exact draws_collect _ _

theorem draws_variant : Draws S variant fun v => Marked S v.pos :=
  draws_attributes.bind fun _ _ => (draws_expectName _).bind fun _ hname =>
    draws_payload.bind fun _ _ => (draws_valueBefore _).bind fun _ _ => draws_pure (marked_of hname)

theorem draws_variants {first : Token} (hfirst : S first) :
    Draws S (variants first) fun r => ∀ v ∈ r.1, Marked S v.pos := by
  intro ls hls
  fun_induction variants first ls with
  | case1 => exact hfirst
  | case2 l tail hc => exact ⟨List.forall_mem_nil _, hls.tail⟩
  | case3 l tail hc e he => exact draws_variant.of_error hls he
  | case4 l tail hc v rest he hn ih =>
    obtain ⟨hv, hrest⟩ := draws_variant.of_ok hls he
    refine Sited.map (ih hrest.tail) ?_
    rintro ⟨⟨vs, close⟩, left⟩ ⟨hvs, hleft⟩
    exact ⟨List.forall_mem_cons.mpr ⟨hv, hvs⟩, hleft⟩
  | case5 l tail hc v rest he hn =>
    obtain ⟨hv, hrest⟩ := draws_variant.of_ok hls he
    refine Sited.map (draws_expect "\x7d" rest hrest) ?_
    rintro ⟨close, left⟩ ⟨-, hleft⟩
    exact ⟨List.forall_mem_singleton.mpr hv, hleft⟩

theorem draws_enumeration {pre : Preamble} (hpre : S pre.first) :
    Draws S (enumeration pre) fun d => d.toHeading.MarkedBy S := by
  refine (draws_expect _).bind fun _ _ => (draws_expectName _).bind fun name hname =>
    draws_generics.bind fun _ _ => draws_whereBounds.bind fun _ _ =>
      (draws_expect _).bind fun _ _ => (draws_variants hpre).bind fun r hr => draws_pure ?_
  exact Heading.markedBy_mk (marked_of hname) (List.forall_mem_map.mpr hr)

theorem draws_constant (keyword : String) (pre : Preamble) :
    Draws S (constant keyword pre) fun d => d.toHeading.MarkedBy S := by
  refine (draws_expect _).bind fun _ _ => (draws_accept _).bind fun _ _ =>
    (draws_expectName _).bind fun name hname => (draws_typeAfter _ _).bind fun _ _ =>
      (draws_valueBefore _).bind fun _ _ => (draws_expect _).bind fun _ _ => draws_pure ?_
  exact Heading.markedBy_mk (marked_of hname) (by simp [Shape.positions])

/-! ## The fields of structures -/

theorem draws_fieldType {name : Token} (hname : S name) (isPublic : Bool) :
    Draws S (fieldType name isPublic) fun r => Marked S r.1.pos ∧ ∀ t ∈ r.2, S t := by
  intro ls hls
  refine Sited.bind (draws_collect [",", "\x7d"] true ls hls) ?_
  rintro ⟨run, rest⟩ ⟨hrun, hrest⟩
  dsimp only
  split
  · exact hname
  · exact ⟨⟨marked_of hname, by simp⟩, hrest⟩
  -- a comma is missing, and reading goes back to the name of the next field, inside the run
  · split
    · exact hname
    · rename_i following hfollowing
      refine ⟨⟨marked_of hname, ?_⟩, hls.suffix (List.drop_suffix _ _)⟩
      rintro t ⟨⟩
      exact hrun _ (List.mem_cons_of_mem _ (List.mem_of_getElem? hfollowing))
  · exact hname

theorem draws_field : Draws S field fun r => Marked S r.1.pos ∧ ∀ t ∈ r.2, S t :=
  draws_attributes.bind fun _ _ => (draws_accept _).bind fun _ _ =>
    (draws_expectName _).bind fun _ hname => (draws_expect _).bind fun _ _ =>
      draws_fieldType hname _

/-- A field without a name is where its first token is. -/
theorem marked_tupleFields {run : List Token} (h : ∀ t ∈ run, S t) :
    ∀ f ∈ tupleFields run, Marked S f.pos := by
  intro f hf
  obtain ⟨⟨part, i⟩, hpart, hf⟩ := List.mem_filterMap.mp hf
  cases part with
  | nil => cases hf
  | cons t ts =>
    cases hf
    have hpart := List.fst_mem_of_mem_zipIdx hpart
    exact marked_of (h t (Run.mem_of_mem_splitFrom hpart List.mem_cons_self))

theorem draws_structHeading : Draws S structHeading fun r => S r.1 :=
  (draws_expect _).bind fun _ _ => (draws_expectName _).bind fun _ hname =>
    draws_generics.bind fun _ _ => draws_whereBounds.bind fun _ _ => draws_pure hname

theorem draws_tupleBody : Draws S tupleBody fun r => ∀ f ∈ r.1, Marked S f.pos := by
  refine (draws_accept _).bind fun t _ => ?_
  cases t with
  | none => exact (draws_expect _).bind fun _ _ => draws_pure (by simp)
  | some _ =>
    exact (draws_collect _ _).bind fun run hrun => (draws_expect _).bind fun _ _ =>
      (draws_expect _).bind fun _ _ => draws_pure (marked_tupleFields hrun)

/-! ## Declarations with members -/

theorem draws_trait {pre : Preamble} (hpre : S pre.first) :
    Draws S (trait pre) (Block.MarkedBy S) := by
  refine (draws_expect _).bind fun _ _ => (draws_expectName _).bind fun name hname =>
    draws_generics.bind fun _ _ => (draws_typeAfter _ _).bind fun _ _ =>
      draws_whereBounds.bind fun _ _ => (draws_expect _).bind fun _ _ => draws_pure ⟨hpre, ?_⟩
  exact Heading.markedBy_mk (marked_of hname) (by simp [Shape.positions])

theorem draws_implGenerics (keyword : Token) :
    Draws S (implGenerics keyword) fun _ => True := by
  refine draws_peek?.bind fun next _ => ?_
  split
  · exact draws_generics
  · exact draws_pure trivial

theorem draws_implTarget {keyword : Token} (h : S keyword) :
    Draws S (implTarget keyword) fun _ => True := by
  refine (draws_collect _ _).bind fun run _ => (draws_typeAfter _ _).bind fun target? _ => ?_
  split
  · exact draws_fail h
  · exact draws_pure trivial

theorem draws_impl {pre : Preamble} (hpre : S pre.first) :
    Draws S (impl pre) (Block.MarkedBy S) := by
  refine (draws_expect _).bind fun keyword hkeyword => (draws_implGenerics _).bind fun _ _ =>
    (draws_implTarget hkeyword).bind fun _ _ => draws_whereBounds.bind fun _ _ =>
      (draws_expect _).bind fun _ _ => draws_pure ⟨hpre, ?_⟩
  exact Heading.markedBy_mk (marked_of hkeyword) (by simp [Shape.positions])

theorem draws_module (keyword : String) {pre : Preamble} (hpre : S pre.first) :
    Draws S (module keyword pre) (Opening.MarkedBy S) := by
  refine (draws_expect _).bind fun _ _ => (draws_expectName _).bind fun name hname =>
    (draws_accept _).bind fun t _ => ?_
  cases t with
  | some _ => exact draws_pure fun _ h => nomatch h
  | none =>
    refine (draws_expect _).bind fun _ _ => draws_pure ⟨hpre, ?_⟩
    exact Heading.markedBy_mk (marked_of hname) (by simp [Shape.positions])

/-! ## Imports and aliases -/

theorem draws_importFrom (line : Nat) (stack : List Token) :
    Draws S (importFrom line stack) fun _ => True := by
  intro ls hls
  induction ls generalizing stack with
  | nil => exact ⟨trivial, hls⟩
  | cons l ls ih =>
    unfold importFrom
    refine .ite ⟨trivial, hls.tail⟩ (.ite ⟨trivial, hls⟩ ?_)
    split
    · exact hls l List.mem_cons_self
    · exact ih _ hls.tail

theorem draws_importItem (keyword : String) : Draws S (importItem keyword) fun _ => True :=
  (draws_expect _).bind fun _ _ => draws_importFrom _ _

theorem draws_typeAlias : Draws S typeAlias fun _ => True :=
  (draws_expect _).bind fun _ _ => (draws_collect _ _).bind fun _ _ =>
    (draws_expect _).bind fun _ _ => draws_pure trivial

end Parser

end KlarAudit

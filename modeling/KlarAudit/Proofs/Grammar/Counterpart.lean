import KlarAudit.Proofs.Grammar.Likeness
import KlarAudit.Proofs.Grammar.Reading

/-!
# Declarations and their counterparts

When an input follows another one, every declaration that is read from the first without an issue
has a counterpart in the second. The two agree in everything that is not a place: names, types,
marks, and the number and order of their parts; and their spans run between alike tokens.

## Main definitions

* `Declaration.bare`: a declaration without places and documentation
* `Likeness.Agree`: two values agree but for places
* `Likeness.Declarations`: a declaration and its counterpart

## Main results

* `firm_function`, `firm_enumeration`, `firm_constant`, `structItem_counterpart`: the declarations
  that are read whole
-/

namespace KlarAudit

/-! ## Forgetting places -/

/-- A span that stands for any other. -/
def Span.nowhere : Span :=
  ⟨0, 0⟩

def Parameter.bare (p : Parameter) : Parameter :=
  { p with pos := .start }

def Field.bare (f : Field) : Field :=
  { f with pos := .start, span := .nowhere }

def Variant.bare (v : Variant) : Variant :=
  { v with pos := .start, span := .nowhere }

def Signature.bare (s : Signature) : Signature :=
  { s with params := s.params.map Parameter.bare, body := s.body.map fun _ => .nowhere }

def Shape.bare : Shape → Shape
  | struct generics fields => struct generics (fields.map Field.bare)
  | enum generics variants => enum generics (variants.map Variant.bare)
  | function signature => function signature.bare
  | shape => shape

def Heading.bare (h : Heading) : Heading :=
  { h with shape := h.shape.bare, pos := .start, doc := none }

/-- **A declaration without places and documentation.** -/
def Declaration.bare (d : Declaration) : Declaration :=
  ⟨d.toHeading.bare, .nowhere⟩

/-! ## Agreement -/

theorem forall₂_map_eq {α β γ : Type} {R : α → β → Prop} {f : α → γ} {g : β → γ} {as : List α}
    {bs : List β} (h : List.Forall₂ R as bs) (hf : ∀ a b, R a b → f a = g b) :
    as.map f = bs.map g := by
  induction h with
  | nil => rfl
  | cons h _ ih => rw [List.map_cons, List.map_cons, hf _ _ h, ih]

theorem forall₂_filterMap_eq {α β γ : Type} {R : α → β → Prop} {f : α → Option γ}
    {g : β → Option γ} {as : List α} {bs : List β} (h : List.Forall₂ R as bs)
    (hf : ∀ a b, R a b → f a = g b) : as.filterMap f = bs.filterMap g := by
  induction h with
  | nil => rfl
  | cons h _ ih => rw [List.filterMap_cons, List.filterMap_cons, hf _ _ h, ih]

theorem forall₂_filter {α β : Type} {R : α → β → Prop} {p : α → Bool} {q : β → Bool} {as : List α}
    {bs : List β} (h : List.Forall₂ R as bs) (hp : ∀ a b, R a b → p a = q b) :
    List.Forall₂ R (as.filter p) (bs.filter q) :=
  List.rel_filter (fun {a b} hab => by simp [hp a b hab]) h

namespace Likeness

variable (L : Likeness)

/-- **The values agree**: they are equal when places are forgotten, and equal if the likeness is
exact. -/
def Agree {α β : Type} (bare : α → β) (a b : α) : Prop :=
  bare a = bare b ∧ (L.exact → a = b)

/-- The spans run between alike tokens. -/
def spans (s t : Span) : Prop :=
  ∃ a a' b b', L.tokens a a' ∧ L.tokens b b' ∧ s = ⟨a.start, b.stop⟩ ∧ t = ⟨a'.start, b'.stop⟩

/-- A preamble and its counterpart. -/
structure Preambles (pre pre' : Preamble) : Prop where
  first : L.tokens pre.first pre'.first
  isPublic_eq : pre.isPublic = pre'.isPublic
  isUnsafe_eq : pre.isUnsafe = pre'.isUnsafe
  doc_eq : L.exact → pre.doc = pre'.doc

/-- **A declaration and its counterpart.** -/
structure Declarations (d d' : Declaration) : Prop where
  agree : L.Agree Declaration.bare d d'
  span : L.spans d.span d'.span
  body : Option.Rel L.spans d.body? d'.body?

variable {L} {ts us : List Token} {a b : Token}

theorem Agree.cons {α β : Type} {bare : α → β} {x y : α} {xs ys : List α} (h : L.Agree bare x y)
    (hs : L.Agree (List.map bare) xs ys) : L.Agree (List.map bare) (x :: xs) (y :: ys) :=
  ⟨by rw [List.map_cons, List.map_cons, h.1, hs.1], fun he => by rw [h.2 he, hs.2 he]⟩

theorem Agree.append {α β : Type} {bare : α → β} {xs ys xs' ys' : List α}
    (h : L.Agree (List.map bare) xs ys) (h' : L.Agree (List.map bare) xs' ys') :
    L.Agree (List.map bare) (xs ++ xs') (ys ++ ys') :=
  ⟨by rw [List.map_append, List.map_append, h.1, h'.1], fun he => by rw [h.2 he, h'.2 he]⟩

theorem eq_of_spans (he : L.exact) {s t : Span} (h : L.spans s t) : s = t := by
  obtain ⟨a, a', b, b', ha, hb, rfl, rfl⟩ := h
  rw [L.eq_of_exact he ha, L.eq_of_exact he hb]

theorem eq_of_rel {α : Type} {R : α → α → Prop} (h : ∀ a b, R a b → a = b) {o o' : Option α}
    (ho : Option.Rel R o o') : o = o' := by
  cases ho with
  | none => rfl
  | some hab => rw [h _ _ hab]

theorem Preambles.eq {pre pre' : Preamble} (h : L.Preambles pre pre') (he : L.exact) :
    pre = pre' := by
  have hfirst := L.eq_of_exact he h.first
  have hdoc := h.doc_eq he
  have hpublic := h.isPublic_eq
  have hunsafe := h.isUnsafe_eq
  cases pre
  cases pre'
  simp_all

end Likeness

/-! ## The parts of declarations -/

section Parts

open KlarAudit.Parser

variable {L : Likeness} {ts us : List Token} {a b : Token}

theorem genericsOfRun_eq (h : L.runs ts us) : genericsOfRun ts = genericsOfRun us := by
  have hparts : List.Forall₂ L.runs ((Run.splitCommas ts).filter (!·.isEmpty))
      ((Run.splitCommas us).filter (!·.isEmpty)) :=
    forall₂_filter (Likeness.splitCommas_rel h) fun a b hab => by cases hab <;> rfl
  have hnames := forall₂_filterMap_eq (f := fun ts : List Token => ts.head?.map (·.text))
    (g := fun ts : List Token => ts.head?.map (·.text)) hparts fun a b hab => by
      cases hab with
      | nil => rfl
      | cons h _ => simp [L.text_eq h]
  have hbounds := forall₂_map_eq (f := Run.render) (g := Run.render)
    (forall₂_filter (p := fun ts => (Run.colon? ts).isSome) (q := fun ts => (Run.colon? ts).isSome)
      hparts fun a b hab => by rw [Likeness.colon?_eq hab]) fun _ _ => Likeness.render_eq
  simp only [genericsOfRun, hnames, hbounds]

theorem carries_genericsIn (opener closer : String) :
    Carries L (genericsIn opener closer) (genericsIn opener closer) Eq := by
  refine (carries_accept opener).bind fun t t' ht => ?_
  cases ht with
  | none => exact carries_pure rfl
  | some _ =>
    refine ((firm_collect _ _).carries.firm fun run run' hrun => ?_).carries
    exact (firm_expect closer).map fun _ _ _ => by rw [genericsOfRun_eq hrun]

theorem carries_generics : Carries L generics generics Eq := by
  refine (carries_genericsIn "<" ">").bind fun g g' hg => ?_
  subst hg
  cases g with
  | some g => exact carries_pure rfl
  | none => exact (carries_genericsIn "[" "]").bind fun g g' hg => carries_pure (by rw [hg])

theorem carries_whereBounds : Carries L whereBounds whereBounds Eq := by
  refine (carries_accept "where").bind fun t t' ht => ?_
  cases ht with
  | none => exact carries_pure rfl
  | some _ =>
    refine ((firm_collect _ _).map fun run run' hrun => ?_).carries
    have hparts : List.Forall₂ L.runs ((Run.splitCommas run).filter (!·.isEmpty))
        ((Run.splitCommas run').filter (!·.isEmpty)) :=
      forall₂_filter (Likeness.splitCommas_rel hrun) fun a b hab => by cases hab <;> rfl
    exact forall₂_map_eq hparts fun _ _ => Likeness.render_eq

theorem carries_typeAfter (s : String) (terminators : List String) :
    Carries L (typeAfter s terminators) (typeAfter s terminators) Eq := by
  refine (carries_accept s).bind fun t t' ht => ?_
  cases ht with
  | none => exact carries_pure rfl
  | some _ => exact ((firm_collect _ _).map fun _ _ h => by rw [Likeness.render_eq h]).carries

/-! ## Preambles -/

theorem carries_attributeGroup : Carries L attributeGroup attributeGroup Eq := by
  refine (carries_group "[").bind fun g g' hg => ?_
  cases hg with
  | none => exact (firm_of_fails fun _ _ h => by cases h).carries
  | some _ => exact carries_pure rfl

theorem carries_oneAttribute : Carries L oneAttribute oneAttribute Eq := by
  refine (carries_accept "#").bind fun t t' ht => ?_
  cases ht with
  | some _ => exact (carries_accept "!").bind fun _ _ _ => carries_attributeGroup
  | none =>
    refine (carries_accept "@").bind fun t t' ht => ?_
    cases ht with
    | none => exact carries_pure rfl
    | some _ =>
      exact (firm_expectName _).carries.bind fun _ _ _ =>
        (carries_group "(").bind fun _ _ _ => carries_pure rfl

theorem carries_attributes : Carries L attributes attributes Eq := by
  constructor
  case short =>
    intro a rest h
    have := shortens_attributes _ _ _ h
    exact List.length_eq_zero_iff.mp (Nat.le_zero.mp this)
  case reads =>
    intro more ls ms a rest hs h hend
    fun_induction attributes ls generalizing ms with
    | case1 ls e he => cases h
    | case2 ls left he =>
      cases h
      obtain ⟨_, left', he', hleft, rfl⟩ := carries_oneAttribute.reads hs he hend
      exact ⟨(), left', attributes_of_false he', hleft, rfl⟩
    | case3 ls left he ih =>
      -- what the first attribute leaves can only be nothing if nothing is left in the end
      have hmid : left = [] → more = [] := by
        rintro rfl
        have := shortens_attributes _ _ _ h
        exact hend (List.length_eq_zero_iff.mp (Nat.le_zero.mp this))
      obtain ⟨_, left', he', hleft, rfl⟩ := carries_oneAttribute.reads hs he hmid
      obtain ⟨b, rest', h', hrest, hb⟩ := ih hleft h
      exact ⟨b, rest', (attributes_of_true he').trans h', hrest, hb⟩

theorem carries_visibility (byPlace : Bool) :
    Carries L (visibility byPlace) (visibility byPlace) Eq := by
  refine (carries_accept "pub").bind fun t t' ht => ?_
  cases ht with
  | none => exact carries_pure rfl
  | some _ => exact (carries_group "(").bind fun _ _ _ => carries_pure rfl

theorem carries_preamble (byPlace : Bool) {l m : Lexeme} (h : L.lexemes l m) :
    Carries L (preamble byPlace l) (preamble byPlace m) L.Preambles := by
  refine carries_attributes.bind fun _ _ _ => carries_peek?.bind fun next next' hnext =>
    (carries_visibility byPlace).bind fun v v' hv => (carries_accept "unsafe").bind
      fun t t' ht => carries_pure ⟨h.1, hv, ?_, fun he => ?_⟩
  · cases ht <;> rfl
  · have hl := h.2 he
    cases hnext with
    | none => rw [hl]
    | some hnext => rw [hl, hnext.2 he]

/-! ## Functions -/

/-- A receiver, or a parameter without its place. -/
def Parser.Slot.bare : Slot → Slot
  | receiver text => receiver text
  | param p => param p.bare

/-- The run names `self` before any colon. -/
def Run.namesSelf (run : List Token) : Bool :=
  match run.findIdx? (·.text == "self"), Run.colon? run with
  | none, _ => false
  | some _, none => true
  | some i, some k => i < k

theorem slotOfRun_eq (t : Token) (ts : List Token) :
    slotOfRun t ts =
      if Run.namesSelf (t :: ts) then .ok (.receiver (Run.render (t :: ts)))
      else
        match Run.colon? (t :: ts) with
        | none => .error (.at (.noColon t.text) t)
        | some k =>
          match (((t :: ts).take k).filter (·.kind == .identifier)).getLast? with
          | none => .error (.at .noParameterName t)
          | some name => .ok (.param ⟨name.text, Run.render ((t :: ts).drop (k + 1)), name.pos⟩) :=
  rfl

theorem namesSelf_eq (h : L.runs ts us) : Run.namesSelf ts = Run.namesSelf us := by
  have hfind : ts.findIdx? (·.text == "self") = us.findIdx? (·.text == "self") := by
    induction h with
    | nil => rfl
    | cons h _ ih => simp only [List.findIdx?_cons, L.text_eq h, ih]
  rw [Run.namesSelf, Run.namesSelf, hfind, Likeness.colon?_eq h]

theorem slotOfRun_counterpart (h : L.tokens a b) (hs : L.runs ts us) {slot : Slot}
    (hslot : slotOfRun a ts = .ok slot) :
    ∃ slot', slotOfRun b us = .ok slot' ∧ L.Agree Slot.bare slot slot' := by
  have hrun : L.runs (a :: ts) (b :: us) := .cons h hs
  rw [slotOfRun_eq] at hslot ⊢
  rw [namesSelf_eq hrun, Likeness.colon?_eq hrun, Likeness.render_eq hrun] at hslot
  split at hslot
  · rename_i hself
    cases hslot
    rw [if_pos hself]
    exact ⟨_, rfl, rfl, fun _ => rfl⟩
  · rename_i hself
    rw [if_neg hself]
    split at hslot
    · cases hslot
    · rename_i k hk
      split at hslot
      · cases hslot
      · rename_i name hname
        cases hslot
        -- the name is the last one before the colon, and both colons are at one place
        have hnames := Likeness.getLast?_rel (forall₂_filter (p := (·.kind == .identifier))
          (q := (·.kind == .identifier)) (List.forall₂_take k hrun)
          fun a b hab => by rw [L.kind_eq hab])
        rw [hname] at hnames
        obtain ⟨name', hname', hn⟩ := exists_of_some_rel hnames
        have htype := Likeness.render_eq (List.forall₂_drop (k + 1) hrun)
        simp only [hname']
        refine ⟨_, rfl, ?_, fun he => ?_⟩
        · rw [Slot.bare, Slot.bare, Parameter.bare, Parameter.bare, L.text_eq hn, htype]
        · rw [L.eq_of_exact he hn, htype]

theorem slotsOfRun_counterpart (hs : L.runs ts us) {here : List Slot}
    (h : slotsOfRun ts = .ok here) :
    ∃ here', slotsOfRun us = .ok here' ∧ L.Agree (List.map Slot.bare) here here' := by
  cases hs with
  | nil => cases h; exact ⟨[], rfl, rfl, fun _ => rfl⟩
  | cons ht hs =>
    obtain ⟨slot, hslot, rfl⟩ := except_map_eq_ok.mp h
    obtain ⟨slot', hslot', hagree⟩ := slotOfRun_counterpart ht hs hslot
    exact ⟨[slot'], except_map_eq_ok.mpr ⟨_, hslot', rfl⟩, hagree.cons ⟨rfl, fun _ => rfl⟩⟩

/-- The slots in front of a comma or of the closing bracket have their counterparts. -/
theorem slotsBefore_counterpart (hs : L.Follows more ls ms) (hn : ¬ nextIs ")" ls) {run : List Token}
    {left : List Lexeme} {here : List Slot} (hrun : collect [")", ","] true ls = .ok (run, left))
    (h : slotsOfRun run = .ok here) :
    ∃ run' left' here', ¬ nextIs ")" ms ∧ collect [")", ","] true ms = .ok (run', left') ∧
      slotsOfRun run' = .ok here' ∧ L.Follows more left left' ∧
      L.Agree (List.map Slot.bare) here here' := by
  have hcollect := firm_collect (L := L) [")", ","] true
  obtain ⟨run', left', hrun', hleft, hruns⟩ := hcollect.reads hs hrun
  obtain ⟨here', hslots, hagree⟩ := slotsOfRun_counterpart hruns h
  rw [hs.nextIs_eq (hcollect.ne_nil hrun)] at hn
  exact ⟨run', left', here', hn, hrun', hslots, hleft, hagree⟩

/-- **A parameter list** and its counterpart. -/
theorem firm_slots : Firm L slots slots (L.Agree (List.map Slot.bare)) := by
  refine ⟨fun h => (by rw [slots] at h; cases h), @fun more ls ms ss rest hs h => ?_⟩
  refine slots_induction (P := fun ls ss rest => ∀ ms, L.Follows more ls ms →
    ∃ ss' rest', slots ms = .ok (ss', rest') ∧ L.Follows more rest rest' ∧
      L.Agree (List.map Slot.bare) ss ss') ?close ?comma ?last h ms hs
  case close =>
    intro ls hn ms hs
    obtain ⟨hn, htail⟩ := hs.of_nextIs hn
    exact ⟨[], _, slots_of_close hn, htail, rfl, fun _ => rfl⟩
  case comma =>
    intro ls run left here others rest hn hrun hslots hc ih ms hs
    obtain ⟨run', left', here', hn', hrun', hslots', hleft, hhere⟩ :=
      slotsBefore_counterpart hs hn hrun hslots
    obtain ⟨hc', htail⟩ := hleft.of_nextIs hc
    obtain ⟨others', rest', hothers', hrest, hagree⟩ := ih _ htail
    refine ⟨here' ++ others', rest', ?_, hrest, hhere.append hagree⟩
    rw [slots_of_run hn' hrun' hslots', if_pos hc', hothers']
    rfl
  case last =>
    intro ls run left here bracket rest hn hrun hslots hc hclose ms hs
    obtain ⟨run', left', here', hn', hrun', hslots', hleft, hhere⟩ :=
      slotsBefore_counterpart hs hn hrun hslots
    obtain ⟨bracket', rest', hclose', hrest, -⟩ := (firm_expect _).reads hleft hclose
    rw [hleft.nextIs_eq ((firm_expect (L := L) _).ne_nil hclose)] at hc
    refine ⟨here', rest', ?_, hrest, hhere⟩
    rw [slots_of_run hn' hrun' hslots', if_neg hc, hclose']
    rfl

/-- The body of a function and where the function ends. -/
theorem firm_functionBody (name name' : String) :
    Firm L (functionBody name) (functionBody name') fun r r' =>
      Option.Rel L.spans r.1 r'.1 ∧ ∃ t t', L.tokens t t' ∧ r.2 = t.stop ∧ r'.2 = t'.stop := by
  refine ⟨fun h => (by cases h), @fun more ls ms r rest hs h => ?_⟩
  obtain ⟨g, mid, hg, h⟩ := bind_eq_ok.mp h
  cases g with
  | some g =>
    cases h
    obtain ⟨g', rest', hg', hrest, hopen, hclose⟩ := group_of_some hs hg
    exact ⟨_, rest', bind_eq_ok.mpr ⟨some g', rest', hg', rfl⟩, hrest,
      .some ⟨_, _, _, _, hopen, hclose, rfl, rfl⟩, _, _, hclose, rfl, rfl⟩
  | none =>
    obtain ⟨t, left, ht, h⟩ := bind_eq_ok.mp h
    cases t with
    | none => cases h
    | some t =>
      cases h
      have hmid : mid ≠ [] := by
        rintro rfl
        cases ht
      obtain ⟨g', mid', hg', hmid, hnone⟩ :=
        (carries_group _).reads_of_ne_nil hs hg hmid
      cases hnone
      obtain ⟨t', rest', ht', hrest, htoken⟩ := accept_of_some hmid ht
      refine ⟨(none, t'.stop), rest', ?_, hrest, .none, t, t', htoken, rfl, rfl⟩
      exact bind_eq_ok.mpr ⟨none, mid', hg', bind_eq_ok.mpr ⟨some t', rest', ht', rfl⟩⟩

theorem filterMap_bare {f : Slot → Option Parameter}
    (hf : ∀ slot, f slot.bare = (f slot).map Parameter.bare) (ss : List Slot) :
    (ss.filterMap f).map Parameter.bare = (ss.map Slot.bare).filterMap f := by
  induction ss with
  | nil => rfl
  | cons slot ss ih =>
    rw [List.map_cons, List.filterMap_cons, List.filterMap_cons, hf]
    cases f slot <;> simp [ih]

theorem filterMap_of_bare {f : Slot → Option String} (hf : ∀ slot, f slot.bare = f slot)
    (ss : List Slot) : ss.filterMap f = (ss.map Slot.bare).filterMap f := by
  rw [List.filterMap_map]
  exact congrArg (List.filterMap · ss) (funext fun slot => (hf slot).symm)

theorem firm_function {pre pre' : Preamble} (hpre : L.Preambles pre pre') :
    Firm L (function pre) (function pre') L.Declarations := by
  refine (firm_expect _).carries.firm fun _ _ _ => (firm_expectName _).carries.firm
    fun name name' hname => carries_generics.firm fun g g' hg =>
      (firm_expect _).carries.firm fun _ _ _ => firm_slots.carries.firm fun ss ss' hss =>
        (carries_typeAfter _ _).firm fun ty ty' hty => carries_whereBounds.firm
          fun bs bs' hbs => (firm_functionBody _ _).map fun r r' hr => ?_
  obtain ⟨body, stop⟩ := r
  obtain ⟨body', stop'⟩ := r'
  subst hg hty hbs
  obtain ⟨hbody, t, t', ht, rfl, rfl⟩ := hr
  refine ⟨⟨?_, fun he => ?_⟩, ⟨_, _, _, _, hpre.first, ht, rfl, rfl⟩, hbody⟩
  · have hbodies : body.map (fun _ => Span.nowhere) = body'.map fun _ => Span.nowhere := by
      cases hbody <;> rfl
    simp only [Declaration.bare, Heading.bare, Shape.bare, Signature.bare]
    rw [filterMap_bare (by rintro (_ | _) <;> rfl), filterMap_bare (by rintro (_ | _) <;> rfl),
      filterMap_of_bare (by rintro (_ | _) <;> rfl) ss,
      filterMap_of_bare (by rintro (_ | _) <;> rfl) ss', hss.1, hpre.isPublic_eq,
      hpre.isUnsafe_eq, L.text_eq hname, hbodies]
  · rw [hpre.eq he, L.eq_of_exact he hname, hss.2 he, L.eq_of_exact he ht,
      Likeness.eq_of_rel (fun _ _ => Likeness.eq_of_spans he) hbody]

/-! ## Enumerations and constants -/

theorem carries_payload : Carries L payload payload (Option.Rel L.tokens) := by
  refine (carries_group "(").bind fun g g' hg => ?_
  cases hg with
  | some hg => exact carries_pure (.some hg.2)
  | none =>
    refine (carries_group "\x7b").bind fun g g' hg => carries_pure ?_
    cases hg with
    | none => exact .none
    | some hg => exact .some hg.2

theorem carries_valueBefore (terminators : List String) :
    Carries L (valueBefore terminators) (valueBefore terminators) L.runs := by
  refine (carries_accept "=").bind fun t t' ht => ?_
  cases ht with
  | none => exact carries_pure .nil
  | some _ => exact (firm_collect _ _).carries

theorem carries_variant : Carries L variant variant (L.Agree Variant.bare) := by
  refine carries_attributes.bind fun _ _ _ => (firm_expectName _).carries.bind
    fun name name' hname => carries_payload.bind fun p p' hp => (carries_valueBefore _).bind
      fun v v' hv => carries_pure ⟨?_, fun he => ?_⟩
  · rw [Variant.bare, Variant.bare, L.text_eq hname]
  · rw [L.eq_of_exact he hname, Likeness.eq_of_runs he hv,
      Likeness.eq_of_rel (fun _ _ => L.eq_of_exact he) hp]

/-- A variant in front of a comma or of the closing brace has its counterpart. -/
theorem variantBefore_counterpart {l : Lexeme} {tail : List Lexeme}
    (hs : L.Follows more (l :: tail) ms) (hl : ¬ l.token.is "\x7d") {v : Variant}
    {left : List Lexeme} (hv : variant (l :: tail) = .ok (v, left)) (hleft : left ≠ []) :
    ∃ m ms' v' left', ms = m :: ms' ∧ ¬ m.token.is "\x7d" ∧
      variant (m :: ms') = .ok (v', left') ∧ L.Follows more left left' ∧
      L.Agree Variant.bare v v' := by
  obtain ⟨v', left', hv', hfollows, hagree⟩ := carries_variant.reads_of_ne_nil hs hv hleft
  cases hs with
  | @cons _ m _ ms h hs =>
    rw [Likeness.is_eq h.1] at hl
    exact ⟨m, ms, v', left', rfl, hl, hv', hfollows, hagree⟩

/-- **The variants of an enumeration** and their counterparts. -/
theorem firm_variants (first first' : Token) :
    Firm L (variants first) (variants first') fun r r' =>
      L.Agree (List.map Variant.bare) r.1 r'.1 ∧ L.tokens r.2 r'.2 := by
  refine ⟨fun h => (by rw [variants] at h; cases h), @fun more ls ms r rest hs h => ?_⟩
  refine variants_induction (P := fun ls r rest => ∀ ms, L.Follows more ls ms →
    ∃ r' rest', variants first' ms = .ok (r', rest') ∧ L.Follows more rest rest' ∧
      L.Agree (List.map Variant.bare) r.1 r'.1 ∧ L.tokens r.2 r'.2) ?close ?comma ?last h ms hs
  case close =>
    intro l tail hl ms hs
    cases hs with
    | @cons _ m _ ms h hs =>
      rw [Likeness.is_eq h.1] at hl
      exact ⟨_, _, variants_of_close hl, hs, ⟨rfl, fun _ => rfl⟩, h.1⟩
  case comma =>
    intro l tail v left r rest hl hv hc ih ms hs
    obtain ⟨m, ms, v', left', rfl, hl', hv', hleft, hagree⟩ :=
      variantBefore_counterpart hs hl hv (ne_nil_of_nextIs hc)
    obtain ⟨hc', htail⟩ := hleft.of_nextIs hc
    obtain ⟨⟨vs', brace'⟩, rest', hr', hrest, hvs, hbrace⟩ := ih _ htail
    refine ⟨(v' :: vs', brace'), rest', ?_, hrest, hagree.cons hvs, hbrace⟩
    rw [variants_of_variant hl' hv', if_pos hc', hr']
    rfl
  case last =>
    intro l tail v left brace rest hl hv hc hclose ms hs
    have hne := (firm_expect (L := L) _).ne_nil hclose
    obtain ⟨m, ms, v', left', rfl, hl', hv', hleft, hagree⟩ :=
      variantBefore_counterpart hs hl hv hne
    obtain ⟨brace', rest', hclose', hrest, hbrace⟩ := (firm_expect _).reads hleft hclose
    rw [hleft.nextIs_eq hne] at hc
    refine ⟨([v'], brace'), rest', ?_, hrest, hagree.cons ⟨rfl, fun _ => rfl⟩, hbrace⟩
    rw [variants_of_variant hl' hv', if_neg hc, hclose']
    rfl

theorem firm_enumeration {pre pre' : Preamble} (hpre : L.Preambles pre pre') :
    Firm L (enumeration pre) (enumeration pre') L.Declarations := by
  refine (firm_expect _).carries.firm fun _ _ _ => (firm_expectName _).carries.firm
    fun name name' hname => carries_generics.firm fun g g' hg =>
      carries_whereBounds.firm fun bs bs' hbs => (firm_expect _).carries.firm fun _ _ _ =>
        (firm_variants _ _).map fun r r' hr => ?_
  obtain ⟨vs, close⟩ := r
  obtain ⟨vs', close'⟩ := r'
  subst hg hbs
  obtain ⟨hvs, hclose⟩ := hr
  refine ⟨⟨?_, fun he => ?_⟩, ⟨_, _, _, _, hpre.first, hclose, rfl, rfl⟩, .none⟩
  · simp only [Declaration.bare, Heading.bare, Shape.bare]
    rw [hvs.1, hpre.isPublic_eq, L.text_eq hname]
  · rw [hpre.eq he, L.eq_of_exact he hname, hvs.2 he, L.eq_of_exact he hclose]

theorem firm_constant (keyword : String) {pre pre' : Preamble} (hpre : L.Preambles pre pre') :
    Firm L (constant keyword pre) (constant keyword pre') L.Declarations := by
  refine (firm_expect _).carries.firm fun _ _ _ => (carries_accept _).firm fun _ _ _ =>
    (firm_expectName _).carries.firm fun name name' hname => (carries_typeAfter _ _).firm
      fun ty ty' hty => (carries_valueBefore _).firm fun _ _ _ =>
        (firm_expect _).map fun close close' hclose => ?_
  subst hty
  refine ⟨⟨?_, fun he => ?_⟩, ⟨_, _, _, _, hpre.first, hclose, rfl, rfl⟩, .none⟩
  · simp only [Declaration.bare, Heading.bare, Shape.bare]
    rw [hpre.isPublic_eq, L.text_eq hname]
  · rw [hpre.eq he, L.eq_of_exact he hname, L.eq_of_exact he hclose]

/-! ## Structures -/

theorem namedField_agree {name name' : Token} (hname : L.tokens name name') (isPublic : Bool)
    (h : L.tokens a b) (hs : L.runs ts us) :
    L.Agree Field.bare (namedField name isPublic a ts) (namedField name' isPublic b us) := by
  constructor
  · rw [namedField, namedField, Field.bare, Field.bare, L.text_eq hname,
      Likeness.render_eq (.cons h hs)]
  · intro he
    rw [L.eq_of_exact he hname, L.eq_of_exact he h, Likeness.eq_of_runs he hs]

theorem firm_fieldType {name name' : Token} (hname : L.tokens name name') (isPublic : Bool) :
    Firm L (fieldType name isPublic) (fieldType name' isPublic) fun r r' =>
      L.Agree Field.bare r.1 r'.1 ∧ Option.Rel L.tokens r.2 r'.2 := by
  constructor
  case ends =>
    intro r h
    cases h
  case reads =>
    rintro more ls ms ⟨f, following⟩ rest hs h
    obtain ⟨t, ts, left, hrun, hcases⟩ := fieldType_eq_ok h
    obtain ⟨run', left', hrun', hleft, hruns⟩ := (firm_collect _ _).reads hs hrun
    rw [Likeness.colon?_eq hruns] at hcases
    cases hruns with
    | @cons _ t' _ ts' ht hts =>
      rcases hcases with ⟨hcolon, rfl, rfl, rfl⟩ | ⟨k, next, hcolon, hnext, rfl, rfl, rfl⟩
      · exact ⟨_, _, fieldType_of_whole hrun' hcolon, hleft,
          namedField_agree hname isPublic ht hts, .none⟩
      · have hrel := Likeness.getElem?_rel hts k
        rw [hnext] at hrel
        obtain ⟨next', hnext', hsame⟩ := exists_of_some_rel hrel
        -- the next field starts inside the collected run
        have hle : k + 1 ≤ ls.length := by
          have hlen := congrArg List.length (collectFrom_eq_ok hrun).1
          have := (List.getElem?_eq_some_iff.mp hnext).1
          simp only [List.length_map, List.length_append, List.length_cons] at hlen
          omega
        exact ⟨_, _, fieldType_of_cut hrun' hcolon hnext', hs.drop hle,
          namedField_agree hname isPublic ht (List.forall₂_take k hts), .some hsame⟩

/-- **A field**, and the first token of the next one if the comma between the two is missing. -/
theorem firm_field : Firm L field field fun r r' =>
    L.Agree Field.bare r.1 r'.1 ∧ Option.Rel L.tokens r.2 r'.2 := by
  refine carries_attributes.firm fun _ _ _ => (carries_accept _).firm fun mark mark' hmark =>
    (firm_expectName _).carries.firm fun name name' hname => (firm_expect _).carries.firm
      fun _ _ _ => ?_
  have hpublic : mark.isSome = mark'.isSome := by cases hmark <;> rfl
  rw [hpublic]
  exact firm_fieldType hname _

theorem tupleFields_agree (h : L.runs ts us) :
    L.Agree (List.map Field.bare) (tupleFields ts) (tupleFields us) := by
  refine ⟨?_, fun he => by rw [Likeness.eq_of_runs he h]⟩
  simp only [tupleFields]
  generalize hi : 0 = i
  clear hi
  have hparts := Likeness.splitCommas_rel h
  generalize Run.splitCommas ts = parts at hparts
  generalize Run.splitCommas us = parts' at hparts
  induction hparts generalizing i with
  | nil => rfl
  | @cons part part' parts parts' hpart _ ih =>
    rw [List.zipIdx_cons, List.zipIdx_cons, List.filterMap_cons, List.filterMap_cons]
    cases hpart with
    | nil => exact ih (i + 1)
    | @cons t t' ts ts' ht hts =>
      have htype : Run.render (if t'.is "pub" then ts else t :: ts) =
          Run.render (if t'.is "pub" then ts' else t' :: ts') := by
        split
        · exact Likeness.render_eq hts
        · exact Likeness.render_eq (.cons ht hts)
      dsimp only
      rw [List.map_cons, List.map_cons, ih (i + 1), Likeness.is_eq ht, htype]
      rfl

theorem carries_structHeading : Carries L structHeading structHeading fun h h' =>
    L.tokens h.1 h'.1 ∧ h.2 = h'.2 :=
  (firm_expect _).carries.bind fun _ _ _ => (firm_expectName _).carries.bind
    fun _ _ hname => carries_generics.bind fun _ _ hg => carries_whereBounds.bind
      fun _ _ hbs => carries_pure ⟨hname, by rw [hg, hbs]⟩

theorem firm_tupleBody : Firm L tupleBody tupleBody fun r r' =>
    L.Agree (List.map Field.bare) r.1 r'.1 ∧ L.tokens r.2 r'.2 := by
  refine (carries_accept _).firm fun t t' ht => ?_
  cases ht with
  | none => exact (firm_expect _).map fun _ _ hclose => ⟨⟨rfl, fun _ => rfl⟩, hclose⟩
  | some _ =>
    exact (firm_collect _ _).carries.firm fun _ _ hrun => (firm_expect _).carries.firm
      fun _ _ _ => (firm_expect _).map fun _ _ hclose => ⟨tupleFields_agree hrun, hclose⟩

end Parts

section Structures

variable {L : Likeness} {more ls ms rest : List Lexeme}

theorem Likeness.Follows.afterComma (h : L.Follows more ls ms) (hne : ls ≠ []) :
    L.Follows more (afterComma ls) (afterComma ms) := by
  unfold KlarAudit.afterComma
  rw [← h.nextIs_eq hne]
  split
  · exact h.tail hne
  · exact h

theorem fields_nil {first : Token} {r : (List Field × Token) × List Lexeme} :
    (fields first []).outcome ≠ .ok r := by
  intro h
  rw [fields] at h
  cases h

/-- **The fields of a structure**, none of which lacks a comma. -/
theorem fields_counterpart (first first' : Token) {r : List Field × Token}
    (hs : L.Follows more ls ms) (h : fields first ls = ⟨[], .ok (r, rest)⟩) :
    ∃ r' rest', fields first' ms = ⟨[], .ok (r', rest')⟩ ∧ L.Follows more rest rest' ∧
      L.Agree (List.map Field.bare) r.1 r'.1 ∧ L.tokens r.2 r'.2 := by
  refine fields_induction (P := fun ls r rest => (fields first ls).issues = [] →
    ∀ ms, L.Follows more ls ms → ∃ r' rest', fields first' ms = ⟨[], .ok (r', rest')⟩ ∧
      L.Follows more rest rest' ∧ L.Agree (List.map Field.bare) r.1 r'.1 ∧ L.tokens r.2 r'.2)
    ?close ?field (congrArg Attempt.outcome h) (congrArg Attempt.issues h) ms hs
  case close =>
    intro l tail hl _ ms hs
    cases hs with
    | @cons _ m _ ms h hs =>
      rw [Likeness.is_eq h.1] at hl
      exact ⟨_, _, fields_of_close hl, hs, ⟨rfl, fun _ => rfl⟩, h.1⟩
  case field =>
    intro l tail f following left r rest hl hf hr ih hissues ms hs
    rw [fields_of_field hl hf] at hissues
    obtain ⟨hfollowing, hnone⟩ := List.append_eq_nil_iff.mp hissues
    -- no comma is missing, so neither is one in the other input
    obtain rfl : following = none := by cases following <;> simp_all
    obtain ⟨⟨f', following'⟩, left', hf', hleft', hagree, hnext⟩ := firm_field.reads hs hf
    cases hnext
    have hleft : left ≠ [] := by
      rintro rfl
      exact fields_nil hr
    obtain ⟨⟨fs', brace'⟩, rest', hr', hrest, hfs, hbrace⟩ :=
      ih hnone _ (hleft'.afterComma hleft)
    cases hs with
    | @cons _ m _ ms h hs =>
      rw [Likeness.is_eq h.1] at hl
      refine ⟨(f' :: fs', brace'), rest', ?_, hrest, hagree.cons hfs, hbrace⟩
      rw [fields_of_field hl hf', hr']
      rfl

theorem structBody_counterpart (first first' : Token) {r : List Field × Token}
    (hs : L.Follows more ls ms) (h : structBody first ls = ⟨[], .ok (r, rest)⟩) :
    ∃ r' rest', structBody first' ms = ⟨[], .ok (r', rest')⟩ ∧ L.Follows more rest rest' ∧
      L.Agree (List.map Field.bare) r.1 r'.1 ∧ L.tokens r.2 r'.2 := by
  have hne : ls ≠ [] := by
    rintro rfl
    cases h
  unfold structBody at h ⊢
  rw [← hs.nextIs_eq hne]
  by_cases hn : nextIs "\x7b" ls
  · rw [if_pos hn] at h ⊢
    exact fields_counterpart _ _ (hs.tail hne) h
  · rw [if_neg hn] at h ⊢
    obtain ⟨r', rest', hr', hrest, hr⟩ := firm_tupleBody.reads hs (congrArg Attempt.outcome h)
    exact ⟨r', rest', by rw [Attempt.ofParser, hr']; rfl, hrest, hr⟩

/-- **A structure** and its counterpart. -/
theorem structItem_counterpart {pre pre' : Preamble} (hpre : L.Preambles pre pre')
    {d : Declaration} (hs : L.Follows more ls ms)
    (h : structItem pre ls = ⟨[], .ok (d, rest)⟩) :
    ∃ d' rest', structItem pre' ms = ⟨[], .ok (d', rest')⟩ ∧ L.Follows more rest rest' ∧
      L.Declarations d d' := by
  obtain ⟨⟨⟨name, g⟩, mid⟩, hhead, hbody⟩ :=
    Attempt.outcome_bind_eq_ok.mp (congrArg Attempt.outcome h)
  obtain ⟨⟨⟨fs, close⟩, left⟩, hbody, hd⟩ := Attempt.outcome_bind_eq_ok.mp hbody
  cases hd
  have hissues : (structBody pre.first mid).issues = [] := by
    have hall := congrArg Attempt.issues h
    unfold structItem at hall
    rw [Attempt.issues_ofParser_bind hhead] at hall
    rw [Attempt.issues_bind_of_ok hbody] at hall
    exact (List.append_eq_nil_iff.mp hall).1
  have hmid : mid ≠ [] := by
    rintro rfl
    cases hbody
  obtain ⟨⟨name', g'⟩, mid', hhead', hmid', hname, hg⟩ :=
    carries_structHeading.reads_of_ne_nil hs hhead hmid
  obtain ⟨⟨fs', close'⟩, rest', hbody', hrest, hfs, hclose⟩ :=
    structBody_counterpart _ pre'.first hmid' (Attempt.eq_of_ok hissues hbody)
  refine ⟨_, rest', structItem_of_body hhead' hbody', hrest, ⟨?_, fun he => ?_⟩,
    ⟨_, _, _, _, hpre.first, hclose, rfl, rfl⟩, .none⟩
  · simp only [structDeclaration, Declaration.bare, Heading.bare, Shape.bare] at *
    rw [hfs.1, hg, hpre.isPublic_eq, L.text_eq hname]
  · dsimp only at hg hname hfs hclose
    rw [hpre.eq he, L.eq_of_exact he hname, hg, hfs.2 he, L.eq_of_exact he hclose]

end Structures

end KlarAudit

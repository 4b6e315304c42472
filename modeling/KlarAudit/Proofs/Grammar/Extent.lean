import KlarAudit.Proofs.Grammar.Heading

/-!
# The extents of what is read

A declaration extends from its first token to the last one that is read for it. Its parts, the
fields of a structure, the variants of an enumeration and the body of a function, extend over
stretches of these tokens, one after another. All this is said of tokens only; what it means for
offsets depends on the tokens standing in order.

## Main definitions

* `Extent ts s`: the span `s` runs from the first token of `ts` to the last
* `InOrder R as ts`: the things `as` stand on stretches of `ts`, one after another
* `Placed pre d ts`: the declaration `d` and its parts, placed on the tokens `ts`

## Main results

* `placed_of_opening`: a declaration read whole is placed on the tokens that are taken for it
-/

namespace KlarAudit

/-- **The extent of a run**: the span runs from the start of its first token to the stop of its
last. -/
def Extent (ts : List Token) (s : Span) : Prop :=
  ∃ a b, ts.head? = some a ∧ ts.getLast? = some b ∧ s = ⟨a.start, b.stop⟩

theorem getLast?_cons_eq_getLastD (t : Token) (ts : List Token) :
    (t :: ts).getLast? = some ((t :: ts).getLastD t) := by
  rw [List.getLastD_eq_getLast?, List.getLast?_cons]
  rfl

/-- A run from its first token on. -/
theorem Extent.cons {ts : List Token} {last : Token} (first : Token)
    (h : ts.getLast? = some last) : Extent (first :: ts) ⟨first.start, last.stop⟩ :=
  ⟨first, last, rfl, by rw [List.getLast?_cons, h]; rfl, rfl⟩

theorem Extent.start_eq {t : Token} {ts : List Token} {s : Span} (h : Extent (t :: ts) s) :
    s.start = t.start := by
  obtain ⟨a, b, ⟨⟩, -, rfl⟩ := h
  rfl

theorem Extent.stop_eq {t : Token} {ts : List Token} {s : Span} (h : Extent ts s)
    (ht : ts.getLast? = some t) : s.stop = t.stop := by
  obtain ⟨a, b, -, hb, rfl⟩ := h
  cases hb.symm.trans ht
  rfl

/-! ## Things on stretches of a run -/

/-- **Things in order**: each of `as` stands in the relation `R` to a stretch of `ts`, and the
stretches follow one another without a common token. -/
inductive InOrder {α : Type} (R : α → List Token → Prop) : List α → List Token → Prop where
  /-- Nothing stands anywhere. -/
  | nil (ts : List Token) : InOrder R [] ts
  /-- The first thing, behind some tokens, and the others behind it. -/
  | cons {a : α} {as : List α} {skipped here more : List Token} (h : R a here)
    (hs : InOrder R as more) : InOrder R (a :: as) (skipped ++ (here ++ more))

namespace InOrder

variable {α : Type} {R : α → List Token → Prop} {as bs : List α} {ts us : List Token}

theorem prepend (h : InOrder R as us) (ts : List Token) : InOrder R as (ts ++ us) := by
  cases h with
  | nil => exact .nil _
  | cons h hs =>
    rw [← List.append_assoc]
    exact .cons h hs

theorem append (h : InOrder R as ts) (k : InOrder R bs us) : InOrder R (as ++ bs) (ts ++ us) := by
  induction h with
  | nil ts => exact k.prepend ts
  | cons h _ ih =>
    rw [List.append_assoc, List.append_assoc]
    exact .cons h ih

theorem single {a : α} {here : List Token} (h : R a here) (skipped : List Token) :
    InOrder R [a] (skipped ++ here) := by
  have hsingle : InOrder R [a] (skipped ++ (here ++ [])) := .cons h (.nil [])
  rwa [List.append_nil] at hsingle

/-- A thing that may be missing. -/
theorem toList {o : Option α} (h : ∀ a ∈ o, R a ts) : InOrder R o.toList ts := by
  cases o with
  | none => exact .nil ts
  | some a => exact single (h a rfl) []

theorem extend (h : InOrder R as ts) (us : List Token) : InOrder R as (ts ++ us) := by
  simpa using h.append (nil us)

theorem map {β : Type} {S : β → List Token → Prop} {f : α → β} (h : InOrder R as ts)
    (hf : ∀ a ts, R a ts → S (f a) ts) : InOrder S (as.map f) ts := by
  induction h with
  | nil ts => exact .nil ts
  | cons h _ ih => exact .cons (hf _ _ h) ih

theorem exists_of_mem (h : InOrder R as ts) {a : α} (ha : a ∈ as) :
    ∃ before here after, ts = before ++ (here ++ after) ∧ R a here := by
  induction h with
  | nil => cases ha
  | @cons b as skipped here more hb _ ih =>
    rcases List.mem_cons.mp ha with rfl | ha
    · exact ⟨skipped, here, more, rfl, hb⟩
    · obtain ⟨before, here', after, rfl, hR⟩ := ih ha
      exact ⟨skipped ++ (here ++ before), here', after, by simp, hR⟩

end InOrder

/-- The spans of what a declaration lists: its fields or its variants. -/
def Shape.parts : Shape → List Span
  | struct _ fields => fields.map (·.span)
  | enum _ variants => variants.map (·.span)
  | _ => []

/-- **The token may end a declaration**: it is a semicolon or a closing bracket. -/
def Token.Terminal (t : Token) : Prop :=
  t.is ";" ∨ ∃ d : Delimiter, t.is d.closer

theorem Token.terminal_of_closes? {t : Token} (h : t.closes?.isSome) : t.Terminal := by
  obtain ⟨d, hd⟩ := Option.isSome_iff_exists.mp h
  obtain ⟨hk, ht⟩ := Token.closes?_eq_some_iff.mp hd
  exact .inr ⟨d, by simp [Token.is, hk, ht, TokenKind.isStructural]⟩

/-- **The declaration `d` on the tokens `ts`**, the last of which end it; it starts with the first
token of the preamble, which may stand before `ts`. -/
structure Placed (pre : Preamble) (d : Declaration) (ts : List Token) : Prop where
  /-- The span stops with the last token. -/
  span : ∃ last, ts.getLast? = some last ∧ last.Terminal ∧ d.span = ⟨pre.first.start, last.stop⟩
  /-- The fields or variants stand on stretches of the tokens. -/
  parts : InOrder (fun s ts => Extent ts s) d.shape.parts ts
  /-- A body is the end of the tokens. -/
  body : ∀ s ∈ d.body?, ∃ before here, ts = before ++ here ∧ Extent here s

theorem Placed.prepend {pre : Preamble} (d : Declaration) (ts us : List Token)
    (h : Placed pre d us) : Placed pre d (ts ++ us) := by
  constructor
  case span =>
    obtain ⟨last, hlast, hspan⟩ := h.span
    exact ⟨last, by rw [List.getLast?_append, hlast]; rfl, hspan⟩
  case parts => exact h.parts.prepend ts
  case body =>
    intro s hs
    obtain ⟨before, here, rfl, hhere⟩ := h.body s hs
    exact ⟨ts ++ before, here, (List.append_assoc ..).symm, hhere⟩

namespace Parser

/-! ## Bracket groups -/

/-- A bracket group extends from its opening bracket to its closing one. -/
theorem takes_group (s : String) :
    Takes (group s) fun g ts => g = none ∧ ts = [] ∨
      ∃ o c rest, g = some (o, c) ∧ ts = o :: rest ∧ rest.getLast? = some c ∧ c.Terminal := by
  intro ls g rest h
  obtain ⟨rfl, rfl⟩ | ⟨l, tail, close, rfl, -, hf, rfl⟩ := group_eq_ok h
  · exact ⟨[], rfl, .inl ⟨rfl, rfl⟩⟩
  · obtain ⟨taken, rfl, -, hlast, hclose⟩ := takes_groupFrom _ _ _ _ _ hf
    exact ⟨l :: taken, rfl, .inr ⟨_, _, _, rfl, rfl, hlast, Token.terminal_of_closes? hclose⟩⟩

/-! ## Functions -/

/-- A body is all that is taken, and the function stops where the body does. -/
theorem takes_functionBody (name : String) :
    Takes (functionBody name) fun r ts => ∃ last, ts.getLast? = some last ∧ last.Terminal ∧
      r.2 = last.stop ∧ ∀ s ∈ r.1, Extent ts s := by
  intro ls r rest hls
  obtain ⟨g, mid, hg, h⟩ := bind_eq_ok.mp hls
  have hgroup := takes_group _ _ _ _ hg
  cases g with
  | none =>
    obtain ⟨t, left, ht, h⟩ := bind_eq_ok.mp h
    cases t with
    | none => cases h
    | some t =>
      cases h
      refine hgroup.trans (takes_accept ";" _ _ _ ht) ?_
      rintro ts us - ⟨rfl, hsemi⟩
      exact ⟨t, by simp, .inl (hsemi t rfl), rfl, nofun⟩
  | some g =>
    cases h
    refine hgroup.mono ?_
    rintro ts (⟨⟨⟩, -⟩ | ⟨o, c, more, ⟨⟩, rfl, hlast, hclose⟩)
    refine ⟨c, by rw [List.getLast?_cons, hlast]; rfl, hclose, rfl, ?_⟩
    rintro s ⟨⟩
    exact Extent.cons o hlast

theorem takes_function (pre : Preamble) : Takes (function pre) (Placed pre) := by
  refine .before Placed.prepend (takes_expect _) fun _ =>
    .before Placed.prepend (takes_expectName _) fun name =>
      .before Placed.prepend (nests_generics []) fun _ =>
        .before Placed.prepend (takes_expect _) fun _ =>
          .before Placed.prepend (nests_slots []) fun slots =>
            .before Placed.prepend (nests_typeAfter (by decide) _ []) fun _ =>
              .before Placed.prepend (nests_whereBounds []) fun _ => ?_
  refine (takes_functionBody name.text).bind (fun r => takes_pure (R := fun d us => us = [] ∧
    d.span = ⟨pre.first.start, r.2⟩ ∧ d.shape.parts = [] ∧ d.body? = r.1) _
      ⟨rfl, rfl, rfl, rfl⟩) ?_
  rintro r d ts us ⟨last, hlast, hterminal, hstop, hbody⟩ ⟨rfl, hspan, hparts, hd⟩
  rw [List.append_nil]
  refine ⟨⟨last, hlast, hterminal, by rw [hspan, hstop]⟩, by rw [hparts]; exact .nil ts, ?_⟩
  intro s hs
  exact ⟨[], ts, rfl, hbody s (hd ▸ hs)⟩

/-! ## Structures -/

/-- A field extends from its name to the end of its type. -/
theorem takes_field_extent :
    Takes field fun r ts => InOrder (fun f ts => Extent ts f.span) [r.1] ts := by
  have prepend (r : Field × Option Token) (ts us : List Token)
      (h : InOrder (fun f ts => Extent ts f.span) [r.1] us) :
      InOrder (fun f ts => Extent ts f.span) [r.1] (ts ++ us) := h.prepend ts
  have typed (name : Token) (isPublic : Bool) : Takes (fieldType name isPublic) fun r ts =>
      ∃ last, ts.getLast? = some last ∧ r.1.span = ⟨name.start, last.stop⟩ := by
    intro ls r rest h
    refine (takes_fieldType name isPublic _ _ _ h).mono ?_
    rintro ts ⟨⟨t, us, rfl, hr⟩, -⟩
    exact ⟨_, getLast?_cons_eq_getLastD t us, by rw [hr]; rfl⟩
  refine .before prepend (nests_attributes []) fun _ => .before prepend (takes_accept _) fun _ => ?_
  refine (takes_expectName _).bind (fun name => (takes_expect _).bind
    (T := fun r ts => ∃ last, ts.getLast? = some last ∧ r.1.span = ⟨name.start, last.stop⟩)
    (fun _ => typed name _) ?_) ?_
  · rintro colon r ts us - ⟨last, hlast, hspan⟩
    exact ⟨last, by rw [List.getLast?_append, hlast]; rfl, hspan⟩
  · rintro name r ts us ⟨rfl, -⟩ ⟨last, hlast, hspan⟩
    refine InOrder.single ?_ []
    rw [hspan]
    exact Extent.cons name hlast

end Parser

/-- **A closed list** on the tokens `ts`: its members stand on stretches of them, and the last of
them closes it. -/
def ClosedList {α : Type} (span : α → Span) (r : List α × Token) (ts : List Token) : Prop :=
  InOrder (fun a ts => Extent ts (span a)) r.1 ts ∧ ts.getLast? = some r.2 ∧ r.2.Terminal

theorem ClosedList.prepend {α : Type} {span : α → Span} (r : List α × Token) (ts us : List Token)
    (h : ClosedList span r us) : ClosedList span r (ts ++ us) :=
  ⟨h.1.prepend ts, by rw [List.getLast?_append, h.2.1]; rfl, h.2.2⟩

theorem ClosedList.close {α : Type} (span : α → Span) {t : Token} (ht : t.Terminal) :
    ClosedList span ([], t) [t] :=
  ⟨.nil [t], rfl, ht⟩

theorem ClosedList.cons {α : Type} {span : α → Span} {a : α} {r : List α × Token}
    {ts us : List Token} (h : InOrder (fun a ts => Extent ts (span a)) [a] ts)
    (k : ClosedList span r us) : ClosedList span (a :: r.1, r.2) (ts ++ us) :=
  ⟨h.append k.1, by rw [List.getLast?_append, k.2.1]; rfl, k.2.2⟩

/-- The named fields of a structure, whether commas are missing or not. -/
theorem closedList_fields {first : Token} {ls rest : List Lexeme} {r : List Field × Token}
    (h : (fields first ls).outcome = .ok (r, rest)) :
    Between ls rest (ClosedList (·.span) r) := by
  refine fields_induction (P := fun ls r rest => Between ls rest (ClosedList (·.span) r))
    ?close ?field h
  case close => exact fun hc => ⟨[_], rfl, ClosedList.close _ (.inr ⟨.brace, hc⟩)⟩
  case field =>
    intro l tail f following left r rest _ hf _ ih
    refine (Parser.takes_field_extent _ _ _ hf).trans ?_ fun _ _ => ClosedList.cons
    exact (Parser.leads_afterComma left []).trans ih fun _ _ _ => ClosedList.prepend _ _ _

namespace Run

/-- The pieces between commas are stretches of the run, one after another. -/
theorem inOrder_splitFrom (depth : Nat) (ts : List Token) :
    ∃ more, ts = (splitFrom depth ts).1 ++ more ∧ InOrder Eq (splitFrom depth ts).2 more := by
  induction ts generalizing depth with
  | nil => exact ⟨[], rfl, .nil []⟩
  | cons t ts ih =>
    obtain ⟨more, hts, hothers⟩ := ih (depthAfter depth t)
    simp only [splitFrom]
    split
    · -- the comma belongs to no piece
      refine ⟨t :: ts, rfl, ?_⟩
      have hpieces : InOrder Eq _ ([t] ++ (_ ++ more)) :=
        .cons (a := (splitFrom (depthAfter depth t) ts).1) rfl hothers
      rw [← hts] at hpieces
      exact hpieces
    · exact ⟨more, congrArg (t :: ·) hts, hothers⟩

theorem inOrder_splitCommas (ts : List Token) : InOrder Eq (splitCommas ts) ts := by
  obtain ⟨more, hts, hothers⟩ := inOrder_splitFrom 0 ts
  have hpieces : InOrder Eq _ ([] ++ (_ ++ more)) := .cons (a := (splitFrom 0 ts).1) rfl hothers
  rw [← hts] at hpieces
  exact hpieces

end Run

theorem InOrder.filterMap_zipIdx {α β : Type} {R : α → List Token → Prop}
    {S : β → List Token → Prop} {as : List α} {ts : List Token} {f : α × Nat → Option β}
    (h : InOrder R as ts) (hf : ∀ a i b ts, f (a, i) = some b → R a ts → S b ts) (n : Nat) :
    InOrder S ((as.zipIdx n).filterMap f) ts := by
  induction h generalizing n with
  | nil ts => exact .nil ts
  | @cons a as skipped here more h _ ih =>
    rw [List.zipIdx_cons, List.filterMap_cons]
    cases hb : f (a, n) with
    | none =>
      rw [← List.append_assoc]
      exact (ih (n + 1)).prepend _
    | some b => exact .cons (hf _ _ _ _ hb h) (ih (n + 1))

namespace Parser

/-- Fields without names stand on the pieces between the commas. -/
theorem inOrder_tupleFields (run : List Token) :
    InOrder (fun f ts => Extent ts f.span) (tupleFields run) run := by
  refine (Run.inOrder_splitCommas run).filterMap_zipIdx ?_ 0
  rintro part i f ts hf rfl
  cases part with
  | nil => cases hf
  | cons t ts =>
    cases hf
    exact ⟨t, _, rfl, getLast?_cons_eq_getLastD t ts, rfl⟩

theorem takes_tupleBody : Takes tupleBody (ClosedList (·.span)) := by
  refine .before ClosedList.prepend (takes_accept _) fun t => ?_
  cases t with
  | none =>
    refine (takes_expect _).bind (fun close => takes_pure
      (R := fun r us => us = [] ∧ r = ([], close)) _ ⟨rfl, rfl⟩) ?_
    rintro close r ts us ⟨rfl, hclose⟩ ⟨rfl, rfl⟩
    exact ClosedList.close _ (.inl hclose)
  | some _ =>
    intro ls r rest h
    obtain ⟨run, mid, hrun, h⟩ := bind_eq_ok.mp h
    obtain ⟨bracket, left, hbracket, h⟩ := bind_eq_ok.mp h
    obtain ⟨close, after, hclose, h⟩ := bind_eq_ok.mp h
    cases h
    refine (takes_collect _ _ _ _ _ hrun).trans ((takes_expect _ _ _ _ hbracket).trans
      (takes_expect _ _ _ _ hclose) fun _ _ _ k => ?_) ?_
      (S := fun us => us.getLast? = some close ∧ close.Terminal)
    · rw [k.1, List.getLast?_append]
      exact ⟨rfl, .inl k.2⟩
    · rintro ts us ⟨rfl, -⟩ ⟨hlast, hterminal⟩
      refine ⟨(inOrder_tupleFields ts).extend us, ?_, hterminal⟩
      rw [List.getLast?_append, hlast]
      rfl

end Parser

/-- A declaration whose parts are the members of a closed list. -/
theorem ClosedList.placed {α : Type} {span : α → Span} {as : List α} {close : Token}
    {ts : List Token} {pre : Preamble} {d : Declaration} (h : ClosedList span (as, close) ts)
    (hspan : d.span = ⟨pre.first.start, close.stop⟩) (hparts : d.shape.parts = as.map span)
    (hbody : d.body? = none) : Placed pre d ts := by
  refine ⟨⟨close, h.2.1, h.2.2, hspan⟩, ?_, ?_⟩
  · rw [hparts]
    exact h.1.map fun _ _ ha => ha
  · rw [hbody]
    rintro s ⟨⟩

/-- **A structure** is placed on what is taken for it. -/
theorem placed_structItem {pre : Preamble} {ls rest : List Lexeme} {d : Declaration}
    (h : (structItem pre ls).outcome = .ok (d, rest)) : Between ls rest (Placed pre d) := by
  obtain ⟨⟨⟨name, generics⟩, mid⟩, hhead, h⟩ := Attempt.outcome_bind_eq_ok.mp h
  obtain ⟨⟨⟨fs, close⟩, left⟩, hbody, h⟩ := Attempt.outcome_bind_eq_ok.mp h
  cases h
  refine (Parser.nests_structHeading [] _ _ _ hhead).trans ?_ fun _ _ _ => Placed.prepend _ _ _
  have hlist : Between mid rest (ClosedList (·.span) (fs, close)) := by
    unfold structBody at hbody
    split at hbody
    · rename_i ho
      exact (Parser.leads_of_nextIs_opener .brace ho []).trans (closedList_fields hbody)
        fun _ _ _ => ClosedList.prepend _ _ _
    · exact Parser.takes_tupleBody _ _ _ hbody
  exact hlist.mono fun _ hts => hts.placed rfl rfl rfl

namespace Parser

/-! ## Enumerations and constants -/

theorem takes_payload : Takes payload fun p ts => ts.getLast? = p := by
  have last {g : Option (Token × Token)} {ts : List Token} (h : g = none ∧ ts = [] ∨
      ∃ o c rest, g = some (o, c) ∧ ts = o :: rest ∧ rest.getLast? = some c ∧ c.Terminal) :
      ts.getLast? = g.map (·.2) := by
    rcases h with ⟨rfl, rfl⟩ | ⟨o, c, more, rfl, rfl, hlast, -⟩
    · rfl
    · rw [List.getLast?_cons, hlast]
      rfl
  refine (takes_group "(").bind (S := fun g p us => g = none ∧ us.getLast? = p ∨
    g.map (·.2) = p ∧ us = []) (fun g => ?_) ?_
  · cases g with
    | some g => exact takes_pure _ (.inr ⟨rfl, rfl⟩)
    | none =>
      refine (takes_group "\x7b").bind (fun g => takes_pure (R := fun p us => us = [] ∧
        p = g.map (·.2)) _ ⟨rfl, rfl⟩) ?_
      rintro g p ts us hts ⟨rfl, rfl⟩
      exact .inl ⟨rfl, by rw [List.append_nil, last hts]⟩
  · rintro g p ts us hts (⟨rfl, hus⟩ | ⟨rfl, rfl⟩)
    · have hnil := last hts
      rw [Option.map_none, List.getLast?_eq_none_iff] at hnil
      rw [hnil]
      exact hus
    · rw [List.append_nil, last hts]

theorem takes_valueBefore (terminators : List String) :
    Takes (valueBefore terminators) fun value ts => value = [] ∨ ∃ t, ts = t :: value := by
  refine (takes_accept "=").bind (S := fun t value us => (t = none → value = []) ∧ us = value)
    (fun t => ?_) ?_
  · cases t with
    | none => exact takes_pure _ ⟨fun _ => rfl, rfl⟩
    | some _ => exact (takes_collect _ _).mono fun _ _ h => ⟨nofun, h.1⟩
  · rintro t value ts us ⟨rfl, -⟩ ⟨hvalue, rfl⟩
    cases t with
    | none => exact .inl (hvalue rfl)
    | some t => exact .inr ⟨t, rfl⟩

/-- A variant extends from its name to the end of its payload or value. -/
theorem takes_variant :
    Takes variant fun v ts => InOrder (fun v ts => Extent ts v.span) [v] ts := by
  have prepend (v : Variant) (ts us : List Token)
      (h : InOrder (fun v ts => Extent ts v.span) [v] us) :
      InOrder (fun v ts => Extent ts v.span) [v] (ts ++ us) := h.prepend ts
  refine .before prepend (nests_attributes []) fun _ => ?_
  intro ls v rest h
  obtain ⟨name, mid, hname, h⟩ := bind_eq_ok.mp h
  obtain ⟨p, mid', hp, h⟩ := bind_eq_ok.mp h
  obtain ⟨value, left, hvalue, h⟩ := bind_eq_ok.mp h
  cases h
  refine (takes_expectName _ _ _ _ hname).trans ((takes_payload _ _ _ hp).trans
    (takes_valueBefore _ _ _ _ hvalue) (T := fun us => ∃ more after, us = more ++ after ∧
      more.getLast? = value.getLast?.or p) ?_) ?_
  · rintro ts us hts (rfl | ⟨t, rfl⟩)
    · -- the equals sign of an empty value stands behind the variant
      exact ⟨ts, us, rfl, hts⟩
    · cases value with
      | nil => exact ⟨ts, [t], rfl, hts⟩
      | cons u value =>
        refine ⟨ts ++ t :: u :: value, [], (List.append_nil _).symm, ?_⟩
        rw [List.getLast?_append, List.getLast?_cons_cons, hts, getLast?_cons_eq_getLastD]
  · rintro ts us ⟨rfl, -⟩ ⟨more, after, rfl, hlast⟩
    refine InOrder.extend (InOrder.single ?_ [] : InOrder _ [_] (name :: more)) after
    exact ⟨name, _, rfl, by rw [List.getLast?_cons, hlast], rfl⟩

theorem takes_variants (first : Token) : Takes (variants first) (ClosedList (·.span)) := by
  intro ls r rest h
  refine variants_induction (P := fun ls r rest => Between ls rest (ClosedList (·.span) r))
    ?close ?comma ?last h
  case close => exact fun hc => ⟨[_], rfl, ClosedList.close _ (.inr ⟨.brace, hc⟩)⟩
  case comma =>
    intro l tail v left r rest _ hv hn ih
    have hcomma := leads_of_nextIs hn (by decide) []
    have hmore := hcomma.trans ih fun _ _ _ => ClosedList.prepend _ _ _
    exact (takes_variant _ _ _ hv).trans hmore fun _ _ h k => ClosedList.cons h k
  case last =>
    intro l tail v left brace rest _ hv _ hr
    refine (takes_variant _ _ _ hv).trans (takes_expect _ _ _ _ hr) ?_
    rintro ts us hts ⟨rfl, hclose⟩
    exact .cons hts (ClosedList.close _ (.inr ⟨.brace, hclose⟩))

theorem takes_enumeration (pre : Preamble) : Takes (enumeration pre) (Placed pre) := by
  refine .before Placed.prepend (takes_expect _) fun _ =>
    .before Placed.prepend (takes_expectName _) fun name =>
      .before Placed.prepend (nests_generics []) fun _ =>
        .before Placed.prepend (nests_whereBounds []) fun _ =>
          .before Placed.prepend (takes_expect _) fun _ => ?_
  refine (takes_variants _).bind (fun r => takes_pure (R := fun d us => us = [] ∧
    d.span = ⟨pre.first.start, r.2.stop⟩ ∧ d.shape.parts = r.1.map (·.span) ∧ d.body? = none) _
      ⟨rfl, rfl, rfl, rfl⟩) ?_
  rintro ⟨vs, close⟩ d ts us hts ⟨rfl, hspan, hparts, hbody⟩
  rw [List.append_nil]
  exact hts.placed hspan hparts hbody

theorem takes_constant (keyword : String) (pre : Preamble) :
    Takes (constant keyword pre) (Placed pre) := by
  refine .before Placed.prepend (takes_expect _) fun _ =>
    .before Placed.prepend (takes_accept _) fun _ =>
      .before Placed.prepend (takes_expectName _) fun name =>
        .before Placed.prepend (nests_typeAfter (by decide) _ []) fun _ =>
          .before Placed.prepend (nests_valueBefore _ []) fun _ => ?_
  refine (takes_expect _).bind (fun close => takes_pure (R := fun d us => us = [] ∧
    d.span = ⟨pre.first.start, close.stop⟩ ∧ d.shape.parts = [] ∧ d.body? = none) _
      ⟨rfl, rfl, rfl, rfl⟩) ?_
  rintro close d ts us ⟨rfl, hclose⟩ ⟨rfl, hspan, hparts, hbody⟩
  exact (ClosedList.close (·) (.inl hclose)).placed hspan hparts hbody

end Parser

/-! ## Any declaration -/

/-- **A declaration read whole** is placed on what is taken for it, and starts with the first token
of that. -/
theorem placed_of_opening {byPlace : Bool} {ls rest : List Lexeme} {d : Declaration}
    (h : (opening byPlace ls).outcome = .ok (.complete (some d), rest)) :
    ∃ pre, ls.head?.map (·.token) = some pre.first ∧ Between ls rest (Placed pre d) := by
  obtain ⟨l, tail, pre, after, rfl, hpre, hbefore, ho, -⟩ := opening_split h
  have hfirst : pre.first = l.token := Parser.yields_preamble _ _ _ _ _ hpre
  refine ⟨pre, by rw [hfirst]; rfl, hbefore.trans ?_ fun _ _ _ => Placed.prepend _ _ _⟩
  obtain ⟨m, more, i, rfl, -, hopen⟩ := exists_introducer ho
  rw [hopen] at ho
  have lift {p : Parser Declaration} (hp : Parser.Takes p (Placed pre))
      (h : (Attempt.ofParser ((Opening.complete ∘ some) <$> p) (m :: more)).outcome =
        .ok (.complete (some d), rest)) : Between (m :: more) rest (Placed pre d) := by
    obtain ⟨d', hd, ⟨⟩⟩ := Parser.map_eq_ok.mp h
    exact hp _ _ _ hd
  cases i with
  | function => exact lift (Parser.takes_function pre) ho
  | enumeration => exact lift (Parser.takes_enumeration pre) ho
  | constant => exact lift (Parser.takes_constant _ pre) ho
  | struct =>
    obtain ⟨⟨d', mid⟩, hd, ⟨⟩⟩ := Attempt.outcome_map_eq_ok.mp ho
    exact placed_structItem hd
  | module => exact absurd rfl (Parser.yields_module _ pre _ _ _ ho d)
  | _ => obtain ⟨_, -, ⟨⟩⟩ := Parser.map_eq_ok.mp ho

end KlarAudit

import KlarAudit.Proofs.Arena.Body
import KlarAudit.Proofs.Grammar.Counterpart
import KlarAudit.Proofs.Grammar.Extent
import KlarAudit.Proofs.Grammar.Spelling

/-!
# Where types come from

Types are kept as text. Every type of a parameter, of a field and of a result in the arena of a text
is the rendering of a stretch of its tokens, which stands where the grammar puts a type: behind the
colon of the parameter or the field, or behind the arrow.

## Main definitions

* `StandsIn ts R`: some of the tokens `ts` in a row satisfy `R`
* `Parameter.On`, `Field.On`, `ResultOn`: a parameter, a field or a result on the tokens that
  declare it, its type among them

## Main results

* `typesOn_of_mem`: the parameters of a function, its result and the fields of a structure in the
  arena of a text stand on stretches of its tokens, one after another
-/

namespace KlarAudit

open KlarAudit.Parser

/-! ## Declarations of a type -/

/-- **A parameter on the tokens that declare it**: `type` stands between the first colon outside
brackets and the token that ends the parameter, and the name is the last one before that colon. -/
def Parameter.On (type : List Token) (p : Parameter) (here : List Token) : Prop :=
  ∃ head name colon stop, here = head ++ colon :: (type ++ [stop]) ∧
    Run.colon? (head ++ colon :: type) = some head.length ∧
    (head.filter (·.kind == .identifier)).getLast? = some name ∧ stop.stops [")", ","] ∧
    p = ⟨name.text, Run.render type, name.pos⟩

abbrev Parameter.Written (p : Parameter) (here : List Token) : Prop :=
  ∃ type, p.On type here

/-- **A field on the tokens that declare it**: `type` stands behind the name and a colon, or where
the field has no name, behind its visibility mark if there is one. -/
def Field.On (type : List Token) (f : Field) (here : List Token) : Prop :=
  f.type = Run.render type ∧ Extent here f.span ∧
    ((∃ name colon, here = name :: colon :: type ∧ colon.is ":" ∧ f.name = name.text ∧
        f.pos = name.pos) ∨
      ∃ mark : Option Token, here = mark.toList ++ type ∧ ∀ m ∈ mark, m.is "pub")

abbrev Field.Written (f : Field) (here : List Token) : Prop :=
  ∃ type, f.On type here

/-- **The result of a function on the tokens that declare it**: `type` stands between the arrow and
the token that ends the result. -/
def ResultOn (type : List Token) (result : String) (here : List Token) : Prop :=
  ∃ arrow stop, here = arrow :: (type ++ [stop]) ∧ arrow.is "->" ∧
    stop.stops [";", "where", "\x7b"] ∧ result = Run.render type

abbrev ResultWritten (result : String) (here : List Token) : Prop :=
  ∃ type, ResultOn type result here

/-- Some of the tokens `ts` in a row satisfy `R`. -/
def StandsIn (ts : List Token) (R : List Token → Prop) : Prop :=
  ∃ before here after, ts = before ++ (here ++ after) ∧ R here

/-- **A declaration whose types stand on the tokens `ts`.** -/
structure TypesOn (d : Declaration) (ts : List Token) : Prop where
  /-- The parameters of a function. -/
  params : ∀ sig ∈ d.signature?, InOrder Parameter.Written sig.params ts
  /-- Its result. -/
  result : ∀ sig ∈ d.signature?, InOrder ResultWritten sig.returnType.toList ts
  /-- The fields of a structure. -/
  fields : ∀ g fs, d.shape = .struct g fs → InOrder Field.Written fs ts

namespace TypesOn

variable {d : Declaration} {ts : List Token}

theorem around (h : TypesOn d ts) (before after : List Token) :
    TypesOn d (before ++ (ts ++ after)) where
  params sig hs := ((h.params sig hs).extend after).prepend before
  result sig hs := ((h.result sig hs).extend after).prepend before
  fields g fs hd := ((h.fields g fs hd).extend after).prepend before

theorem prepend (h : TypesOn d ts) (before : List Token) : TypesOn d (before ++ ts) := by
  simpa using h.around before []

/-- A declaration with neither parameters nor fields. -/
theorem of_none (hs : d.signature? = none) (hf : ∀ g fs, d.shape ≠ .struct g fs)
    (ts : List Token) : TypesOn d ts where
  params sig h := by rw [hs] at h; cases h
  result sig h := by rw [hs] at h; cases h
  fields g fs h := absurd h (hf g fs)

end TypesOn

/-! ## Parameters -/

theorem Run.exists_of_colonFrom? {depth k : Nat} {ts : List Token}
    (h : Run.colonFrom? depth ts = some k) :
    ∃ head colon type, ts = head ++ colon :: type ∧ head.length = k := by
  have hlt : k < ts.length := by
    induction ts generalizing depth k with
    | nil => cases h
    | cons t ts ih =>
      rw [Run.colonFrom?] at h
      split at h
      · cases h
        exact Nat.zero_lt_succ _
      · obtain ⟨j, hj, rfl⟩ := Option.map_eq_some_iff.mp h
        exact Nat.succ_lt_succ (ih hj)
  refine ⟨ts.take k, ts[k], ts.drop (k + 1), ?_, List.length_take_of_le (Nat.le_of_lt hlt)⟩
  rw [List.getElem_cons_drop, List.take_append_drop]

namespace Parser

/-- The parameters among the slots. -/
def parametersOf (slots : List Slot) : List Parameter :=
  slots.filterMap fun | .param p => some p | .receiver _ => none

theorem parametersOf_append (ss more : List Slot) :
    parametersOf (ss ++ more) = parametersOf ss ++ parametersOf more :=
  List.filterMap_append

/-- What a run describes, if it is a parameter, stands on the run and the token behind it. -/
theorem parameterOn_of_slotOfRun {t stop : Token} {ts : List Token} {p : Parameter}
    (h : slotOfRun t ts = .ok (.param p)) (hstop : stop.stops [")", ","]) :
    p.Written (t :: ts ++ [stop]) := by
  rw [slotOfRun_eq] at h
  split at h
  · cases h
  · split at h
    · cases h
    · rename_i k hcolon
      obtain ⟨head, colon, type, hrun, rfl⟩ := Run.exists_of_colonFrom? hcolon
      rw [hrun] at h hcolon
      rw [List.take_left, List.drop_append, List.drop_of_length_le (Nat.le_succ _)] at h
      split at h
      · cases h
      · rename_i name hname
        cases h
        refine ⟨type, head, name, colon, stop, ?_, hcolon, hname, hstop, ?_⟩
        · rw [hrun, List.append_assoc, List.cons_append]
        · simp

theorem inOrder_of_slotsOfRun {run : List Token} {here : List Slot} {stop : Token}
    (h : slotsOfRun run = .ok here) (hstop : stop.stops [")", ","]) :
    InOrder Parameter.Written (parametersOf here) (run ++ [stop]) := by
  cases run with
  | nil => cases h; exact .nil _
  | cons t ts =>
    obtain ⟨slot, hslot, rfl⟩ := except_map_eq_ok.mp h
    cases slot with
    | receiver text => exact .nil _
    | param p => exact InOrder.single (parameterOn_of_slotOfRun hslot hstop) []

theorem stops_of_is {t : Token} {s : String} {terminators : List String} (h : t.is s)
    (hs : s ∈ terminators) : t.stops terminators := by
  simp only [Token.is, Bool.and_eq_true, beq_iff_eq] at h
  exact Token.stops_iff.mpr ⟨h.2, h.1 ▸ hs⟩

/-- **The parameters** of a list stand on stretches of it. -/
theorem takes_slots : Takes slots fun ss ts =>
    InOrder Parameter.Written (parametersOf ss) ts := by
  intro ls ss rest h
  refine slots_induction (P := fun ls ss rest =>
    Between ls rest (InOrder Parameter.Written (parametersOf ss))) ?close ?comma ?last h
  case close =>
    intro ls hn
    obtain ⟨l, hl, -⟩ := eq_cons_of_nextIs hn
    exact ⟨[l], hl, .nil _⟩
  case comma =>
    -- the comma ends the slot, so it stands on the run together with the comma
    intro ls run left here more rest _ hrun hs hc ih
    obtain ⟨l, hleft, hl⟩ := eq_cons_of_nextIs hc
    obtain ⟨taken, hls, rfl, -⟩ := takes_collect _ _ _ _ _ hrun
    obtain ⟨behind, hbehind, hmore⟩ := ih
    refine ⟨taken ++ [l] ++ behind, ?_, ?_⟩
    · rw [hls, hleft, hbehind]
      simp
    · rw [List.map_append, List.map_append, parametersOf_append]
      exact (inOrder_of_slotsOfRun hs (stops_of_is hl (by decide))).append hmore
  case last =>
    -- the closing bracket ends the slot in its place
    intro ls run left here bracket rest _ hrun hs _ hr
    refine (takes_collect _ _ _ _ _ hrun).trans (takes_expect _ _ _ _ hr) ?_
    rintro ts us ⟨rfl, -⟩ ⟨rfl, hclose⟩
    exact inOrder_of_slotsOfRun hs (stops_of_is hclose (by decide))

/-! ## Results -/

/-- What stands behind a run ends it. -/
theorem exists_stop_of_collectFrom {terminators : List String} {angles : Bool} {stack : List Token}
    {angle : Nat} {ls rest : List Lexeme} {ts : List Token}
    (h : collectFrom terminators angles stack angle ls = .ok (ts, rest)) :
    ∃ l tail, rest = l :: tail ∧ l.token.stops terminators := by
  refine collectFrom_induction (P := fun _ _ _ rest =>
    ∃ l tail, rest = l :: tail ∧ l.token.stops terminators) ?stop ?step h
  case stop => exact fun hkind htext => ⟨_, _, rfl, Token.stops_iff.mpr ⟨hkind, htext⟩⟩
  case step => exact fun _ ih => ih

/-- **The type behind an arrow**, with the token behind it, stands on what is taken together with
anything that is taken next. -/
theorem takes_result {ls mid rest : List Lexeme} {result : Option String}
    (h : typeAfter "->" [";", "where", "\x7b"] ls = .ok (result, mid)) (hrest : rest <:+ mid)
    (hlt : rest.length < mid.length) :
    Between ls rest (InOrder ResultWritten result.toList) := by
  obtain ⟨behind, rfl⟩ := hrest
  obtain ⟨t, left, haccept, h⟩ := bind_eq_ok.mp h
  obtain ⟨taken, rfl, htaken, ht⟩ := takes_accept _ _ _ _ haccept
  cases t with
  | none =>
    cases h
    exact ⟨taken ++ behind, by simp, .nil _⟩
  | some arrow =>
    obtain ⟨run, more, hcollect, h⟩ := bind_eq_ok.mp h
    cases h
    obtain ⟨type, rfl, rfl, -⟩ := takes_collect _ _ _ _ _ hcollect
    obtain ⟨l, tail, hl, hstop⟩ := exists_stop_of_collectFrom hcollect
    -- the token that ends the type is the first one taken behind it
    cases behind with
    | nil => exact absurd hlt (by simp)
    | cons m behind =>
      obtain rfl : m = l := (List.cons.inj hl).1
      refine ⟨taken ++ (type ++ m :: behind), by simp, ?_⟩
      rw [List.map_append, List.map_append, htaken]
      have hresult : ResultOn (type.map Lexeme.token) (Run.render (type.map Lexeme.token))
          (arrow :: (type.map Lexeme.token ++ [m.token])) :=
        ⟨arrow, m.token, rfl, ht arrow rfl, hstop, rfl⟩
      have hsingle := (InOrder.single (R := ResultWritten)
        ⟨_, hresult⟩ []).extend (behind.map Lexeme.token)
      simpa using hsingle

/-- A body, or the semicolon in its place, takes at least one token. -/
theorem advances_functionBody (name : String) : Advances (functionBody name) := by
  intro ls r rest h
  obtain ⟨taken, rfl, last, hlast, -⟩ := takes_functionBody _ _ _ _ h
  cases taken with
  | nil => cases hlast
  | cons l taken =>
    rw [List.length_append, List.length_cons]
    omega

/-- **The types of a function** stand on stretches of what is taken for it. -/
theorem types_of_function {pre : Preamble} {ls rest : List Lexeme} {d : Declaration}
    (h : function pre ls = .ok (d, rest)) : Between ls rest (TypesOn d) := by
  obtain ⟨_, ls₁, h₁, h⟩ := bind_eq_ok.mp h
  obtain ⟨name, ls₂, h₂, h⟩ := bind_eq_ok.mp h
  obtain ⟨g, ls₃, h₃, h⟩ := bind_eq_ok.mp h
  obtain ⟨_, ls₄, h₄, h⟩ := bind_eq_ok.mp h
  obtain ⟨ss, ls₅, h₅, h⟩ := bind_eq_ok.mp h
  obtain ⟨result, ls₆, h₆, h⟩ := bind_eq_ok.mp h
  obtain ⟨bounds, ls₇, h₇, h⟩ := bind_eq_ok.mp h
  obtain ⟨⟨body, stop⟩, ls₈, h₈, h⟩ := bind_eq_ok.mp h
  cases h
  -- something is taken behind the result, so the token that ends its type is among what is taken
  have hsuffix : rest <:+ ls₆ :=
    (nests_functionBody _ [] _ _ _ h₈).suffix.trans (nests_whereBounds [] _ _ _ h₇).suffix
  have hlt : rest.length < ls₆.length :=
    Nat.lt_of_lt_of_le (advances_functionBody _ _ _ _ h₈) (shortens_whereBounds _ _ _ h₇)
  have hfront : Between ls ls₄ fun _ => True := by
    have step {x y z : List Lexeme} {R S : List Token → Prop} (hx : Between x y R)
        (hy : Between y z S) : Between x z fun _ => True := hx.trans hy fun _ _ _ _ => trivial
    exact step (takes_expect _ _ _ _ h₁) (step (takes_expectName _ _ _ _ h₂)
      (step (nests_generics [] _ _ _ h₃) (takes_expect _ _ _ _ h₄)))
  have hback : Between ls₄ rest fun ts =>
      InOrder Parameter.Written (parametersOf ss) ts ∧
      InOrder ResultWritten result.toList ts :=
    (takes_slots _ _ _ h₅).trans (takes_result h₆ hsuffix hlt)
      fun ts us hts hus => ⟨hts.extend us, hus.prepend ts⟩
  refine hfront.trans hback ?_
  rintro ts us - ⟨hparams, hresult⟩
  constructor
  case params => rintro sig ⟨⟩; exact hparams.prepend ts
  case result => rintro sig ⟨⟩; exact hresult.prepend ts
  case fields => rintro g fs ⟨⟩

/-! ## Fields -/

/-- **A named field** stands on the end of what is taken for it. -/
theorem takes_field_on : Takes field fun r ts =>
    InOrder Field.Written [r.1] ts := by
  have prepend (r : Field × Option Token) (ts us : List Token)
      (h : InOrder Field.Written [r.1] us) :
      InOrder Field.Written [r.1] (ts ++ us) := h.prepend ts
  refine .before prepend (nests_attributes []) fun _ => .before prepend (takes_accept _) fun _ => ?_
  intro ls r rest h
  obtain ⟨name, mid, hname, h⟩ := bind_eq_ok.mp h
  obtain ⟨colon, left, hcolon, h⟩ := bind_eq_ok.mp h
  obtain ⟨front, hls, hfront, -⟩ := takes_expectName _ _ _ _ hname
  obtain ⟨mark, hmid, hmark, hc⟩ := takes_expect _ _ _ _ hcolon
  obtain ⟨type, hleft, ⟨t, us, htype, hfield⟩, -⟩ := takes_fieldType _ _ _ _ _ h
  refine ⟨front ++ (mark ++ type), by simp [hls, hmid, hleft], ?_⟩
  have hon : Field.On (t :: us) r.1 (name :: colon :: t :: us) := by
    rw [hfield]
    refine ⟨rfl, Extent.cons name ?_, .inl ⟨name, colon, rfl, hc, rfl, rfl⟩⟩
    rw [List.getLast?_cons_cons, getLast?_cons_eq_getLastD]
  have hsingle := InOrder.single (R := Field.Written) ⟨_, hon⟩ []
  simpa [hfront, hmark, htype] using hsingle

/-- Fields without names stand on the pieces between the commas. -/
theorem inOrder_tupleFields_on (run : List Token) :
    InOrder Field.Written (tupleFields run) run := by
  refine (Run.inOrder_splitCommas run).filterMap_zipIdx ?_ 0
  rintro part i f ts hf rfl
  cases part with
  | nil => cases hf
  | cons t ts =>
    cases hf
    have hextent : Extent (t :: ts) ⟨t.start, ((t :: ts).getLastD t).stop⟩ :=
      ⟨t, _, rfl, getLast?_cons_eq_getLastD t ts, rfl⟩
    cases hmark : t.is "pub" with
    | true => exact ⟨ts, rfl, hextent, .inr ⟨some t, rfl, by simpa using hmark⟩⟩
    | false => exact ⟨t :: ts, rfl, hextent, .inr ⟨none, rfl, by simp⟩⟩

theorem takes_tupleBody_on : Takes tupleBody fun r ts => InOrder Field.Written r.1 ts := by
  refine .before (fun _ ts _ hus => hus.prepend ts) (takes_accept _) fun t => ?_
  cases t with
  | none =>
    intro ls r rest h
    obtain ⟨close, left, hclose, h⟩ := bind_eq_ok.mp h
    cases h
    exact (takes_expect _ _ _ _ hclose).mono fun ts _ => .nil ts
  | some _ =>
    intro ls r rest h
    obtain ⟨run, mid, hrun, h⟩ := bind_eq_ok.mp h
    obtain ⟨bracket, left, hbracket, h⟩ := bind_eq_ok.mp h
    obtain ⟨close, after, hclose, h⟩ := bind_eq_ok.mp h
    cases h
    refine (takes_collect _ _ _ _ _ hrun).trans ((takes_expect _ _ _ _ hbracket).trans
      (takes_expect _ _ _ _ hclose) fun _ _ _ _ => trivial) (S := fun _ => True) ?_
    rintro ts us ⟨rfl, -⟩ -
    exact (inOrder_tupleFields_on ts).extend us

end Parser

/-- The named fields of a structure, whether commas are missing or not. -/
theorem inOrder_of_fields {first : Token} {ls rest : List Lexeme} {r : List Field × Token}
    (h : (KlarAudit.fields first ls).outcome = .ok (r, rest)) :
    Between ls rest (InOrder Field.Written r.1) := by
  refine fields_induction (P := fun ls r rest => Between ls rest (InOrder Field.Written r.1))
    ?close ?field h
  case close => exact fun _ => ⟨[_], rfl, .nil _⟩
  case field =>
    intro l tail f following left r rest _ hf _ ih
    refine (takes_field_on _ _ _ hf).trans ?_ fun _ _ hts hus => hts.append hus
    exact (leads_afterComma left []).trans ih fun ts _ _ hus => hus.prepend ts

/-- **The types of a structure** stand on stretches of what is taken for it. -/
theorem types_of_structItem {pre : Preamble} {ls rest : List Lexeme} {d : Declaration}
    (h : (structItem pre ls).outcome = .ok (d, rest)) : Between ls rest (TypesOn d) := by
  obtain ⟨⟨⟨name, generics⟩, mid⟩, hhead, h⟩ := Attempt.outcome_bind_eq_ok.mp h
  obtain ⟨⟨⟨fs, close⟩, left⟩, hbody, h⟩ := Attempt.outcome_bind_eq_ok.mp h
  cases h
  have hfields : Between mid rest (InOrder Field.Written fs) := by
    unfold structBody at hbody
    split at hbody
    · rename_i ho
      exact (leads_of_nextIs_opener .brace ho []).trans (inOrder_of_fields hbody)
        fun ts _ _ hus => hus.prepend ts
    · exact takes_tupleBody_on _ _ _ hbody
  refine (nests_structHeading [] _ _ _ hhead).trans hfields ?_
  rintro ts us - hus
  constructor
  case params => rintro sig ⟨⟩
  case result => rintro sig ⟨⟩
  case fields => rintro g fs' ⟨⟩; exact hus.prepend ts

/-! ## The arena of a text -/

section Arena

variable {text : String} {e : Entry}

theorem Parser.typeless_enumeration (pre : Preamble) (ts : List Token) :
    Yields (enumeration pre) (TypesOn · ts) :=
  .bind fun _ => .bind fun _ => .bind fun _ => .bind fun _ => .bind fun _ => .bind fun _ =>
    yields_pure (.of_none rfl (fun g fs h => by cases h) ts)

theorem Parser.typeless_constant (keyword : String) (pre : Preamble) (ts : List Token) :
    Yields (constant keyword pre) (TypesOn · ts) :=
  .bind fun _ => .bind fun _ => .bind fun _ => .bind fun _ => .bind fun _ => .bind fun _ =>
    yields_pure (.of_none rfl (fun g fs h => by cases h) ts)

/-- **The types of a declaration read whole** stand on stretches of what is taken for it. -/
theorem types_of_opening {byPlace : Bool} {ls rest : List Lexeme} {d : Declaration}
    (h : (opening byPlace ls).outcome = .ok (.complete (some d), rest)) :
    Between ls rest (TypesOn d) := by
  obtain ⟨pre, -, hplaced⟩ := placed_of_opening h
  -- a declaration without types has them on anything that is taken
  have typeless (hnone : ∀ ts, TypesOn d ts) : Between ls rest (TypesOn d) :=
    hplaced.mono fun ts _ => hnone ts
  obtain ⟨l, tail, pre, after, rfl, hpre, hbefore, ho, -⟩ := opening_split h
  obtain ⟨m, more, i, rfl, -, hopen⟩ := exists_introducer ho
  rw [hopen] at ho
  have lift {p : Parser Declaration} (hp : ∀ ts, Parser.Yields p (TypesOn · ts))
      (h : (Attempt.ofParser ((Opening.complete ∘ some) <$> p) (m :: more)).outcome =
        .ok (.complete (some d), rest)) : ∀ ts, TypesOn d ts := by
    obtain ⟨d', hd, ⟨⟩⟩ := Parser.map_eq_ok.mp h
    exact fun ts => hp ts _ _ _ hd
  cases i with
  | function =>
    obtain ⟨d', hd, ⟨⟩⟩ := Parser.map_eq_ok.mp ho
    exact hbefore.trans (Parser.types_of_function hd) fun ts _ _ hus => hus.prepend ts
  | enumeration => exact typeless (lift (Parser.typeless_enumeration pre) ho)
  | constant => exact typeless (lift (Parser.typeless_constant _ pre) ho)
  | struct =>
    obtain ⟨⟨d', mid⟩, hd, ⟨⟩⟩ := Attempt.outcome_map_eq_ok.mp ho
    exact hbefore.trans (types_of_structItem hd) fun ts _ _ hus => hus.prepend ts
  | module => exact absurd rfl (Parser.yields_module _ pre _ _ _ ho d)
  | _ => obtain ⟨_, -, ⟨⟩⟩ := Parser.map_eq_ok.mp ho

/-- **The types in the arena of a text** stand on stretches of its tokens. -/
theorem typesOn_of_mem (he : e ∈ (parse (scan text)).arena.entries) :
    TypesOn e.decl (significant (scan text)) := by
  by_cases hc : e.decl.shape.isContainer
  · -- modules, traits and implementations have no types of their own
    refine .of_none ?_ ?_ _
    · cases hd : e.decl.shape <;> simp_all [Declaration.signature?, Shape.isContainer]
    · intro g fs hd
      rw [hd] at hc
      cases hc
  · obtain ⟨byPlace, ls, rest, ⟨before, hbefore⟩, ho⟩ :=
      exists_opening_of_mem he (Bool.not_eq_true _ ▸ hc)
    obtain ⟨taken, rfl, htypes⟩ := types_of_opening ho
    rw [← Lexeme.map_token_ofTokens, ← hbefore, List.map_append, List.map_append]
    exact htypes.around _ _

end Arena

end KlarAudit

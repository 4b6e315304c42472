import KlarAudit.Proofs.Grammar.Written

/-!
# Every declaration is read

Each reader of the grammar is complete for what is written: in front of whatever may follow, it
reads the words of its production, records nothing, and gives what is meant but for places.

## Main results

* `reads_generics`, `reads_slots`, `reads_variants`, `reads_fields`: the lists in a declaration
* `reads_function`, `reads_enumeration`, `reads_constant`, `reads_structItem`: declarations without
  members
* `reads_whole`, `reads_head`: a declaration, whole or up to its members
-/

namespace KlarAudit

open Surface

variable {ws after : List Word} {w : Word}

namespace Parser

/-! ## Generic parameters and types -/

theorem reads_name (what : String) (n : Name) :
    Reads (expectName what) [n.1] after fun t => t.text = n.text :=
  reads_expectName what n.2

theorem reads_genericsIn_none {opener closer : String} (h : headIs opener after = false) :
    Reads (genericsIn opener closer) [] after (· = none) := by
  refine (reads_accept_none h).absent ?_
  exact reads_pure rfl

theorem reads_genericsIn (g : GenericList) :
    Reads (genericsIn g.opener.text g.closer.text) g.words after (· = some g.generics) := by
  have hphrase := phrase_commas GenericParam.phrase g.params
  have hsub : [g.closer.text] ⊆ [")", "]", ">"] := by
    cases hs : g.isSquare <;> simp [GenericList.closer, hs, Mark.text]
  have hstop : g.closer.word.token.stops [g.closer.text] := by
    cases hs : g.isSquare <;> simp [GenericList.closer, hs] <;> decide
  refine (reads_accept g.opener).word ?_
  rintro _ ⟨t, rfl⟩
  exact (reads_collect_phrase hphrase hsub hstop).bind fun run hrun =>
    (reads_expect g.closer).word fun _ _ =>
      reads_pure (by rw [← genericsOfRun_eq hrun, genericsOfRun_commas])

/-- **Generic parameters** are read, or found missing. -/
theorem reads_generics (gs : Option GenericList) (hangle : headIs "<" after = false)
    (hsquare : headIs "[" after = false) :
    Reads generics ((gs.map GenericList.words).getD []) after
      (· = (gs.map GenericList.generics).getD {}) := by
  cases gs with
  | none =>
    refine (reads_genericsIn_none hangle).absent ?_
    refine (reads_genericsIn_none hsquare).absent ?_
    exact reads_pure rfl
  | some g =>
    obtain ⟨isSquare, params⟩ := g
    cases isSquare with
    | false =>
      refine (reads_genericsIn ⟨false, params⟩).last ?_
      rintro _ rfl
      exact reads_pure rfl
    | true =>
      refine (reads_genericsIn_none rfl).absent ((reads_genericsIn ⟨true, params⟩).last ?_)
      rintro _ rfl
      exact reads_pure rfl

theorem reads_whereBounds_none (h : headIs "where" after = false) :
    Reads whereBounds [] after (· = []) := by
  refine (reads_accept_none h).absent ?_
  exact reads_pure rfl

/-- **A type behind a mark** is read, or found missing. -/
theorem reads_typeAfter (m : Mark) (type : Option TypeRun) {terminators : List String}
    (hsub : terminators ⊆ separators) (hstop : w.token.stops terminators)
    (hm : w.token.is m.text = false) :
    Reads (typeAfter m.text terminators) (typed m type) (w :: after)
      (· = type.map TypeRun.text) := by
  cases type with
  | none =>
    have hhead : headIs m.text (w :: after) = false := hm
    refine (reads_accept_none hhead).absent ?_
    exact reads_pure rfl
  | some type =>
    refine (reads_accept m).word ?_
    rintro _ ⟨t, rfl⟩
    refine (reads_collect_phrase type.phrase hsub hstop).last fun run hrun => ?_
    exact reads_pure (by rw [← Likeness.render_eq hrun]; rfl)

/-! ## Functions -/

/-- One slot, up to the mark behind it. -/
theorem exists_slots_run (s : Surface.Slot) {ls : List Lexeme}
    (hstop : w.token.stops [")", ","]) (hs : Spelled (s.words ++ w :: after) ls) :
    ∃ left here, Spelled (w :: after) left ∧ here.map Slot.bare = [s.slot] ∧
      slots ls =
        if nextIs "," left then (slots left.tail).map fun (more, ls) => (here ++ more, ls)
        else (expect ")" left).map fun (_, ls) => (here, ls) := by
  obtain ⟨run, left, hcollect, hleft, hrun⟩ :=
    reads_collect_phrase (s.phrase.mono (by decide)) (by decide : [")", ","] ⊆ ends) hstop ls hs
  obtain ⟨here, hhere, hbare, -⟩ := slotsOfRun_counterpart hrun (slotsOfRun_words s)
  have hnext : ¬ nextIs ")" ls := by
    obtain ⟨v, vs, hvs⟩ := List.exists_cons_of_ne_nil s.words_ne_nil
    have hphrase := s.phrase
    rw [hvs, List.map_cons] at hphrase
    rw [hvs] at hs
    exact hs.not_nextIs (hphrase.head_ne (by decide))
  refine ⟨left, here, hleft, ?_, slots_of_run hnext hcollect hhere⟩
  cases s <;> exact hbare.symm

/-- **A parameter list** is read. -/
theorem reads_slots (ss : List Surface.Slot) :
    Reads slots (commas (ss.map Slot.words) ++ [Mark.closeParen.word]) after
      fun r => r.map Slot.bare = ss.map Slot.slot := by
  intro ls hs
  rw [List.append_assoc, List.singleton_append] at hs
  induction ss generalizing ls with
  | nil =>
    obtain ⟨l, rest, rfl, hl, hrest, -⟩ := hs.exists_cons
    exact ⟨[], rest, slots_of_close (hs.nextIs_of_headIs rfl), hrest, rfl⟩
  | cons s ss ih =>
    -- whether a comma or the closing bracket comes next depends on the slots behind
    cases ss with
    | nil =>
      obtain ⟨left, here, hleft, hhere, hslots⟩ :=
        exists_slots_run s (w := Mark.closeParen.word) (by decide) (by simpa using hs)
      obtain ⟨t, rest, hexpect, hrest, -⟩ := reads_expect .closeParen left hleft
      refine ⟨here, rest, ?_, hrest, hhere⟩
      rw [hslots, if_neg (hleft.not_nextIs rfl),
        show expect ")" left = .ok (t, rest) from hexpect]
      rfl
    | cons s' ss =>
      obtain ⟨left, here, hleft, hhere, hslots⟩ :=
        exists_slots_run s (w := Mark.comma.word) (by decide) (by simpa using hs)
      obtain ⟨l, left, rfl, -, hmore, -⟩ := hleft.exists_cons
      obtain ⟨more, rest, hrec, hrest, hbare⟩ := ih left hmore
      refine ⟨here ++ more, rest, ?_, hrest, ?_⟩
      · rw [hslots, if_pos (hleft.nextIs_of_headIs rfl), List.tail_cons, hrec]
        rfl
      · dsimp only at hbare ⊢
        rw [List.map_append, hhere, hbare]
        rfl

/-- A body is read, or the semicolon in its place. -/
theorem reads_functionBody (name : String) (body : Option (Code [])) :
    Reads (functionBody name) (bodyWords body) after fun r => r.1.isSome = body.isSome := by
  cases body with
  | none =>
    refine (reads_group_none rfl).absent ((reads_accept .semicolon).last ?_)
    rintro _ ⟨t, rfl⟩
    exact reads_pure rfl
  | some code =>
    refine (reads_group (o := .openBrace) (c := .closeBrace) (d := .brace) rfl rfl
      code.wellNested).last ?_
    rintro _ ⟨g, rfl⟩
    exact reads_pure rfl

theorem params_slots (f : Surface.Function) {pick : Slot → Option Parameter}
    (hparam : ∀ p, pick (.param p) = some p) (hreceiver : ∀ r, pick (.receiver r) = none) :
    (f.slots.map Slot.slot).filterMap pick = f.signature.params := by
  have hnone : f.receiver.toList.filterMap (pick ∘ Slot.slot ∘ .receiver) = [] :=
    List.filterMap_eq_nil_iff.mpr fun _ _ => hreceiver _
  have hsome : pick ∘ Slot.slot ∘ .param =
      some ∘ fun p : Param => ⟨p.name.text, p.type.text, .start⟩ :=
    funext fun _ => hparam _
  rw [Function.slots, List.map_append, List.filterMap_append, List.map_map, List.filterMap_map,
    hnone, List.nil_append, List.map_map, List.filterMap_map, hsome, List.filterMap_eq_map]
  rfl

theorem receiver_slots (f : Surface.Function) {pick : Slot → Option String}
    (hparam : ∀ p, pick (.param p) = none) (hreceiver : ∀ r, pick (.receiver r) = some r) :
    ((f.slots.map Slot.slot).filterMap pick).getLast? = f.signature.receiver := by
  have hnone : f.params.filterMap (pick ∘ Slot.slot ∘ .param) = [] :=
    List.filterMap_eq_nil_iff.mpr fun _ _ => hparam _
  rw [Function.slots, List.map_append, List.filterMap_append, List.map_map, List.map_map,
    List.filterMap_map, List.filterMap_map, hnone, List.append_nil]
  cases hr : f.receiver <;> simp [Function.signature, hr, Slot.slot, hreceiver]

/-- **A function** is read. -/
theorem reads_function {pre : Preamble} (f : Surface.Function) (name : Name)
    (hpre : pre.isUnsafe = f.isUnsafe) :
    Reads (function pre) (Mark.kwFn.word :: name.1 :: f.words) after fun d =>
      d.bare = declaration (.function f.signature) name.text pre.isPublic := by
  have hreturns : Reads (typeAfter "->" [";", "where", "\x7b"]) (typed .arrow f.returns)
      (bodyWords f.body ++ after) (· = f.returns.map TypeRun.text) := by
    cases f.body <;> exact reads_typeAfter .arrow f.returns (by decide) (by decide) rfl
  have hwhere : headIs "where" (bodyWords f.body ++ after) = false := by
    cases f.body <;> rfl
  refine (reads_expect .kwFn).word fun _ _ => (reads_name _ name).word fun t ht =>
    (reads_generics f.generics rfl rfl).bind fun g hg => (reads_expect .openParen).word fun _ _ =>
      (reads_slots f.slots).bind fun ss hss => hreturns.bind fun type htype =>
        (reads_whereBounds_none hwhere).skip fun bounds hbounds =>
          (reads_functionBody t.text f.body).last ?_
  rintro ⟨body, stop⟩ hbody
  refine reads_pure ?_
  have hplace : body.map (fun _ => Span.nowhere) = f.body.map fun _ => Span.nowhere := by
    cases body <;> cases hf : f.body <;> simp_all
  have hgenerics : g.bounding bounds = f.signature.generics := by
    subst hg hbounds
    simp [Generics.bounding, Surface.Function.signature]
  simp only [Declaration.bare, Heading.bare, Shape.bare, Signature.bare]
  rw [filterMap_bare (by rintro (_ | _) <;> rfl), filterMap_of_bare (by rintro (_ | _) <;> rfl) ss,
    hss, params_slots f (fun _ => rfl) fun _ => rfl, receiver_slots f (fun _ => rfl) fun _ => rfl,
    hgenerics, hplace, htype, hpre, ht]
  rfl

/-! ## Enumerations and constants -/

theorem reads_attributes (hhash : headIs "#" after = false) (hat : headIs "@" after = false) :
    Reads attributes [] after fun _ => True := by
  have hnone : Reads oneAttribute [] after (· = false) := by
    refine (reads_accept_none hhash).absent ?_
    refine (reads_accept_none hat).absent ?_
    exact reads_pure rfl
  intro ls hs
  obtain ⟨_, rest, hone, hrest, rfl⟩ := hnone ls hs
  exact ⟨(), rest, attributes_of_false hone, hrest, trivial⟩

theorem reads_payload (payload : Payload) (hparen : headIs "(" after = false)
    (hbrace : headIs "\x7b" after = false) :
    Reads Parser.payload payload.words after fun _ => True := by
  cases payload with
  | none =>
    refine (reads_group_none hparen).absent ?_
    refine (reads_group_none hbrace).absent ?_
    exact reads_pure trivial
  | tuple code =>
    refine (reads_group (o := .openParen) (c := .closeParen) (d := .paren) rfl rfl
      code.wellNested).last ?_
    rintro _ ⟨g, rfl⟩
    exact reads_pure trivial
  | struct code =>
    refine (reads_group_none rfl).absent ?_
    exact (reads_group (o := .openBrace) (c := .closeBrace) (d := .brace) rfl rfl
      code.wellNested).last fun _ _ => reads_pure trivial

/-- **A value behind an equals sign** is read, or found missing. -/
theorem reads_valueBefore {terminators : List String} (value : Option (Code terminators))
    (hstop : w.token.stops terminators) (hw : w.token.is "=" = false) :
    Reads (valueBefore terminators) (valued value) (w :: after) fun _ => True := by
  cases value with
  | none =>
    have hhead : headIs "=" (w :: after) = false := hw
    refine (reads_accept_none hhead).absent ?_
    exact reads_pure trivial
  | some code =>
    refine (reads_accept .equals).word ?_
    rintro _ ⟨t, rfl⟩
    exact (reads_collect_clear code.wellNested code.clear hstop).mono fun _ _ => trivial

/-- A variant is read up to the mark behind it. -/
theorem reads_variant (v : EnumVariant) (hw : w = Mark.comma.word ∨ w = Mark.closeBrace.word) :
    Reads variant v.words (w :: after) fun r => r.bare = v.variant := by
  have hpayload : Reads Parser.payload v.payload.words (valued v.value ++ w :: after)
      fun _ => True := by
    cases v.value <;> rcases hw with rfl | rfl <;> exact reads_payload v.payload rfl rfl
  have hvalue : Reads (valueBefore [",", "\x7d"]) (valued v.value) (w :: after)
      fun _ => True := by
    rcases hw with rfl | rfl <;> exact reads_valueBefore v.value (by decide) rfl
  have hattributes : Reads attributes [] (v.words ++ w :: after) fun _ => True :=
    reads_attributes (v.name.is_eq _) (v.name.is_eq _)
  refine hattributes.skip fun _ _ => (reads_name _ v.name).word fun t ht =>
    hpayload.bind fun _ _ => hvalue.last fun _ _ => reads_pure ?_
  rw [Variant.bare, ht]
  rfl

/-- **The variants of an enumeration** are read. -/
theorem reads_variants (first : Token) (vs : List EnumVariant) :
    Reads (variants first) (commas (vs.map EnumVariant.words) ++ [Mark.closeBrace.word]) after
      fun r => r.1.map Variant.bare = vs.map EnumVariant.variant := by
  intro ls hs
  rw [List.append_assoc, List.singleton_append] at hs
  induction vs generalizing ls with
  | nil =>
    obtain ⟨l, rest, rfl, hl, hrest, -⟩ := hs.exists_cons
    exact ⟨([], l.token), rest, variants_of_close (hs.nextIs_of_headIs rfl), hrest, rfl⟩
  | cons v vs ih =>
    have hnext : ¬ nextIs "\x7d" ls := by
      cases vs <;> exact hs.not_nextIs (v.name.is_eq _)
    obtain ⟨l, tail, rfl⟩ := hs.exists_of_ne_nil (by simp)
    cases vs with
    | nil =>
      obtain ⟨x, left, hx, hleft, hbare⟩ :=
        reads_variant v (.inr rfl) (l :: tail) (by simpa using hs)
      obtain ⟨t, rest, hexpect, hrest, -⟩ := reads_expect .closeBrace left hleft
      refine ⟨([x], t), rest, ?_, hrest, congrArg (fun x => [x]) hbare⟩
      rw [variants_of_variant hnext hx, if_neg (hleft.not_nextIs rfl),
        show expect "\x7d" left = .ok (t, rest) from hexpect]
      rfl
    | cons v' vs =>
      obtain ⟨x, left, hx, hleft, hbare⟩ :=
        reads_variant v (.inl rfl) (l :: tail) (by simpa using hs)
      obtain ⟨m, left, rfl, -, hmore, -⟩ := hleft.exists_cons
      obtain ⟨⟨xs, t⟩, rest, hrec, hrest, hbares⟩ := ih left hmore
      refine ⟨(x :: xs, t), rest, ?_, hrest, ?_⟩
      · rw [variants_of_variant hnext hx, if_pos (hleft.nextIs_of_headIs rfl), List.tail_cons,
          hrec]
        rfl
      · dsimp only at hbares ⊢
        rw [List.map_cons, hbare, hbares]
        rfl

/-- **An enumeration** is read. -/
theorem reads_enumeration (pre : Preamble) (name : Name) (vs : List EnumVariant) :
    Reads (enumeration pre) (Mark.kwEnum.word :: name.1 :: (Kind.enum vs).words) after fun d =>
      d.bare = declaration (Kind.enum vs).shape name.text pre.isPublic := by
  refine (reads_expect .kwEnum).word fun _ _ => (reads_name _ name).word fun t ht =>
    (reads_generics none rfl rfl).absent ((reads_whereBounds_none rfl).absent
      ((reads_expect .openBrace).word fun _ _ => (reads_variants pre.first vs).last ?_))
  rintro ⟨xs, close⟩ hxs
  refine reads_pure ?_
  simp only [Declaration.bare, Heading.bare, Shape.bare]
  rw [hxs, ht]
  rfl

/-- **A constant** is read. -/
theorem reads_constant (pre : Preamble) (name : Name) (isStatic : Bool) (type : TypeRun)
    (init : Code [";"]) {keyword : String}
    (hk : keyword = (Kind.const isStatic type init).keyword.text) :
    Reads (constant keyword pre)
      ((Kind.const isStatic type init).keyword.word :: name.1 ::
        (Kind.const isStatic type init).words) after fun d =>
      d.bare = declaration (Kind.const isStatic type init).shape name.text pre.isPublic := by
  subst hk
  have hmut : headIs "mut" (name.1 :: ((Kind.const isStatic type init).words ++ after)) = false :=
    name.is_eq _
  have htype : Reads (typeAfter ":" [";", "="]) (typed .colon (some type))
      ((valued (some init) ++ [Mark.semicolon.word]) ++ after) (· = some type.text) :=
    reads_typeAfter .colon (some type) (by decide) (by decide) rfl
  have hinit : Reads (valueBefore [";"]) (valued (some init)) ([Mark.semicolon.word] ++ after)
      fun _ => True :=
    reads_valueBefore (some init) (by decide) rfl
  refine (reads_expect _).word fun _ _ => (reads_accept_none hmut).skip fun _ _ =>
    (reads_name _ name).word fun t ht => htype.bind fun found hfound => hinit.bind fun _ _ =>
      (reads_expect .semicolon).word fun _ _ => reads_pure ?_
  simp only [Declaration.bare, Heading.bare, Shape.bare]
  rw [hfound, ht]
  cases isStatic <;> rfl

/-! ## Structures -/

/-- A mark is accepted, or found missing. -/
theorem reads_marked (m : Mark) (isThere : Bool) (h : headIs m.text after = false) :
    Reads (accept m.text) (marked isThere m) after fun t => t.isSome = isThere := by
  cases isThere with
  | false => exact (reads_accept_none h).mono fun t ht => by rw [ht]; rfl
  | true => exact (reads_accept m).mono fun _ ⟨_, ht⟩ => by rw [ht]; rfl

theorem reads_fieldType (name : Token) (isPublic : Bool) (type : TypeRun)
    (hstop : w.token.stops [",", "\x7d"]) :
    Reads (fieldType name isPublic) type.words (w :: after) fun r =>
      r.1.bare = ⟨name.text, type.text, isPublic, .start, .nowhere⟩ ∧ r.2 = none := by
  intro ls hs
  obtain ⟨run, left, hcollect, hleft, hrun⟩ :=
    reads_collect_phrase type.phrase (by decide) hstop ls hs
  have hcolon : Run.colon? run = none := by
    rw [← Likeness.colon?_eq hrun, type.colon?_eq_none]
  have htext : Run.render run = type.text := (Likeness.render_eq hrun).symm
  have hne : run ≠ [] := by
    rintro rfl
    exact type.ne_nil (List.map_eq_nil_iff.mp (List.forall₂_nil_right_iff.mp hrun))
  obtain ⟨t, ts, rfl⟩ := List.exists_cons_of_ne_nil hne
  refine ⟨_, left, fieldType_of_whole hcollect hcolon, hleft, ?_, rfl⟩
  simp only [Field.bare, namedField, htext]

/-- A field with a name is read up to the mark behind it. -/
theorem reads_field (f : NamedField) (hstop : w.token.stops [",", "\x7d"]) :
    Reads field f.words (w :: after) fun r => r.1.bare = f.field ∧ r.2 = none := by
  have hattributes : Reads attributes [] (f.words ++ w :: after) fun _ => True := by
    obtain ⟨isPublic, name, type⟩ := f
    cases isPublic
    · exact reads_attributes (name.is_eq _) (name.is_eq _)
    · exact reads_attributes rfl rfl
  have hmark : Reads (accept "pub") (marked f.isPublic .kwPub)
      ((f.name.1 :: Mark.colon.word :: f.type.words) ++ w :: after) (·.isSome = f.isPublic) :=
    reads_marked .kwPub f.isPublic (f.name.is_eq _)
  refine hattributes.skip fun _ _ => hmark.bind fun mark hpublic =>
    (reads_name _ f.name).word fun t ht => (reads_expect .colon).word fun _ _ =>
      (reads_fieldType t mark.isSome f.type hstop).mono fun r hr => ?_
  rw [hr.1, ht, hpublic]
  exact ⟨rfl, hr.2⟩

/-- The fields of a structure without field names are read. -/
theorem reads_tupleBody (fields : List BareField) :
    Reads tupleBody (Struct.tuple fields).words after fun r =>
      r.1.map Field.bare = (Struct.tuple fields).fields := by
  have hrun : Reads (collect [")"] true) (commas (fields.map BareField.words))
      ([Mark.closeParen.word, Mark.semicolon.word] ++ after)
      (Spells (commas (fields.map BareField.words))) :=
    reads_collect_phrase (phrase_commas BareField.phrase fields) (by decide) (by decide)
  refine (reads_accept .openParen).word ?_
  rintro _ ⟨t, rfl⟩
  refine hrun.bind fun run hrun => (reads_expect .closeParen).word fun _ _ =>
    (reads_expect .semicolon).word fun _ _ => reads_pure ?_
  rw [← (tupleFields_agree hrun).1, tupleFields_commas]

theorem reads_unitBody : Reads tupleBody Struct.unit.words after fun r => r.1 = [] :=
  (reads_accept_none rfl).absent ((reads_expect .semicolon).word fun _ _ => reads_pure rfl)

theorem reads_structHeading (name : Name) (hangle : headIs "<" after = false)
    (hsquare : headIs "[" after = false) (hwhere : headIs "where" after = false) :
    Reads structHeading [Mark.kwStruct.word, name.1] after
      fun r => r.1.text = name.text ∧ r.2 = {} :=
  (reads_expect .kwStruct).word fun _ _ => (reads_name _ name).word fun _ ht =>
    (reads_generics none hangle hsquare).absent
      ((reads_whereBounds_none hwhere).absent (reads_pure ⟨ht, rfl⟩))

end Parser

open KlarAudit.Parser

/-- What a field reads is followed by the fields behind the comma. -/
theorem fields_of_reads_field (first : Token) {f : NamedField} {ls : List Lexeme}
    (hstop : w.token.stops [",", "\x7d"]) (hs : Spelled (f.words ++ w :: after) ls) :
    ∃ x left, Spelled (w :: after) left ∧ x.bare = f.field ∧ fields first ls =
      ⟨(fields first (afterComma left)).issues,
        (fields first (afterComma left)).outcome.map fun r => ((x :: r.1.1, r.1.2), r.2)⟩ := by
  obtain ⟨⟨x, following⟩, left, hfield, hleft, hbare, rfl⟩ := reads_field f hstop ls hs
  have hnext : ¬ nextIs "\x7d" ls := by
    obtain ⟨isPublic, name, type⟩ := f
    cases isPublic
    · exact hs.not_nextIs (name.is_eq _)
    · exact hs.not_nextIs rfl
  obtain ⟨l, tail, rfl⟩ := hs.exists_of_ne_nil (by simp)
  exact ⟨x, left, hleft, hbare, fields_of_field hnext hfield⟩

/-- **The fields of a structure** are read. -/
theorem reads_fields (first : Token) (fs : List NamedField) :
    Attempt.Reads (fields first) (commas (fs.map NamedField.words) ++ [Mark.closeBrace.word]) after
      fun r => r.1.map Field.bare = fs.map NamedField.field := by
  intro ls hs
  rw [List.append_assoc, List.singleton_append] at hs
  induction fs generalizing ls with
  | nil =>
    obtain ⟨l, rest, rfl, hl, hrest, -⟩ := hs.exists_cons
    exact ⟨([], l.token), rest, fields_of_close (hs.nextIs_of_headIs rfl), hrest, rfl⟩
  | cons f fs ih =>
    cases fs with
    | nil =>
      obtain ⟨x, left, hleft, hbare, hfields⟩ :=
        fields_of_reads_field first (w := Mark.closeBrace.word) (by decide) (by simpa using hs)
      obtain ⟨l, rest, rfl, -, hrest, -⟩ := hleft.exists_cons
      have hclose : fields first (l :: rest) = pure (([], l.token), rest) :=
        fields_of_close (hleft.nextIs_of_headIs rfl)
      refine ⟨([x], l.token), rest, ?_, hrest, congrArg (fun x => [x]) hbare⟩
      rw [hfields, afterComma, if_neg (hleft.not_nextIs rfl), hclose]
      rfl
    | cons f' fs =>
      obtain ⟨x, left, hleft, hbare, hfields⟩ :=
        fields_of_reads_field first (w := Mark.comma.word) (by decide) (by simpa using hs)
      obtain ⟨l, left, rfl, -, hmore, -⟩ := hleft.exists_cons
      obtain ⟨⟨xs, t⟩, rest, hrec, hrest, hbares⟩ := ih left hmore
      refine ⟨(x :: xs, t), rest, ?_, hrest, ?_⟩
      · rw [hfields, afterComma, if_pos (hleft.nextIs_of_headIs rfl), List.tail_cons, hrec]
        rfl
      · dsimp only at hbares ⊢
        rw [List.map_cons, hbare, hbares]
        rfl

/-- **What stands behind the name of a structure** is read. -/
theorem reads_structBody (first : Token) (s : Struct) :
    Attempt.Reads (structBody first) s.words after fun r => r.1.map Field.bare = s.fields := by
  intro ls hs
  cases s with
  | named fs =>
    obtain ⟨l, rest, rfl, -, hrest, -⟩ := hs.exists_cons
    obtain ⟨r, left, hr, hleft, hbare⟩ := reads_fields first fs rest hrest
    refine ⟨r, left, ?_, hleft, hbare⟩
    rw [structBody, if_pos (hs.nextIs_of_headIs rfl), List.tail_cons, hr]
  | tuple fs =>
    obtain ⟨r, left, hr, hleft, hbare⟩ := Attempt.reads_ofParser (reads_tupleBody fs) ls hs
    exact ⟨r, left, by rw [structBody, if_neg (hs.not_nextIs rfl), hr], hleft, hbare⟩
  | unit =>
    obtain ⟨r, left, hr, hleft, hnil⟩ := Attempt.reads_ofParser reads_unitBody ls hs
    refine ⟨r, left, by rw [structBody, if_neg (hs.not_nextIs rfl), hr], hleft, ?_⟩
    exact congrArg (List.map Field.bare) hnil

/-- **A structure** is read. -/
theorem reads_structItem (pre : Preamble) (name : Name) (s : Struct) :
    Attempt.Reads (structItem pre) (Mark.kwStruct.word :: name.1 :: s.words) after fun d =>
      d.bare = declaration (Kind.struct s).shape name.text pre.isPublic := by
  have hheading : Reads structHeading [Mark.kwStruct.word, name.1] (s.words ++ after)
      fun r => r.1.text = name.text ∧ r.2 = {} := by
    cases s <;> exact reads_structHeading name rfl rfl rfl
  intro ls hs
  obtain ⟨⟨t, g⟩, mid, hh, hmid, ht, hg⟩ := hheading ls hs
  obtain ⟨⟨fs, close⟩, rest, hb, hrest, hfs⟩ := reads_structBody pre.first s mid hmid
  refine ⟨structDeclaration pre t g fs close, rest, structItem_of_body hh hb, hrest, ?_⟩
  dsimp only at ht hg hfs
  simp only [structDeclaration, Declaration.bare, Heading.bare, Shape.bare]
  rw [hfs, ht, hg]
  rfl

/-! ## Declarations with members -/

namespace Parser

/-- **A trait** is read up to its members. -/
theorem reads_trait (pre : Preamble) (name : Name) :
    Reads (trait pre) [Mark.kwTrait.word, name.1, Mark.openBrace.word] after fun b =>
      (⟨b.heading.bare, .nowhere⟩ : Declaration) =
        declaration (.trait {}) name.text pre.isPublic ∧ b.publicMembers = pre.isPublic := by
  have htype : Reads (typeAfter ":" ["where", "\x7b"]) [] ([Mark.openBrace.word] ++ after)
      (· = none) :=
    reads_typeAfter .colon none (by decide) (by decide) rfl
  refine (reads_expect .kwTrait).word fun _ _ => (reads_name _ name).word fun t ht =>
    (reads_generics none rfl rfl).absent (htype.absent ((reads_whereBounds_none rfl).absent
      ((reads_expect .openBrace).word fun _ _ => reads_pure ⟨?_, rfl⟩)))
  simp only [Heading.bare, Shape.bare]
  rw [ht]
  rfl

/-- **A module** is read up to its members. -/
theorem reads_module (pre : Preamble) (name : Name) {keyword : String} (hk : keyword = "mod") :
    Reads (module keyword pre) [Mark.kwMod.word, name.1, Mark.openBrace.word] after fun o =>
      ∃ b, o = .block b ∧ (⟨b.heading.bare, .nowhere⟩ : Declaration) =
        declaration .module name.text pre.isPublic ∧ b.publicMembers = false := by
  subst hk
  have hbody : Reads (accept ";") [] ([Mark.openBrace.word] ++ after) (· = none) :=
    reads_accept_none rfl
  refine (reads_expect .kwMod).word fun _ _ => (reads_name _ name).word fun t ht =>
    hbody.absent ((reads_expect .openBrace).word fun _ _ => reads_pure ⟨_, rfl, ?_, rfl⟩)
  simp only [Heading.bare, Shape.bare]
  rw [ht]
  rfl

/-- **The target of an implementation**, and its trait, are read. -/
theorem reads_implTarget (keyword : Token) (trait? : Option TypeRun) (target : TypeRun) :
    Reads (implTarget keyword) (implWords trait? target) (Mark.openBrace.word :: after)
      (· = (trait?.map TypeRun.text, target.text)) := by
  have hne : target.text.isEmpty = false := by
    rw [Bool.eq_false_iff, ne_eq, String.isEmpty_iff]
    exact target.text_ne
  -- both types are read with the same terminators, whatever mark ends them
  have hrun (type : TypeRun) (mark : Mark) (hm : mark = .kwFor ∨ mark = .openBrace)
      (ws : List Word) :
      Reads (collect ["for", "where", "\x7b"] true) type.words (mark.word :: ws)
        (Spells type.words) := by
    rcases hm with rfl | rfl <;> exact reads_collect_phrase type.phrase (by decide) (by decide)
  have hfor (target? : Option TypeRun) : Reads (typeAfter "for" ["where", "\x7b"])
      (typed .kwFor target?) (Mark.openBrace.word :: after) (· = target?.map TypeRun.text) :=
    reads_typeAfter .kwFor target? (by decide) (by decide) rfl
  cases trait? with
  | none =>
    refine (hrun target .openBrace (.inr rfl) after).last fun run hrun => (hfor none).absent ?_
    have htext : Run.render run = target.text := (Likeness.render_eq hrun).symm
    rw [htext]
    simp only [Option.map_none, implParts, hne, Bool.false_eq_true, if_false]
    exact reads_pure rfl
  | some subject =>
    refine (hrun subject .kwFor (.inl rfl) _).bind fun run hrun => (hfor (some target)).last ?_
    rintro _ rfl
    have htext : Run.render run = subject.text := (Likeness.render_eq hrun).symm
    rw [htext]
    simp only [Option.map_some, implParts, hne, Bool.false_eq_true, if_false]
    exact reads_pure rfl

/-- **An implementation** is read up to its members: a bracket of its type does not touch the
keyword. -/
theorem reads_impl (pre : Preamble) (trait? : Option TypeRun) (target : TypeRun) :
    Reads (impl pre) (Mark.kwImpl.word :: (implWords trait? target ++ [Mark.openBrace.word]))
      after fun b =>
        (⟨b.heading.bare, .nowhere⟩ : Declaration) =
          declaration (.impl {} target.text (trait?.map TypeRun.text))
            (implName (trait?.map TypeRun.text) target.text) false ∧
        b.publicMembers = false := by
  intro ls hs
  obtain ⟨l, rest, rfl, hl, hrest, hgap⟩ := hs.exists_cons
  have his : l.token.is "impl" := (Likeness.is_eq hl "impl").symm.trans rfl
  have hkeyword : expect "impl" (l :: rest) = .ok (l.token, rest) := by
    simp only [expect, if_pos his]
  have hgenerics : implGenerics l.token rest = .ok ({}, rest) := by
    -- the words are apart, so no bracket touches the keyword
    have hfar : rest.head?.any (fun m => m.token.start == l.token.stop &&
        ["<", "["].contains m.token.text) = false := by
      cases rest with
      | nil => rfl
      | cons m rest =>
        have hlt := hgap m List.mem_cons_self
        have hne : (m.token.start == l.token.stop) = false := beq_eq_false_iff_ne.mpr (by omega)
        rw [List.head?_cons, Option.any_some, hne, Bool.false_and]
    refine bind_eq_ok.mpr ⟨rest.head?, rest, rfl, ?_⟩
    rw [hfar]
    rfl
  change Spelled ((implWords trait? target ++ [Mark.openBrace.word]) ++ after) rest at hrest
  rw [List.append_assoc] at hrest
  obtain ⟨_, mid, htarget, hmid, rfl⟩ := reads_implTarget l.token trait? target rest hrest
  obtain ⟨_, mid, hwhere, hmid, rfl⟩ := reads_whereBounds_none rfl mid hmid
  obtain ⟨brace, left, hbrace, hleft, -⟩ := reads_expect .openBrace mid hmid
  refine ⟨_, left, bind_eq_ok.mpr ⟨_, _, hkeyword, bind_eq_ok.mpr ⟨_, _, hgenerics,
    bind_eq_ok.mpr ⟨_, _, htarget, bind_eq_ok.mpr ⟨_, _, hwhere,
      bind_eq_ok.mpr ⟨_, _, hbrace, rfl⟩⟩⟩⟩⟩, hleft, rfl, rfl⟩

/-! ## Preambles -/

theorem reads_visibility (byPlace isPublic : Bool) (hpub : headIs "pub" after = false)
    (hparen : headIs "(" after = false) :
    Reads (visibility byPlace) (marked isPublic .kwPub) after (· = (isPublic || byPlace)) := by
  refine (reads_marked .kwPub isPublic hpub).last fun t ht => ?_
  cases t with
  | none =>
    obtain rfl : isPublic = false := ht.symm
    exact reads_pure rfl
  | some t =>
    obtain rfl : isPublic = true := ht.symm
    exact (reads_group_none hparen).skip fun _ _ => reads_pure rfl

/-- The keywords that introduce a declaration are none of the words before them. -/
theorem is_of_introduces? {m : Mark} (h : m.word.token.introduces?.isSome) :
    ∀ s ∈ ["#", "@", "pub", "(", "unsafe"], m.word.token.is s = false := by
  revert h
  cases m <;> decide

/-- **A preamble** is read up to the keyword. -/
theorem reads_preamble (byPlace isPublic isUnsafe : Bool) (l : Lexeme) {m : Mark}
    (hm : m.word.token.introduces?.isSome) :
    Reads (preamble byPlace l) (marked isPublic .kwPub ++ marked isUnsafe .kwUnsafe)
      (m.word :: after) fun pre =>
        pre.isPublic = (isPublic || byPlace) ∧ pre.isUnsafe = isUnsafe := by
  have hm := is_of_introduces? hm
  have hattributes : Reads attributes [] ((marked isPublic .kwPub ++
      marked isUnsafe .kwUnsafe) ++ m.word :: after) fun _ => True := by
    cases isPublic <;> cases isUnsafe <;>
      first
        | exact reads_attributes rfl rfl
        | exact reads_attributes (hm "#" (by decide)) (hm "@" (by decide))
  have hpeek : Reads peek? [] ((marked isPublic .kwPub ++ marked isUnsafe .kwUnsafe) ++
      m.word :: after) fun _ => True :=
    fun ls hs => ⟨ls.head?, ls, rfl, hs, trivial⟩
  have hvisibility : Reads (visibility byPlace) (marked isPublic .kwPub)
      (marked isUnsafe .kwUnsafe ++ m.word :: after) (· = (isPublic || byPlace)) := by
    cases isUnsafe
    · exact reads_visibility _ _ (hm "pub" (by decide)) (hm "(" (by decide))
    · exact reads_visibility _ _ rfl rfl
  have hunsafe : Reads (accept "unsafe") (marked isUnsafe .kwUnsafe) (m.word :: after)
      (·.isSome = isUnsafe) :=
    reads_marked .kwUnsafe isUnsafe (hm "unsafe" (by decide))
  exact hattributes.skip fun _ _ => hpeek.skip fun _ _ => hvisibility.bind fun v hv =>
    hunsafe.last fun t ht => reads_pure ⟨hv, ht⟩

end Parser

/-! ## Any declaration -/

/-- **A declaration** is read when what its keyword introduces is read. -/
theorem reads_opening {R : Opening → Prop} (byPlace isPublic isUnsafe : Bool) {m : Mark}
    {i : Introducer} (hi : m.word.token.introduces? = some i)
    (h : ∀ pre t, pre.isPublic = (isPublic || byPlace) → pre.isUnsafe = isUnsafe →
      t.text = m.text → Attempt.Reads (i.open t pre) (m.word :: ws) after R) :
    Attempt.Reads (opening byPlace)
      ((marked isPublic .kwPub ++ marked isUnsafe .kwUnsafe) ++ m.word :: ws) after R := by
  intro ls hs
  obtain ⟨l, tail, rfl⟩ := hs.exists_of_ne_nil (by simp)
  rw [List.append_assoc] at hs
  obtain ⟨pre, mid, hp, hmid, hpublic, hunsafe⟩ :=
    reads_preamble byPlace isPublic isUnsafe l (by rw [hi]; rfl) _ hs
  obtain ⟨k, rest, rfl, hk, -⟩ := hmid.exists_cons
  obtain ⟨o, left, ho, hleft, hR⟩ := h pre k.token hpublic hunsafe
    (Likeness.writing.text_eq hk).symm _ hmid
  refine ⟨o, left, ?_, hleft, hR⟩
  have hintro : k.token.introduces? = some i := by
    rw [Token.introduces?, ← Likeness.writing.kind_eq hk, ← Likeness.writing.text_eq hk]
    exact hi
  have hopen : openAfter pre (k :: rest) = ⟨[], .ok (o, left)⟩ := by
    simp only [openAfter, hintro, ho]
  rw [opening_of_preamble hp, hopen]

/-- **A declaration without members** is read. -/
theorem reads_whole (byPlace : Bool) (v : Whole) :
    Attempt.Reads (opening byPlace) v.words after fun o =>
      ∃ d, o = .complete (some d) ∧ d.bare = v.declaration byPlace := by
  obtain ⟨isPublic, name, kind⟩ := v
  cases kind with
  | function f =>
    refine reads_opening (i := .function) byPlace isPublic f.isUnsafe rfl fun pre t hp hu _ => ?_
    refine Attempt.reads_map (reads_function f name hu) fun d hd => ⟨d, rfl, ?_⟩
    rw [hd, hp]
    rfl
  | struct s =>
    refine reads_opening (i := .struct) byPlace isPublic false rfl fun pre t hp _ _ ls hs => ?_
    obtain ⟨d, rest, hd, hrest, hbare⟩ := reads_structItem pre name s ls hs
    refine ⟨.complete (some d), rest, ?_, hrest, d, rfl, ?_⟩
    · simp only [Introducer.open, hd]
      rfl
    · rw [hbare, hp]
      rfl
  | enum vs =>
    refine reads_opening (i := .enumeration) byPlace isPublic false rfl fun pre t hp _ _ => ?_
    refine Attempt.reads_map (reads_enumeration pre name vs) fun d hd => ⟨d, rfl, ?_⟩
    rw [hd, hp]
    rfl
  | const isStatic type init =>
    have hi : (Kind.const isStatic type init).keyword.word.token.introduces? = some .constant := by
      cases isStatic <;> rfl
    refine reads_opening byPlace isPublic false hi fun pre t hp _ ht => ?_
    refine Attempt.reads_map (reads_constant pre name isStatic type init ht)
      fun d hd => ⟨d, rfl, ?_⟩
    rw [hd, hp]
    rfl

/-- **What stands before the members** of a declaration is read. -/
theorem reads_head (byPlace : Bool) (h : Head) :
    Attempt.Reads (opening byPlace) h.words after fun o =>
      ∃ b, o = .block b ∧ (⟨b.heading.bare, .nowhere⟩ : Declaration) = h.declaration byPlace ∧
        b.publicMembers = h.publicMembers byPlace := by
  cases h with
  | module isPublic name =>
    rw [Head.words, ← List.append_nil (marked isPublic .kwPub)]
    refine reads_opening (i := .module) byPlace isPublic false rfl fun pre t hp _ ht => ?_
    rw [Head.declaration, ← hp]
    exact Attempt.reads_ofParser (reads_module pre name ht)
  | trait isPublic name =>
    rw [Head.words, ← List.append_nil (marked isPublic .kwPub)]
    refine reads_opening (i := .trait) byPlace isPublic false rfl fun pre t hp _ _ => ?_
    refine Attempt.reads_map (reads_trait pre name) fun b hb => ⟨b, rfl, ?_⟩
    rw [hp] at hb
    exact hb
  | impl trait? target =>
    refine reads_opening (i := .impl) byPlace false false rfl fun pre t _ _ _ => ?_
    exact Attempt.reads_map (reads_impl pre trait? target) fun b hb => ⟨b, rfl, hb⟩

end KlarAudit

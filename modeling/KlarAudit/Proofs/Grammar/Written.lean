import KlarAudit.Proofs.Grammar.Rendering
import KlarAudit.Proofs.Grammar.Surface

/-!
# What is written is taken apart again

The runs of a parameter list, of generic parameters and of fields without names are taken apart as
they were put together: cut at the commas between the parts and divided at the colon of each.

## Main results

* `genericsOfRun_commas`, `slotsOfRun_words`, `tupleFields_commas`: the three kinds of lists
-/

namespace KlarAudit.Surface

open KlarAudit.Parser

variable {more : List String} {ws : List Word}

/-! ## The words of the grammar as phrases -/

/-- The words that end a part of a list. -/
def ends : List String :=
  [",", ")", "]", ">"]

theorem Name.stops_eq (n : Name) (terminators : List String) :
    n.1.token.stops terminators = false := by
  rw [Token.stops, Word.token, n.2]
  rfl

theorem Name.is_eq (n : Name) (s : String) : n.1.token.is s = false := by
  rw [Token.is, Word.token, n.2]
  exact Bool.and_false _

theorem Name.isFlat (n : Name) : n.1.token.isFlat := by
  simp [Token.isFlat_iff, Token.opens?, Token.closes?, Token.isOperator, Word.token, n.2]

theorem Name.text_ne_self (n : Name) : n.text ≠ "self" := by
  intro h
  have hkind := Word.kind_eq_of_text (v := n.1) (w := Mark.kwSelf.word) h
  rw [n.2] at hkind
  cases hkind

theorem phrase_marked {m : Mark} (b : Bool) (hf : m.word.token.isFlat)
    (hm : m.word.token.stops more = false) (h : Phrase more (ws.map Word.token)) :
    Phrase more ((marked b m ++ ws).map Word.token) := by
  cases b with
  | false => exact h
  | true => exact .token hf hm h

theorem phrase_typed (type : Option TypeRun) :
    Phrase ends ((typed .colon type).map Word.token) := by
  cases type with
  | none => exact .nil
  | some type => exact .token (by decide) (by decide) (type.phrase.mono (by decide))

theorem GenericParam.phrase (p : GenericParam) : Phrase ends (p.words.map Word.token) :=
  .token p.name.isFlat (p.name.stops_eq _) (phrase_typed p.bound)

theorem Slot.phrase (s : Slot) : Phrase ends (s.words.map Word.token) := by
  cases s with
  | receiver r =>
    refine phrase_marked _ (by decide) (by decide) (phrase_marked _ (by decide) (by decide) ?_)
    exact .token (by decide) (by decide) (phrase_typed r.type)
  | param p =>
    refine phrase_marked _ (by decide) (by decide) ?_
    exact .token p.name.isFlat (p.name.stops_eq _) (phrase_typed (some p.type))

theorem BareField.phrase (f : BareField) : Phrase ends (f.words.map Word.token) :=
  phrase_marked _ (by decide) (by decide) (f.type.phrase.mono (by decide))

/-! ## Lists -/

theorem map_commas (parts : List (List Word)) : (commas parts).map Word.token =
    [Mark.comma.word.token].intercalate (parts.map (·.map Word.token)) := by
  induction parts with
  | nil => rfl
  | cons ws parts ih =>
    cases parts with
    | nil => simp
    | cons vs parts =>
      rw [commas_cons_cons, List.map_append, List.map_cons, ih, List.map_cons, List.map_cons,
        List.map_cons, List.intercalate_cons_cons, List.append_assoc, List.singleton_append]

section Commas

variable {α : Type} {f : α → List Word} (hf : ∀ a, Phrase ends ((f a).map Word.token))

include hf

/-- A list is a phrase, too, for what ends it but no part of it. -/
theorem phrase_commas (as : List α) :
    Phrase [")", "]", ">"] ((commas (as.map f)).map Word.token) := by
  induction as with
  | nil => exact .nil
  | cons a as ih =>
    have ha : Phrase [")", "]", ">"] ((f a).map Word.token) := (hf a).mono (by decide)
    cases as with
    | nil => simpa using ha
    | cons b as =>
      rw [List.map_cons, List.map_cons, commas_cons_cons, List.map_append]
      exact ha.append (.token (by decide) (by decide) ih)

/-- A list is cut into the parts it was made of. -/
theorem splitCommas_commas {as : List α} (hne : as ≠ []) :
    Run.splitCommas ((commas (as.map f)).map Word.token) =
      as.map fun a => (f a).map Word.token := by
  have hphrase : ∀ ts ∈ as.map (List.map Word.token ∘ f), Phrase ends ts := by
    intro ts hts
    obtain ⟨a, -, rfl⟩ := List.mem_map.mp hts
    exact hf a
  rw [map_commas, List.map_map]
  exact splitCommas_intercalate (by decide) hphrase (by decide) (by simpa using hne)

/-- The same for a list that may be empty, whose parts are not. -/
theorem filter_splitCommas (hne : ∀ a, f a ≠ []) (as : List α) :
    (Run.splitCommas ((commas (as.map f)).map Word.token)).filter (!·.isEmpty) =
      as.map fun a => (f a).map Word.token := by
  cases as with
  | nil => rfl
  | cons a as =>
    rw [splitCommas_commas hf (List.cons_ne_nil a as), List.filter_eq_self]
    intro ts hts
    obtain ⟨b, -, rfl⟩ := List.mem_map.mp hts
    simpa using hne b

end Commas

/-- The colon in front of a type is the first one. -/
theorem colon?_typed (h : Phrase more (ws.map Word.token)) (hm : ":" ∈ more)
    (type : Option TypeRun) : Run.colon? ((ws ++ typed .colon type).map Word.token) =
      type.map fun _ => ws.length := by
  rw [List.map_append, Run.colon?, colonFrom?_phrase h fun _ => hm]
  cases type with
  | none => rfl
  | some type =>
    have hcolon : Mark.colon.word.token.isOperator ":" := by decide
    simp [typed, Run.colonFrom?, hcolon]

theorem TypeRun.colon?_eq_none (type : TypeRun) :
    Run.colon? (type.words.map Word.token) = none := by
  have hcolon := colon?_typed type.phrase (by decide) none
  rwa [typed, List.append_nil] at hcolon

/-! ## Generic parameters -/

theorem GenericParam.colon?_isSome (p : GenericParam) :
    (Run.colon? (p.words.map Word.token)).isSome = p.bound.isSome := by
  have h : Phrase [":"] ([p.name.1].map Word.token) :=
    .token p.name.isFlat (p.name.stops_eq _) .nil
  have hcolon := colon?_typed h (List.mem_singleton_self _) p.bound
  rw [GenericParam.words, ← List.singleton_append, hcolon, Option.isSome_map]

/-- **Generic parameters** are taken apart again. -/
theorem genericsOfRun_commas (g : GenericList) :
    genericsOfRun ((commas (g.params.map GenericParam.words)).map Word.token) = g.generics := by
  rw [genericsOfRun, filter_splitCommas GenericParam.phrase fun p => List.cons_ne_nil _ _,
    GenericList.generics]
  congr 1
  · rw [List.filterMap_map]
    exact congrFun (List.filterMap_eq_map (f := fun p : GenericParam => p.name.text)) g.params
  · rw [List.filter_map, List.map_map]
    congr 1
    exact List.filter_congr fun p _ => p.colon?_isSome

/-! ## Parameter lists -/

/-- A run that names `self` before its colon. -/
theorem namesSelf_of_mem {ts us : List Token} {t : Token} (ht : t ∈ ts) (htext : t.text = "self")
    (hc : Run.colon? (ts ++ us) = none ∨ Run.colon? (ts ++ us) = some ts.length) :
    Run.namesSelf (ts ++ us) := by
  cases hi : ts.findIdx? (·.text == "self") with
  | none => exact absurd (List.findIdx?_eq_none_iff.mp hi t ht) (by simp [htext])
  | some i =>
    have hlt : i < ts.length := (List.findIdx?_eq_some_iff_getElem.mp hi).1
    rw [Run.namesSelf, List.findIdx?_append, hi]
    rcases hc with hc | hc <;> simp [hc, hlt]

/-- A run that does not name `self` before its colon. -/
theorem namesSelf_of_notMem {ts us : List Token} (h : ∀ t ∈ ts, t.text ≠ "self")
    (hc : Run.colon? (ts ++ us) = some ts.length) : Run.namesSelf (ts ++ us) = false := by
  have hnone : ts.findIdx? (·.text == "self") = none :=
    List.findIdx?_eq_none_iff.mpr fun t ht => by simpa using h t ht
  rw [Run.namesSelf, List.findIdx?_append, hnone, hc, Option.none_or]
  cases us.findIdx? (·.text == "self") <;> simp

theorem namesSelf_receiver (r : Receiver) : Run.namesSelf (r.words.map Word.token) := by
  have hwords : r.words = (marked r.isRef .amp ++ (marked r.isMut .kwMut ++ [Mark.kwSelf.word])) ++
      typed .colon r.type := by
    simp [Receiver.words]
  have hphrase : Phrase [":"] ((marked r.isRef .amp ++ (marked r.isMut .kwMut ++
      [Mark.kwSelf.word])).map Word.token) :=
    phrase_marked _ (by decide) (by decide) (phrase_marked _ (by decide) (by decide)
      (.token (by decide) (by decide) .nil))
  have hcolon := colon?_typed hphrase (List.mem_singleton_self _) r.type
  rw [hwords]
  rw [List.map_append] at hcolon ⊢
  refine namesSelf_of_mem (t := Mark.kwSelf.word.token) (by simp) rfl ?_
  rw [hcolon, List.length_map]
  cases r.type with
  | none => exact .inl rfl
  | some _ => exact .inr rfl

theorem colon?_param (p : Param) : Run.colon? (p.words.map Word.token) =
    some (marked p.isMut .kwMut ++ [p.name.1]).length := by
  have hwords : p.words = (marked p.isMut .kwMut ++ [p.name.1]) ++ typed .colon (some p.type) := by
    simp [Param.words, typed]
  have hphrase : Phrase [":"] ((marked p.isMut .kwMut ++ [p.name.1]).map Word.token) :=
    phrase_marked _ (by decide) (by decide) (.token p.name.isFlat (p.name.stops_eq _) .nil)
  rw [hwords, colon?_typed hphrase (List.mem_singleton_self _)]
  rfl

theorem namesSelf_param (p : Param) : Run.namesSelf (p.words.map Word.token) = false := by
  have hwords : p.words.map Word.token = (marked p.isMut .kwMut ++ [p.name.1]).map Word.token ++
      (typed .colon (some p.type)).map Word.token := by
    simp [Param.words, typed]
  have hcolon := colon?_param p
  rw [hwords] at hcolon ⊢
  refine namesSelf_of_notMem (fun t ht => ?_) (by rw [hcolon, List.length_map])
  -- neither the mark nor the name is `self`
  obtain ⟨w, hw, rfl⟩ := List.mem_map.mp ht
  rcases List.mem_append.mp hw with hw | hw
  · obtain ⟨-, rfl⟩ : p.isMut = true ∧ w = Mark.kwMut.word := by
      cases hm : p.isMut <;> simp_all [marked]
    decide
  · obtain rfl := List.mem_singleton.mp hw
    exact p.name.text_ne_self

theorem slotsOfRun_receiver (r : Receiver) :
    slotsOfRun (r.words.map Word.token) = .ok [.receiver (render r.words)] := by
  have hself := namesSelf_receiver r
  have hne : r.words.map Word.token ≠ [] := by simp [Receiver.words]
  obtain ⟨t, ts, hrun⟩ := List.exists_cons_of_ne_nil hne
  rw [render]
  rw [hrun] at hself ⊢
  rw [slotsOfRun, slotOfRun_eq, if_pos hself]
  rfl

theorem slotsOfRun_param (p : Param) : slotsOfRun (p.words.map Word.token) =
    .ok [.param ⟨p.name.text, p.type.text, .start⟩] := by
  have hself := namesSelf_param p
  have hcolon := colon?_param p
  have hname : p.name.1.token.kind = .identifier := p.name.2
  have hmut : Mark.kwMut.word.token.kind = .keyword := rfl
  obtain ⟨isMut, name, type⟩ := p
  cases isMut with
  | false =>
    have hrun : (Param.mk false name type).words.map Word.token =
        name.1.token :: Mark.colon.word.token :: type.words.map Word.token := rfl
    rw [hrun] at hself hcolon ⊢
    rw [slotsOfRun, slotOfRun_eq, if_neg (by rw [hself]; decide), hcolon]
    simp only [marked, Bool.false_eq_true, if_false, List.nil_append, List.length_singleton,
      List.take_succ_cons, List.take_zero, List.filter_cons, hname, List.filter_nil]
    rfl
  | true =>
    have hrun : (Param.mk true name type).words.map Word.token = Mark.kwMut.word.token ::
        name.1.token :: Mark.colon.word.token :: type.words.map Word.token := rfl
    rw [hrun] at hself hcolon ⊢
    rw [slotsOfRun, slotOfRun_eq, if_neg (by rw [hself]; decide), hcolon]
    simp only [marked, if_true, List.cons_append, List.nil_append, List.length_cons,
      List.length_nil, List.take_succ_cons, List.take_zero, List.filter_cons, hname, hmut,
      List.filter_nil]
    rfl

/-- **A slot** is taken apart again. -/
theorem slotsOfRun_words (s : Slot) : slotsOfRun (s.words.map Word.token) = .ok [s.slot] := by
  cases s with
  | receiver r => exact slotsOfRun_receiver r
  | param p => exact slotsOfRun_param p

/-! ## Fields without names -/

/-- **Fields without names** are taken apart again. -/
theorem tupleFields_commas (fields : List BareField) :
    (tupleFields ((commas (fields.map BareField.words)).map Word.token)).map Field.bare =
      (Struct.tuple fields).fields := by
  cases fields with
  | nil => rfl
  | cons f fields =>
    rw [tupleFields, splitCommas_commas BareField.phrase (List.cons_ne_nil f fields),
      List.zipIdx_map, List.filterMap_map, List.map_filterMap, Struct.fields]
    refine Eq.trans (List.filterMap_congr ?_) (congrFun List.filterMap_eq_map _)
    rintro ⟨⟨isPublic, type⟩, i⟩ -
    cases isPublic with
    | true =>
      have hmark : Mark.kwPub.word.token.is "pub" := rfl
      simp only [BareField.words, marked, if_true, Function.comp_apply, Prod.map_apply,
        List.cons_append, List.nil_append, List.map_cons, hmark, Option.map_some]
      rfl
    | false =>
      -- the mark of a field is no part of a type
      have htype := type.phrase
      obtain ⟨w, ws, hws⟩ := List.exists_cons_of_ne_nil type.ne_nil
      have hmark : w.token.is "pub" = false := by
        rw [hws, List.map_cons] at htype
        exact htype.head_ne (by decide)
      have htext : type.text = Run.render (w.token :: ws.map Word.token) := by
        rw [TypeRun.text, render, hws, List.map_cons]
      simp only [BareField.words, marked, Bool.false_eq_true, if_false, Function.comp_apply,
        Prod.map_apply, List.nil_append, hws, List.map_cons, hmark, Option.map_some, htext]
      rfl

/-! ## Types -/

/-- A type is not rendered as nothing. -/
theorem TypeRun.text_ne (type : TypeRun) : type.text ≠ "" := by
  obtain ⟨w, ws, hws⟩ := List.exists_cons_of_ne_nil type.ne_nil
  obtain ⟨c, cs, htext, hblank, -⟩ := w.scans
  have hmem : c ∈ solid w.token.text :=
    List.mem_filter.mpr ⟨(htext ▸ List.mem_cons_self : c ∈ w.text.toList), by simp [hblank]⟩
  have hrender : c ∈ solid type.text := by
    rw [TypeRun.text, render, solid_render, hws]
    exact List.mem_flatMap.mpr ⟨w.token, List.mem_cons_self, hmem⟩
  intro h
  rw [h] at hrender
  cases hrender

end KlarAudit.Surface

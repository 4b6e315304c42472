import KlarAudit.Proofs.Grammar.Phrase
import KlarAudit.Proofs.Grammar.Reading
import KlarAudit.Proofs.Grammar.Rendering

/-!
# Structures with missing commas

A field is written with attributes, a visibility mark, a name, a colon and a type. When the comma
behind it is missing, its type seems to go on up to the next comma, the colon of the next field
gives this away, and reading goes back to the token before that colon. This is where the next field
starts only if the field has neither attributes nor a visibility mark. Otherwise these have become
part of the type before.

## Main definitions

* `IsAttribute`: an attribute as it is written
* `FieldRun`: a field as it is written, with the comma behind it if there is one
* `unseparated fs`: the fields of `fs` that follow a missing comma
* `FieldRun.IsBare`: neither an attribute nor a visibility mark stands in front of the name

## Main results

* `exists_collect`: the reader of a type always comes to an end in the fields of a structure
* `structItem_missingCommas_iff`: a structure with missing commas is read as it would be with all
  commas, one issue for each missing comma, iff the fields behind missing commas are bare
-/

namespace KlarAudit

open KlarAudit.Parser

/-! ## Fields as they are written -/

/-- **An attribute as it is written**: any balanced run in square brackets, or a name with or
without a balanced run in round brackets. -/
inductive IsAttribute : List Lexeme → Prop where
  | bracketed {hash o c : Lexeme} {bang : Option Lexeme} {inner : List Lexeme}
    (hh : hash.token.is "#") (hb : ∀ b ∈ bang, b.token.is "!")
    (ho : o.token.opens? = some .bracket) (hi : WellNested (inner.map Lexeme.token))
    (hc : c.token.closes? = some .bracket) :
    IsAttribute (hash :: (bang.toList ++ o :: (inner ++ [c])))
  | named {mark name : Lexeme} (hm : mark.token.is "@") (hn : name.token.kind = .identifier) :
    IsAttribute [mark, name]
  | applied {mark name o c : Lexeme} {inner : List Lexeme} (hm : mark.token.is "@")
    (hn : name.token.kind = .identifier) (ho : o.token.opens? = some .paren)
    (hi : WellNested (inner.map Lexeme.token)) (hc : c.token.closes? = some .paren) :
    IsAttribute (mark :: name :: o :: (inner ++ [c]))

/-- The tokens that end the type of a field. -/
def fieldEnds : List String :=
  [",", "\x7d"]

/-- **A field as it is written**, in any layout. Its type holds no comma, colon or closing brace
outside groups. -/
structure FieldRun where
  attributes : List {ls : List Lexeme // IsAttribute ls}
  mark : Option {l : Lexeme // l.token.is "pub"}
  name : {l : Lexeme // l.token.kind = .identifier}
  colon : {l : Lexeme // l.token.isOperator ":"}
  type : List Lexeme
  type_ne : type ≠ []
  type_phrase : Phrase [",", ":", "\x7d"] (type.map Lexeme.token)
  comma : Option {l : Lexeme // l.token.isOperator ","}

/-- What a field may start with in front of its name. -/
def fieldMarks : List String :=
  ["#", "@", "pub"]

namespace FieldRun

/-- What stands before the name. -/
def front (f : FieldRun) : List Lexeme :=
  (f.attributes.map Subtype.val).flatten ++ (f.mark.map Subtype.val).toList

/-- The comma behind the field, if it is there. -/
def separator (f : FieldRun) : List Lexeme :=
  (f.comma.map Subtype.val).toList

/-- The lexemes of a field, with its comma. -/
def lexemes (f : FieldRun) : List Lexeme :=
  f.front ++ f.name.1 :: f.colon.1 :: (f.type ++ f.separator)

/-- What is declared: name, type and visibility. -/
def declared (f : FieldRun) : String × String × Bool :=
  (f.name.1.token.text, Run.render (f.type.map Lexeme.token), f.mark.isSome)

/-- Nothing stands before the name. -/
def IsBare (f : FieldRun) : Prop :=
  f.attributes = [] ∧ f.mark = none

/-- The issue of a comma missing before the field, located at its name. -/
def noComma (f : FieldRun) : Issue :=
  .noComma f.name.1.token

end FieldRun

/-- What a field declares: name, type and visibility. -/
def Field.declared (f : Field) : String × String × Bool :=
  (f.name, f.type, f.isPublic)

/-- The fields that follow a field without a comma. -/
def unseparated : List FieldRun → List FieldRun
  | f :: g :: fs => (if f.comma.isNone then [g] else []) ++ unseparated (g :: fs)
  | _ => []

/-! ## Reading behind a run -/

section Passing

variable {front more : List Lexeme} {l : Lexeme} {d : Delimiter}

/-- **The reader of a type passes over the run**, and outside brackets. -/
def Passes (front : List Lexeme) : Prop :=
  ∀ back, collect fieldEnds true (front ++ back) =
    (collect fieldEnds true back).map fun (ts, ls) => (front.map Lexeme.token ++ ts, ls)

theorem Passes.nil : Passes [] := by
  intro back
  cases h : collect fieldEnds true back <;> simp [Except.map, h]

theorem Passes.append (h : Passes front) (h' : Passes more) : Passes (front ++ more) := by
  intro back
  rw [List.append_assoc, h, h']
  cases collect fieldEnds true back <;> simp [Except.map]

theorem passes_phrase (h : Phrase [",", ":", "\x7d"] (front.map Lexeme.token)) : Passes front :=
  fun back => collectFrom_phrase h (fun _ _ => by decide) back

theorem passes_flat (hf : l.token.isFlat) (hs : l.token.stops fieldEnds = false) :
    Passes [l] := by
  intro back
  have hphrase : Phrase fieldEnds ([l].map Lexeme.token) := .token hf hs .nil
  exact collectFrom_phrase hphrase (fun _ _ => List.Subset.refl _) back

/-- A reader inside a bracket goes on behind the bracket that closes it. Angle brackets do not count
on the way. -/
theorem collectFrom_inside {terminators : List String} {b : Token} {inner : List Token}
    (hb : b.opens? = some d) (hl : l.token.closes? = some d)
    (hnest : nestAll inner (front.map Lexeme.token) = some []) (back : List Lexeme) :
    collectFrom terminators true (inner ++ [b]) 0 (front ++ l :: back) =
      (collect terminators true back).map fun (ts, ls) =>
        (front.map Lexeme.token ++ l.token :: ts, ls) := by
  have hopen (stack : List Token) : stack ++ [b] ≠ [] := by simp
  have hangle (stack : List Token) (t : Token) :
      (if true && (stack ++ [b]).isEmpty then angleAfter 0 t else 0) = 0 := by
    rw [List.isEmpty_eq_false_iff.mpr (hopen stack)]
    rfl
  -- the bracket `b` stays at the bottom of the stack, so nothing on the way ends the run
  induction front generalizing inner with
  | nil =>
    obtain rfl : inner = [] := Option.some.inj hnest
    rw [List.nil_append, List.nil_append, collectFrom_step (fun h => absurd h (List.cons_ne_nil _ _))
      (nest_of_closes? hl hb [])]
    rfl
  | cons m front ih =>
    obtain ⟨mid, hmid, hnest⟩ := Option.bind_eq_some_iff.mp hnest
    rw [List.cons_append, collectFrom_step (fun h => absurd h (hopen inner))
      (nest_append hmid [b]), hangle, ih hnest]
    cases collect terminators true back <;> rfl

theorem passes_bracketed {o c : Lexeme} (ho : o.token.opens? = some d)
    (hi : WellNested (front.map Lexeme.token)) (hc : c.token.closes? = some d)
    (hs : o.token.stops fieldEnds = false) : Passes (o :: (front ++ [c])) := by
  intro back
  have hlt := Token.isOperator_of_ne (Token.ne_of_opens? ho (s := "<") (by decide))
  have hgt := Token.isOperator_of_ne (Token.ne_of_opens? ho (s := ">") (by decide))
  have hinside : collectFrom fieldEnds true ([] ++ [o.token]) 0 (front ++ c :: back) =
      (collect fieldEnds true back).map fun (ts, ls) =>
        (front.map Lexeme.token ++ c.token :: ts, ls) :=
    collectFrom_inside ho hc hi back
  rw [List.cons_append, List.append_assoc, List.singleton_append]
  refine (collectFrom_step (fun _ _ => hs) (nest_of_opens? ho [])).trans ?_
  rw [angleAfter_of_ne hlt hgt, ite_self, ← List.nil_append [o.token], hinside]
  cases collect fieldEnds true back <;> simp [Except.map]

theorem Token.isFlat_of_is {t : Token} {s : String} (h : t.is s)
    (hs : Plain s ∧ s ≠ "<" ∧ s ≠ ">") : t.isFlat := by
  have htext := text_of_is h
  exact isFlat_iff.mpr ⟨opens?_eq_none_of_text (htext ▸ hs.1),
    closes?_eq_none_of_text (htext ▸ hs.1), isOperator_of_ne (htext ▸ hs.2.1),
    isOperator_of_ne (htext ▸ hs.2.2)⟩

theorem Token.isFlat_of_identifier {t : Token} (h : t.kind = .identifier) : t.isFlat := by
  simp [isFlat_iff, opens?, closes?, isOperator, h]

theorem Token.stops_of_identifier {t : Token} (h : t.kind = .identifier)
    (terminators : List String) : t.stops terminators = false := by
  rw [stops, h]
  rfl

theorem Token.stops_of_text {t : Token} {s : String} {terminators : List String} (h : t.text = s)
    (hs : s ∉ terminators) : t.stops terminators = false := by
  refine Bool.eq_false_iff.mpr fun ht => hs ?_
  rw [← h]
  exact (stops_iff.mp ht).2

theorem passes_symbol {s : String} (h : l.token.is s) (hs : Plain s ∧ s ≠ "<" ∧ s ≠ ">")
    (hn : s ∉ fieldEnds) : Passes [l] :=
  passes_flat (Token.isFlat_of_is h hs) (Token.stops_of_text (Token.text_of_is h) hn)

theorem passes_identifier (h : l.token.kind = .identifier) : Passes [l] :=
  passes_flat (Token.isFlat_of_identifier h) (Token.stops_of_identifier h _)

theorem stops_of_opens? {t : Token} (ho : t.opens? = some d) : t.stops fieldEnds = false := by
  refine Token.stops_of_text (Token.opens?_eq_some_iff.mp ho).2 ?_
  cases d <;> decide

end Passing

/-! ## Attributes -/

theorem IsAttribute.passes {a : List Lexeme} (h : IsAttribute a) : Passes a := by
  cases h with
  | @bracketed hash o c bang inner hh hb ho hi hc =>
    have hgroup := passes_bracketed ho hi hc (stops_of_opens? ho)
    have hhash := passes_symbol hh (by decide) (by decide)
    cases bang with
    | none => exact hhash.append hgroup
    | some b =>
      exact hhash.append ((passes_symbol (hb b rfl) (by decide) (by decide)).append hgroup)
  | named hm hn => exact (passes_symbol hm (by decide) (by decide)).append (passes_identifier hn)
  | applied hm hn ho hi hc =>
    exact (passes_symbol hm (by decide) (by decide)).append
      ((passes_identifier hn).append (passes_bracketed ho hi hc (stops_of_opens? ho)))

theorem accept_of_is {s : String} {l : Lexeme} (h : l.token.is s) (ls : List Lexeme) :
    accept s (l :: ls) = .ok (some l.token, ls) := by
  rw [accept, if_pos h]

theorem expectName_of_identifier {what : String} {l : Lexeme} (h : l.token.kind = .identifier)
    (ls : List Lexeme) : expectName what (l :: ls) = .ok (l.token, ls) := by
  rw [expectName, if_pos h]

theorem accept_of_not_nextIs {s : String} {ls : List Lexeme} (h : ¬ nextIs s ls) :
    accept s ls = .ok (none, ls) := by
  cases ls with
  | nil => rfl
  | cons l ls => rw [accept, if_neg (by simpa [nextIs] using h)]

theorem group_of_not_nextIs {s : String} {ls : List Lexeme} (h : ¬ nextIs s ls) :
    group s ls = .ok (none, ls) := by
  cases ls with
  | nil => rfl
  | cons l ls => rw [group, if_neg (by simpa [nextIs] using h)]

theorem group_of_opens? {d : Delimiter} {o c : Lexeme} {inner : List Lexeme}
    (ho : o.token.opens? = some d) (hi : WellNested (inner.map Lexeme.token))
    (hc : c.token.closes? = some d) (back : List Lexeme) :
    group d.opener (o :: (inner ++ c :: back)) = .ok (some (o.token, c.token), back) := by
  have hopener : o.token.is d.opener := by
    obtain ⟨hkind, htext⟩ := Token.opens?_eq_some_iff.mp ho
    simp [Token.is, hkind, htext, TokenKind.isStructural]
  rw [group, if_pos hopener, groupFrom_append ho hc hi rfl]
  rfl

/-- An attribute is read up to what follows, which must not look like the arguments of a name. -/
theorem oneAttribute_of_isAttribute {a after : List Lexeme} (h : IsAttribute a)
    (hafter : ¬ nextIs "(" after) : oneAttribute (a ++ after) = .ok (true, after) := by
  cases h with
  | @bracketed hash o c bang inner hh hb ho hi hc =>
    have hgroup : attributeGroup (o :: (inner ++ c :: after)) = .ok (true, after) :=
      bind_eq_ok.mpr ⟨_, _, group_of_opens? ho hi hc _, rfl⟩
    refine bind_eq_ok.mpr ⟨some hash.token, _, accept_of_is hh _, ?_⟩
    cases bang with
    | none =>
      have hbang : ¬ nextIs "!" (o :: (inner ++ [c]) ++ after) := by
        have hne := (Token.opens?_eq_some_iff.mp ho).2
        simp [nextIs, Token.is, hne, Delimiter.opener]
      refine bind_eq_ok.mpr ⟨none, _, accept_of_not_nextIs hbang, ?_⟩
      simpa using hgroup
    | some b =>
      refine bind_eq_ok.mpr ⟨some b.token, _, accept_of_is (hb b rfl) _, ?_⟩
      simpa using hgroup
  | @named mark name hm hn =>
    have hhash : ¬ nextIs "#" (mark :: ([name] ++ after)) := by
      simp [nextIs, Token.is, Token.text_of_is hm]
    refine bind_eq_ok.mpr ⟨none, _, accept_of_not_nextIs hhash, ?_⟩
    refine bind_eq_ok.mpr ⟨some mark.token, _, accept_of_is hm _, ?_⟩
    -- arguments are looked for behind the name, and `hafter` says that there are none
    exact bind_eq_ok.mpr ⟨name.token, after, expectName_of_identifier hn _,
      bind_eq_ok.mpr ⟨none, _, group_of_not_nextIs hafter, rfl⟩⟩
  | @applied mark name o c inner hm hn ho hi hc =>
    have hhash : ¬ nextIs "#" (mark :: (name :: o :: (inner ++ [c]) ++ after)) := by
      simp [nextIs, Token.is, Token.text_of_is hm]
    refine bind_eq_ok.mpr ⟨none, _, accept_of_not_nextIs hhash, ?_⟩
    refine bind_eq_ok.mpr ⟨some mark.token, _, accept_of_is hm _, ?_⟩
    refine bind_eq_ok.mpr ⟨name.token, _, expectName_of_identifier hn _, ?_⟩
    refine bind_eq_ok.mpr ⟨some (o.token, c.token), after, ?_, rfl⟩
    have hgroup := group_of_opens? ho hi hc after
    show group "(" (o :: (inner ++ [c] ++ after)) = _
    rwa [List.append_assoc]

theorem oneAttribute_of_none {ls : List Lexeme} (hhash : ¬ nextIs "#" ls) (hat : ¬ nextIs "@" ls) :
    oneAttribute ls = .ok (false, ls) :=
  bind_eq_ok.mpr ⟨none, _, accept_of_not_nextIs hhash,
    bind_eq_ok.mpr ⟨none, _, accept_of_not_nextIs hat, rfl⟩⟩

/-- What an attribute starts with does not open the arguments of the one before. -/
theorem IsAttribute.not_nextIs {a : List Lexeme} (h : IsAttribute a) (after : List Lexeme) :
    ¬ nextIs "(" (a ++ after) := by
  cases h with
  | bracketed hh => simp [nextIs, Token.is, Token.text_of_is hh]
  | named hm => simp [nextIs, Token.is, Token.text_of_is hm]
  | applied hm => simp [nextIs, Token.is, Token.text_of_is hm]

/-- **All attributes** are read, up to something that looks like none of their parts. -/
theorem attributes_of_isAttribute {as : List (List Lexeme)} {after : List Lexeme}
    (h : ∀ a ∈ as, IsAttribute a) (hhash : ¬ nextIs "#" after) (hat : ¬ nextIs "@" after)
    (hparen : ¬ nextIs "(" after) : attributes (as.flatten ++ after) = .ok ((), after) := by
  induction as with
  | nil => exact attributes_of_false (oneAttribute_of_none hhash hat)
  | cons a as ih =>
    obtain ⟨ha, has⟩ := List.forall_mem_cons.mp h
    have hnext : ¬ nextIs "(" (as.flatten ++ after) := by
      cases as with
      | nil => exact hparen
      | cons b bs =>
        rw [List.flatten_cons, List.append_assoc]
        exact (has b List.mem_cons_self).not_nextIs _
    rw [List.flatten_cons, List.append_assoc,
      attributes_of_true (oneAttribute_of_isAttribute ha hnext), ih has]

theorem of_mem_fieldMarks {t : Token} (h : t.text ∈ fieldMarks) :
    t.isOperator ":" = false ∧ t.is "\x7d" = false ∧ solid t.text ≠ [] := by
  have hmarks : ∀ s ∈ fieldMarks, s ≠ ":" ∧ s ≠ "\x7d" ∧ solid s ≠ [] := by decide
  obtain ⟨hcolon, hclose, hsolid⟩ := hmarks _ h
  exact ⟨Token.isOperator_of_ne hcolon, Token.is_of_ne hclose, hsolid⟩

/-- An attribute starts with its mark, and no colon follows. -/
theorem IsAttribute.exists_front {a : List Lexeme} (h : IsAttribute a) : ∃ l m ls,
    a = l :: m :: ls ∧ l.token.text ∈ fieldMarks ∧ m.token.isOperator ":" = false := by
  cases h with
  | @bracketed hash o c bang inner hh hb ho hi hc =>
    have hmark : hash.token.text ∈ fieldMarks := by rw [Token.text_of_is hh]; decide
    cases bang with
    | none => exact ⟨_, _, _, rfl, hmark, Token.isOperator_of_ne (Token.ne_of_opens? ho (by decide))⟩
    | some b =>
      have hbang := Token.text_of_is (hb b rfl)
      exact ⟨_, _, _, rfl, hmark, Token.isOperator_of_ne (by rw [hbang]; decide)⟩
  | named hm hn =>
    exact ⟨_, _, _, rfl, by rw [Token.text_of_is hm]; decide, Token.isOperator_of_identifier hn _⟩
  | applied hm hn =>
    exact ⟨_, _, _, rfl, by rw [Token.text_of_is hm]; decide, Token.isOperator_of_identifier hn _⟩

/-! ## The reader of a field, up to its type -/

namespace FieldRun

variable {f g : FieldRun} {fs : List FieldRun} {close : Lexeme} {back rest : List Lexeme}

theorem passes_front (f : FieldRun) : Passes f.front := by
  have hattributes (as : List {ls : List Lexeme // IsAttribute ls}) :
      Passes (as.map Subtype.val).flatten := by
    induction as with
    | nil => exact .nil
    | cons a as ih => exact a.2.passes.append ih
  refine (hattributes f.attributes).append ?_
  cases f.mark with
  | none => exact .nil
  | some l => exact passes_symbol l.2 (by decide) (by decide)

/-- What stands before the type is passed over. -/
theorem passes_head (f : FieldRun) : Passes (f.front ++ [f.name.1, f.colon.1]) :=
  f.passes_front.append ((passes_identifier f.name.2).append
    (passes_symbol (Token.is_of_isOperator f.colon.2) (by decide) (by decide)))

end FieldRun

/-! ## The reader of a type, in the fields of a structure -/

/-- The fields of a structure, the brace behind them, and what follows. -/
def fieldsThen (fs : List FieldRun) (close : Lexeme) (rest : List Lexeme) : List Lexeme :=
  fs.flatMap FieldRun.lexemes ++ close :: rest

section Collect

variable {f g : FieldRun} {fs : List FieldRun} {close : Lexeme} {back rest : List Lexeme}

theorem fieldsThen_cons (f : FieldRun) (fs : List FieldRun) (close : Lexeme) (rest : List Lexeme) :
    fieldsThen (f :: fs) close rest = f.lexemes ++ fieldsThen fs close rest := by
  rw [fieldsThen, List.flatMap_cons, List.append_assoc, fieldsThen]

theorem FieldRun.lexemes_append (f : FieldRun) (back : List Lexeme) : f.lexemes ++ back =
    (f.front ++ [f.name.1, f.colon.1]) ++ (f.type ++ (f.separator ++ back)) := by
  simp [lexemes]

theorem Passes.exists_collect {front : List Lexeme} (h : Passes front)
    (hback : ∃ run left, collect fieldEnds true back = .ok (run, left)) :
    ∃ run left, collect fieldEnds true (front ++ back) = .ok (run, left) := by
  obtain ⟨run, left, hback⟩ := hback
  exact ⟨front.map Lexeme.token ++ run, left, by rw [h, hback]; rfl⟩

theorem Passes.exists_more {front left : List Lexeme} {run : List Token} (h : Passes front)
    (hrun : collect fieldEnds true (front ++ back) = .ok (run, left)) :
    ∃ more, run = front.map Lexeme.token ++ more := by
  rw [h] at hrun
  obtain ⟨⟨more, _⟩, -, hr⟩ := except_map_eq_ok.mp hrun
  exact ⟨more, (congrArg Prod.fst hr).symm⟩

theorem stops_comma (c : {l : Lexeme // l.token.isOperator ","}) :
    c.1.token.stops fieldEnds := by
  have h := c.2
  simp only [Token.isOperator, Bool.and_eq_true, beq_iff_eq] at h
  exact Token.stops_iff.mpr ⟨by rw [h.1]; rfl, by rw [h.2]; decide⟩

theorem stops_close (hc : close.token.is "\x7d") : close.token.stops fieldEnds := by
  simp only [Token.is, Bool.and_eq_true, beq_iff_eq] at hc
  exact Token.stops_iff.mpr ⟨hc.2, by rw [hc.1]; decide⟩

/-- **The reader of a type comes to an end** in the fields of a structure. -/
theorem exists_collect (hc : close.token.is "\x7d") (f : FieldRun) (fs : List FieldRun)
    (rest : List Lexeme) : ∃ run left,
      collect fieldEnds true (f.type ++ (f.separator ++ fieldsThen fs close rest)) =
        .ok (run, left) := by
  induction fs generalizing f with
  | nil =>
    refine (passes_phrase f.type_phrase).exists_collect ?_
    unfold FieldRun.separator
    cases f.comma with
    | some c => exact ⟨[], _, collectFrom_stop (stops_comma c)⟩
    | none => exact ⟨[], _, collectFrom_stop (stops_close hc)⟩
  | cons g fs ih =>
    refine (passes_phrase f.type_phrase).exists_collect ?_
    unfold FieldRun.separator
    cases f.comma with
    | some c => exact ⟨[], _, collectFrom_stop (stops_comma c)⟩
    | none =>
      -- the type goes on through the head of the next field, and then as the type of that field does
      rw [Option.map_none, Option.toList_none, List.nil_append, fieldsThen_cons, g.lexemes_append]
      exact g.passes_head.exists_collect (ih g)

end Collect

/-! ## The reader of a field -/

section Reader

variable {f g : FieldRun} {fs : List FieldRun} {close : Lexeme} {back rest : List Lexeme}

theorem bind_of_ok {α β : Type} {p : Parser α} {k : α → Parser β} {ls mid : List Lexeme} {a : α}
    (h : p ls = .ok (a, mid)) : (p >>= k) ls = k a mid := by
  show StateT.bind p k ls = _
  rw [StateT.bind, h]
  rfl

/-- A field is read up to its type. -/
theorem field_lexemes (f : FieldRun) (back : List Lexeme) : Parser.field (f.lexemes ++ back) =
    fieldType f.name.1.token f.mark.isSome (f.type ++ (f.separator ++ back)) := by
  have hname (s : String) : f.name.1.token.is s = false := Token.is_of_identifier f.name.2 s
  -- behind the attributes stands `pub` or the name, which look like no part of an attribute
  have hnext {s : String} (hs : s ≠ "pub") (more : List Lexeme) :
      ¬ nextIs s ((f.mark.map Subtype.val).toList ++ f.name.1 :: more) := by
    cases f.mark with
    | none => simp [nextIs, hname]
    | some l =>
      have htext := Token.text_of_is l.2
      show ¬ (l.1.token.is s = true)
      simp [Token.is, htext, hs.symm]
  obtain ⟨after, hafter⟩ : ∃ after, after = (f.mark.map Subtype.val).toList ++
      f.name.1 :: f.colon.1 :: (f.type ++ (f.separator ++ back)) := ⟨_, rfl⟩
  have hattributes : attributes ((f.attributes.map Subtype.val).flatten ++ after) =
      .ok ((), after) := by
    rw [hafter]
    exact attributes_of_isAttribute (by simpa using fun a ha _ => ha) (hnext (by decide) _)
      (hnext (by decide) _) (hnext (by decide) _)
  rw [hafter] at hattributes
  have hmark : accept "pub" ((f.mark.map Subtype.val).toList ++
      f.name.1 :: f.colon.1 :: (f.type ++ (f.separator ++ back))) =
        .ok (f.mark.map (·.1.token), f.name.1 :: f.colon.1 :: (f.type ++ (f.separator ++ back))) := by
    cases f.mark with
    | none => exact accept_of_not_nextIs (by simp [nextIs, hname])
    | some l => exact accept_of_is l.2 _
  have hcolon : expect ":" (f.colon.1 :: (f.type ++ (f.separator ++ back))) =
      .ok (f.colon.1.token, f.type ++ (f.separator ++ back)) := by
    rw [expect, if_pos (Token.is_of_isOperator f.colon.2)]
  have hfield : f.lexemes ++ back = (f.attributes.map Subtype.val).flatten ++
      ((f.mark.map Subtype.val).toList ++
        f.name.1 :: f.colon.1 :: (f.type ++ (f.separator ++ back))) := by
    simp [FieldRun.lexemes, FieldRun.front]
  rw [hfield, Parser.field, bind_of_ok hattributes, bind_of_ok hmark,
    bind_of_ok (expectName_of_identifier f.name.2 _), bind_of_ok hcolon, Option.isSome_map]

variable {name : Token} {isPublic : Bool} {ls left : List Lexeme} {run ts us : List Token}
  {s c : Token}

/-- A type without a colon ends where the run ends. -/
theorem fieldType_of_noColon (h : collect fieldEnds true ls = .ok (run, left)) (hne : run ≠ [])
    (hcolon : Run.colon? run = none) :
    ∃ x, x.declared = (name.text, Run.render run, isPublic) ∧
      fieldType name isPublic ls = .ok ((x, none), left) := by
  obtain ⟨t, ts, rfl⟩ := List.exists_cons_of_ne_nil hne
  exact ⟨_, rfl, fieldType_of_whole h hcolon⟩

/-- A type with a colon ends two tokens before it. -/
theorem fieldType_of_colon (h : collect fieldEnds true ls = .ok (ts ++ s :: us, left))
    (hne : ts ≠ []) (hcolon : Run.colon? (ts ++ s :: us) = some (ts.length + 1)) :
    ∃ x, x.declared = (name.text, Run.render ts, isPublic) ∧
      fieldType name isPublic ls = .ok ((x, some s), ls.drop ts.length) := by
  obtain ⟨t, ts, rfl⟩ := List.exists_cons_of_ne_nil hne
  refine ⟨namedField name isPublic t ts, rfl, ?_⟩
  rw [List.cons_append] at h hcolon
  have hnext : (ts ++ s :: us)[ts.length]? = some s := by simp
  rw [fieldType_of_cut h hcolon hnext, List.take_left, List.length_cons]

/-- Wherever the type of a field ends, it is a front of the run, and if the run holds a colon, it
ends two tokens before. -/
theorem exists_take_of_fieldType {x : Field} {following : Option Token}
    (h : fieldType name isPublic ls = .ok ((x, following), back)) :
    ∃ run left n, collect fieldEnds true ls = .ok (run, left) ∧
      x.type = Run.render (run.take n) ∧
      (Run.colon? run = none ∧ n = run.length ∨ Run.colon? run = some (n + 1)) := by
  obtain ⟨t, ts, left, hcollect, hcases⟩ := fieldType_eq_ok h
  rcases hcases with ⟨hnone, rfl, -, -⟩ | ⟨k, next, hsome, -, rfl, -, -⟩
  · refine ⟨_, _, _, hcollect, ?_, .inl ⟨hnone, rfl⟩⟩
    rw [List.take_length]
    rfl
  · exact ⟨_, _, k + 1, hcollect, rfl, .inr hsome⟩

/-! ## Fields behind a missing comma -/

namespace FieldRun

theorem isBare_iff (f : FieldRun) : f.IsBare ↔ f.front = [] := by
  constructor
  · rintro ⟨ha, hm⟩
    simp [front, ha, hm]
  · intro h
    obtain ⟨ha, hm⟩ := List.append_eq_nil_iff.mp h
    refine ⟨?_, by simpa using hm⟩
    cases has : f.attributes with
    | nil => rfl
    | cons a as =>
      rw [has, List.map_cons, List.flatten_cons] at ha
      have hnil := (List.append_eq_nil_iff.mp ha).1
      have hattribute := a.2
      rw [hnil] at hattribute
      cases hattribute

/-- What stands before the name of a field, if anything does, starts with a mark, and no colon
follows. -/
theorem exists_front_of_not_isBare (h : ¬ f.IsBare) : ∃ l m ls,
    f.front ++ [f.name.1, f.colon.1] = l :: m :: ls ∧
      l.token.text ∈ fieldMarks ∧ m.token.isOperator ":" = false := by
  cases has : f.attributes with
  | cons a as =>
    obtain ⟨l, m, ls, hl, hmark, hm⟩ := a.2.exists_front
    have hfront : f.front = l :: m :: (ls ++ ((as.map Subtype.val).flatten ++
        (f.mark.map Subtype.val).toList)) := by
      simp [front, has, hl]
    exact ⟨l, m, _, by rw [hfront]; rfl, hmark, hm⟩
  | nil =>
    cases hm : f.mark with
    | none => exact absurd ⟨has, hm⟩ h
    | some l =>
      refine ⟨l.1, f.name.1, [f.colon.1], by simp [front, has, hm], ?_, ?_⟩
      · rw [Token.text_of_is l.2]
        decide
      · exact Token.isOperator_of_identifier f.name.2 _

end FieldRun

/-- A run that goes on behind a phrase with two tokens that are no colons has no colon before the
third of them. -/
theorem length_lt_of_colon? {n : Nat} (h : Phrase [",", ":", "\x7d"] ts)
    (hs : s.isOperator ":" = false) (hc : c.isOperator ":" = false)
    (hn : Run.colon? (ts ++ s :: c :: us) = some (n + 1)) : ts.length < n := by
  rw [Run.colon?, colonFrom?_phrase h (fun _ => by decide), Run.colonFrom?, if_neg (by simp [hs]),
    Run.colonFrom?, if_neg (by simp [hc])] at hn
  simp only [Option.map_map, Option.map_eq_some_iff, Function.comp_apply] at hn
  obtain ⟨k, -, hk⟩ := hn
  omega

/-- The type of a field swallows what stands before the name of the next one. -/
theorem type_ne_of_not_isBare {x : Field} {following : Option Token} (hf : f.comma = none)
    (hg : ¬ g.IsBare)
    (h : Parser.field (f.lexemes ++ (g.lexemes ++ back)) = .ok ((x, following), rest)) :
    x.declared ≠ f.declared := by
  obtain ⟨l, m, ls, hfront, hmark, hc⟩ := FieldRun.exists_front_of_not_isBare hg
  obtain ⟨hs, -, hsolid⟩ := of_mem_fieldMarks hmark
  rw [field_lexemes] at h
  obtain ⟨run, left, n, hcollect, htype, hcolon⟩ := exists_take_of_fieldType h
  -- the run is the type, what stands before the name behind it, and more
  obtain ⟨more, hrun⟩ : ∃ more, run = f.type.map Lexeme.token ++ l.token :: m.token :: more := by
    have hpasses := (passes_phrase f.type_phrase).append g.passes_head
    rw [FieldRun.separator, hf, Option.map_none, Option.toList_none, List.nil_append,
      g.lexemes_append, ← List.append_assoc] at hcollect
    obtain ⟨more, hmore⟩ := hpasses.exists_more hcollect
    rw [List.map_append, hfront, List.append_assoc] at hmore
    exact ⟨ls.map Lexeme.token ++ more, hmore⟩
  -- the type that is read ends behind the first token in front of the name
  obtain ⟨k, hk⟩ : ∃ k, n = f.type.length + k + 1 := by
    suffices f.type.length < n from ⟨n - f.type.length - 1, by omega⟩
    rcases hcolon with ⟨-, rfl⟩ | hcolon
    · simp [hrun]
    · rw [hrun] at hcolon
      simpa using length_lt_of_colon? f.type_phrase hs hc hcolon
  have htake : run.take n = f.type.map Lexeme.token ++ l.token :: (m.token :: more).take k := by
    rw [hrun, hk, List.take_append, List.take_of_length_le (by simp; omega), List.length_map,
      Nat.add_assoc, Nat.add_sub_cancel_left, List.take_succ_cons]
  intro hdeclared
  have heq : x.type = Run.render (f.type.map Lexeme.token) :=
    congrArg (fun d : String × String × Bool => d.2.1) hdeclared
  rw [htype, htake] at heq
  exact render_append_ne _ _ hsolid heq

/-- A field with a comma or a closing brace behind it is read. -/
theorem exists_field_of_stops (f : FieldRun) {l : Lexeme} (hl : l.token.stops fieldEnds)
    (hback : f.separator ++ back = l :: rest) : ∃ x, x.declared = f.declared ∧
      Parser.field (f.lexemes ++ back) = .ok ((x, none), f.separator ++ back) := by
  have hcollect : collect fieldEnds true (f.type ++ (f.separator ++ back)) =
      .ok (f.type.map Lexeme.token, f.separator ++ back) := by
    have hstop : collect fieldEnds true (f.separator ++ back) = .ok ([], f.separator ++ back) := by
      rw [hback]
      exact collectFrom_stop hl
    rw [passes_phrase f.type_phrase, hstop]
    simp [Except.map]
  have hcolon : Run.colon? (f.type.map Lexeme.token) = none := by
    have h := colonFrom?_phrase (d := 0) f.type_phrase (fun _ => by decide) []
    rwa [List.append_nil] at h
  rw [field_lexemes]
  exact fieldType_of_noColon hcollect (by simpa using f.type_ne) hcolon

/-- **A field without a comma behind it**, in front of a bare one, is read. -/
theorem exists_field_of_isBare (hf : f.comma = none) (hg : g.IsBare) {run : List Token}
    (h : collect fieldEnds true (f.type ++ (f.separator ++ (g.lexemes ++ back))) = .ok (run, left)) :
    ∃ x, x.declared = f.declared ∧ Parser.field (f.lexemes ++ (g.lexemes ++ back)) =
      .ok ((x, some g.name.1.token), g.lexemes ++ back) := by
  have hlexemes : g.lexemes ++ back =
      [g.name.1, g.colon.1] ++ (g.type ++ (g.separator ++ back)) := by
    rw [g.lexemes_append, g.isBare_iff.mp hg, List.nil_append]
  have hseparator : f.separator = [] := by rw [FieldRun.separator, hf]; rfl
  obtain ⟨more, hrun⟩ : ∃ more, run =
      f.type.map Lexeme.token ++ g.name.1.token :: g.colon.1.token :: more := by
    have hpasses := (passes_phrase f.type_phrase).append g.passes_head
    rw [g.isBare_iff.mp hg, List.nil_append] at hpasses
    have hcollect := h
    rw [hseparator, List.nil_append, hlexemes, ← List.append_assoc] at hcollect
    obtain ⟨more, hmore⟩ := hpasses.exists_more hcollect
    rw [List.map_append, List.append_assoc] at hmore
    exact ⟨more, hmore⟩
  -- the first colon outside groups is the one of the next field, right behind its name
  have hcolon : Run.colon? run = some ((f.type.map Lexeme.token).length + 1) := by
    have hname := Token.isFlat_of_identifier g.name.2
    rw [hrun, Run.colon?, colonFrom?_phrase f.type_phrase (fun _ => by decide), Run.colonFrom?,
      if_neg (by simp [Token.isOperator_of_identifier g.name.2]), depthAfter_of_isFlat hname,
      Run.colonFrom?, if_pos (by simp [g.colon.2])]
    simp [Nat.add_comm]
  rw [hrun] at h hcolon
  obtain ⟨x, hdeclared, hx⟩ := fieldType_of_colon h (by simpa using f.type_ne) hcolon
  refine ⟨x, hdeclared, ?_⟩
  rw [field_lexemes, hx, hseparator, List.length_map, List.drop_left, List.nil_append]

end Reader

/-! ## The fields of a structure -/

section Fields

variable {first : Token} {f g : FieldRun} {fs : List FieldRun} {close : Lexeme} {rest : List Lexeme}

theorem unseparated_of_separated (h : f.comma.isSome ∨ fs = []) :
    unseparated (f :: fs) = unseparated fs := by
  cases fs with
  | nil => rfl
  | cons g fs =>
    have hcomma : f.comma.isNone = false := by simpa using h
    rw [unseparated, hcomma]
    rfl

theorem unseparated_of_comma_none (h : f.comma = none) :
    unseparated (f :: g :: fs) = g :: unseparated (g :: fs) := by
  rw [unseparated, h]
  rfl

/-- What a field starts with does not end the fields. -/
theorem FieldRun.exists_cons (f : FieldRun) (back : List Lexeme) :
    ∃ l tail, f.lexemes ++ back = l :: tail ∧ ¬ l.token.is "\x7d" := by
  by_cases hf : f.IsBare
  · refine ⟨f.name.1, _, by rw [f.lexemes_append, f.isBare_iff.mp hf]; rfl, ?_⟩
    simp [Token.is_of_identifier f.name.2]
  · obtain ⟨l, m, ls, hfront, hmark, -⟩ := FieldRun.exists_front_of_not_isBare hf
    refine ⟨l, _, by rw [f.lexemes_append, hfront]; rfl, ?_⟩
    rw [(of_mem_fieldMarks hmark).2.1]
    decide

/-- The reader of fields after one field. -/
theorem fields_lexemes {x : Field} {following : Option Token} {back left : List Lexeme}
    (h : Parser.field (f.lexemes ++ back) = .ok ((x, following), left)) :
    fields first (f.lexemes ++ back) =
      ⟨(following.map Issue.noComma).toList ++ (fields first (afterComma left)).issues,
        (fields first (afterComma left)).outcome.map fun r => ((x :: r.1.1, r.1.2), r.2)⟩ := by
  obtain ⟨l, tail, hl, hclose⟩ := f.exists_cons back
  rw [hl] at h ⊢
  exact fields_of_field hclose h

theorem not_nextIs_close (hc : close.token.is "\x7d") : ¬ nextIs "," (close :: rest) := by
  show ¬ (close.token.is "," = true)
  rw [Bool.not_eq_true]
  exact Token.is_of_ne (by rw [Token.text_of_is hc]; decide)

variable (first rest) in
/-- A field with a comma behind it, or the last one, is read, and reading goes on behind it. -/
theorem fields_of_separated (hc : close.token.is "\x7d") (h : f.comma.isSome ∨ fs = []) :
    ∃ x, x.declared = f.declared ∧ fields first (fieldsThen (f :: fs) close rest) =
      ⟨(fields first (fieldsThen fs close rest)).issues,
        (fields first (fieldsThen fs close rest)).outcome.map
          fun r => ((x :: r.1.1, r.1.2), r.2)⟩ := by
  rw [fieldsThen_cons]
  cases hcomma : f.comma with
  | some c =>
    have hseparator : f.separator ++ fieldsThen fs close rest = c.1 :: fieldsThen fs close rest := by
      rw [FieldRun.separator, hcomma]
      rfl
    obtain ⟨x, hdeclared, hx⟩ := exists_field_of_stops f (stops_comma c) hseparator
    have hafter : afterComma (f.separator ++ fieldsThen fs close rest) =
        fieldsThen fs close rest := by
      have hnext : nextIs "," (c.1 :: fieldsThen fs close rest) := Token.is_of_isOperator c.2
      rw [hseparator, afterComma, if_pos hnext, List.tail_cons]
    refine ⟨x, hdeclared, ?_⟩
    rw [fields_lexemes hx, hafter]
    rfl
  -- without a comma it is the last field, and the brace ends it
  | none =>
    obtain rfl : fs = [] := by simpa [hcomma] using h
    have hseparator : f.separator ++ fieldsThen [] close rest = close :: rest := by
      rw [FieldRun.separator, hcomma]
      rfl
    obtain ⟨x, hdeclared, hx⟩ := exists_field_of_stops f (stops_close hc) hseparator
    refine ⟨x, hdeclared, ?_⟩
    rw [fields_lexemes hx, hseparator]
    rw [show afterComma (close :: rest) = _ from if_neg (not_nextIs_close hc)]
    rfl

variable (first fs rest) in
/-- **A missing comma** in front of a bare field is recorded, and reading goes on at that field. -/
theorem fields_of_comma_none (hc : close.token.is "\x7d") (hf : f.comma = none) (hg : g.IsBare) :
    ∃ x, x.declared = f.declared ∧ fields first (fieldsThen (f :: g :: fs) close rest) =
      ⟨g.noComma :: (fields first (fieldsThen (g :: fs) close rest)).issues,
        (fields first (fieldsThen (g :: fs) close rest)).outcome.map
          fun r => ((x :: r.1.1, r.1.2), r.2)⟩ := by
  obtain ⟨run, left, hcollect⟩ := exists_collect hc f (g :: fs) rest
  rw [fieldsThen_cons] at hcollect
  obtain ⟨x, hdeclared, hx⟩ := exists_field_of_isBare hf hg hcollect
  -- a bare field starts with its name, so no comma is stepped over in front of it
  have hafter : afterComma (g.lexemes ++ fieldsThen fs close rest) =
      g.lexemes ++ fieldsThen fs close rest := by
    rw [afterComma, if_neg]
    rw [g.lexemes_append, g.isBare_iff.mp hg]
    show ¬ (g.name.1.token.is "," = true)
    simp [Token.is_of_identifier g.name.2]
  refine ⟨x, hdeclared, ?_⟩
  rw [fieldsThen_cons, fieldsThen_cons, fields_lexemes hx, hafter]
  rfl

variable (first rest) in
/-- **The fields are read** if those behind missing commas are bare. -/
theorem exists_fields (hc : close.token.is "\x7d") (h : ∀ f ∈ unseparated fs, f.IsBare) :
    ∃ found, found.map Field.declared = fs.map FieldRun.declared ∧
      fields first (fieldsThen fs close rest) =
        ⟨(unseparated fs).map FieldRun.noComma, .ok ((found, close.token), rest)⟩ := by
  induction fs with
  | nil => exact ⟨[], rfl, fields_of_close hc⟩
  | cons f fs ih =>
    by_cases hcomma : f.comma.isSome ∨ fs = []
    · rw [unseparated_of_separated hcomma] at h ⊢
      obtain ⟨found, hfound, hfields⟩ := ih h
      obtain ⟨x, hx, hstep⟩ := fields_of_separated first rest hc hcomma
      refine ⟨x :: found, by rw [List.map_cons, hx, hfound]; rfl, ?_⟩
      rw [hstep, hfields]
      rfl
    · rw [not_or, Option.isSome_iff_ne_none, not_not] at hcomma
      obtain ⟨g, gs, rfl⟩ := List.exists_cons_of_ne_nil hcomma.2
      rw [unseparated_of_comma_none hcomma.1] at h ⊢
      obtain ⟨hg, hgs⟩ := List.forall_mem_cons.mp h
      obtain ⟨found, hfound, hfields⟩ := ih hgs
      obtain ⟨x, hx, hstep⟩ :=
        fields_of_comma_none first gs rest hc hcomma.1 hg
      refine ⟨x :: found, by rw [List.map_cons, hx, hfound]; rfl, ?_⟩
      rw [hstep, hfields]
      rfl

/-- **Fields that are read as they are written** are bare behind missing commas. -/
theorem isBare_of_fields (hc : close.token.is "\x7d") {found : List Field}
    {r : Token × List Lexeme}
    (h : (fields first (fieldsThen fs close rest)).outcome = .ok ((found, r.1), r.2))
    (hfound : found.map Field.declared = fs.map FieldRun.declared) :
    ∀ f ∈ unseparated fs, f.IsBare := by
  induction fs generalizing found with
  | nil => exact fun f hf => by cases hf
  | cons f fs ih =>
    -- what is read behind the first field, once that field is known
    have tail {x : Field} {back : List Lexeme}
        (hstep : (fields first (fieldsThen (f :: fs) close rest)).outcome =
          (fields first back).outcome.map fun r => ((x :: r.1.1, r.1.2), r.2)) :
        ∃ xs, (fields first back).outcome = .ok ((xs, r.1), r.2) ∧ x.declared = f.declared ∧
          xs.map Field.declared = fs.map FieldRun.declared := by
      rw [hstep] at h
      obtain ⟨⟨⟨xs, c⟩, left⟩, hxs, heq⟩ := except_map_eq_ok.mp h
      cases heq
      obtain ⟨hx, hmore⟩ := List.cons.inj hfound
      exact ⟨xs, hxs, hx, hmore⟩
    by_cases hcomma : f.comma.isSome ∨ fs = []
    · rw [unseparated_of_separated hcomma]
      obtain ⟨x, -, hstep⟩ := fields_of_separated first rest hc hcomma
      obtain ⟨xs, hxs, -, hmore⟩ := tail (congrArg Attempt.outcome hstep)
      exact ih hxs hmore
    · rw [not_or, Option.isSome_iff_ne_none, not_not] at hcomma
      obtain ⟨g, gs, rfl⟩ := List.exists_cons_of_ne_nil hcomma.2
      rw [unseparated_of_comma_none hcomma.1, List.forall_mem_cons]
      by_cases hg : g.IsBare
      · obtain ⟨x, -, hstep⟩ :=
          fields_of_comma_none first gs rest hc hcomma.1 hg
        obtain ⟨xs, hxs, -, hmore⟩ := tail (congrArg Attempt.outcome hstep)
        exact ⟨hg, ih hxs hmore⟩
      · -- the type of the first field cannot be what is written
        exfalso
        rw [fieldsThen_cons, fieldsThen_cons] at tail h
        cases hx : Parser.field (f.lexemes ++ (g.lexemes ++ fieldsThen gs close rest)) with
        | error e =>
          obtain ⟨l, tl, hl, hclose⟩ := f.exists_cons (g.lexemes ++ fieldsThen gs close rest)
          rw [hl] at h hx
          rw [fields_of_error hclose hx] at h
          cases h
        | ok r =>
          obtain ⟨⟨x, following⟩, left⟩ := r
          obtain ⟨xs, -, hdeclared, -⟩ := tail (congrArg Attempt.outcome (fields_lexemes hx))
          exact type_ne_of_not_isBare hcomma.1 hg hx hdeclared

end Fields

/-! ## Structures -/

section Structures

variable {pre : Preamble} {ls rest : List Lexeme} {name : Token} {generics : Generics}
  {o close : Lexeme} {fs : List FieldRun}

/-- A structure with named fields, after its heading. -/
theorem structItem_of_heading {after : List Lexeme}
    (hh : structHeading ls = .ok ((name, generics), o :: after)) (ho : o.token.is "\x7b") :
    structItem pre ls =
      ⟨(fields pre.first after).issues, (fields pre.first after).outcome.map fun r =>
        (structDeclaration pre name generics r.1.1 r.1.2, r.2)⟩ := by
  have hbody : structBody pre.first (o :: after) = fields pre.first after := if_pos ho
  show Attempt.andThen (Attempt.ofExcept (structHeading ls)) _ = _
  rw [hh]
  show Attempt.mk ([] ++ (Attempt.andThen (structBody pre.first (o :: after)) _).issues)
    (Attempt.andThen (structBody pre.first (o :: after)) _).outcome = _
  rw [hbody, List.nil_append, Attempt.andThen]
  cases (fields pre.first after).outcome with
  | error e => rfl
  | ok r => exact congrArg (Attempt.mk · _) (List.append_nil _)

/-- **Structures with missing commas.** Whatever commas between its fields are missing, a structure
is read with the fields as they are written, and with one issue for each missing comma, located at
the name of the field behind it, if and only if no field behind a missing comma has an attribute or
a visibility mark. -/
theorem structItem_missingCommas_iff
    (hh : structHeading ls =
      .ok ((name, generics), o :: (fs.flatMap FieldRun.lexemes ++ close :: rest)))
    (ho : o.token.is "\x7b") (hc : close.token.is "\x7d") :
    (∃ found, found.map Field.declared = fs.map FieldRun.declared ∧
        structItem pre ls = ⟨(unseparated fs).map FieldRun.noComma,
          .ok (structDeclaration pre name generics found close.token, rest)⟩) ↔
      ∀ f ∈ unseparated fs, f.IsBare := by
  rw [structItem_of_heading hh ho]
  constructor
  · rintro ⟨found, hfound, hitem⟩
    obtain ⟨⟨⟨xs, c⟩, left⟩, hxs, heq⟩ := except_map_eq_ok.mp (congrArg Attempt.outcome hitem)
    -- the fields of a declaration are the ones it was made of
    have hfields : xs = found := by
      simp only [structDeclaration, Prod.mk.injEq, Declaration.mk.injEq, Heading.mk.injEq,
        Shape.struct.injEq] at heq
      exact heq.1.1.1.2
    exact isBare_of_fields (r := (c, left)) hc hxs (hfields ▸ hfound)
  · intro h
    obtain ⟨found, hfound, hfields⟩ := exists_fields pre.first rest hc h
    refine ⟨found, hfound, ?_⟩
    rw [show fields pre.first (fs.flatMap FieldRun.lexemes ++ close :: rest) = _ from hfields]
    rfl

end Structures

/-- A structure without a comma in front of its public field. -/
def publicUnseparated : String :=
  "struct S \x7b a: i32 pub b: T \x7d"

/-- A lexeme of a text of one line, without comments. -/
def lexemeAt (offset : Nat) (kind : TokenKind) (text : String) : Lexeme :=
  ⟨[], .onLine offset kind text⟩

/-- The two fields of `publicUnseparated`. -/
def publicPair : List FieldRun :=
  [{ attributes := []
     mark := none
     name := ⟨lexemeAt 11 .identifier "a", rfl⟩
     colon := ⟨lexemeAt 12 .operator ":", rfl⟩
     type := [lexemeAt 14 .identifier "i32"]
     type_ne := List.cons_ne_nil _ _
     type_phrase := .token (by decide) (by decide) .nil
     comma := none },
   { attributes := []
     mark := some ⟨lexemeAt 18 .keyword "pub", rfl⟩
     name := ⟨lexemeAt 22 .identifier "b", rfl⟩
     colon := ⟨lexemeAt 23 .operator ":", rfl⟩
     type := [lexemeAt 25 .identifier "T"]
     type_ne := List.cons_ne_nil _ _
     type_phrase := .token (by decide) (by decide) .nil
     comma := none }]

/-- The public field is not read: its mark becomes part of the type before. -/
theorem not_read_publicUnseparated :
    publicPair.map FieldRun.declared = [("a", "i32", false), ("b", "T", true)] ∧
      ¬ ∃ found, found.map Field.declared = publicPair.map FieldRun.declared ∧
        structItem ⟨(lexemeAt 0 .keyword "struct").token, none, false, false⟩
            (Lexeme.ofTokens (scan publicUnseparated)) =
          ⟨(unseparated publicPair).map FieldRun.noComma,
            .ok (structDeclaration ⟨(lexemeAt 0 .keyword "struct").token, none, false, false⟩
              (lexemeAt 7 .identifier "S").token {} found (lexemeAt 27 .operator "\x7d").token,
              [])⟩ := by
  have hlexemes : Lexeme.ofTokens (scan publicUnseparated) =
      lexemeAt 0 .keyword "struct" :: lexemeAt 7 .identifier "S" :: lexemeAt 9 .operator "\x7b" ::
        (publicPair.flatMap FieldRun.lexemes ++ [lexemeAt 27 .operator "\x7d"]) := by
    decide +kernel
  have hheading : structHeading (Lexeme.ofTokens (scan publicUnseparated)) =
      .ok (((lexemeAt 7 .identifier "S").token, {}), lexemeAt 9 .operator "\x7b" ::
        (publicPair.flatMap FieldRun.lexemes ++ [lexemeAt 27 .operator "\x7d"])) := by
    rw [hlexemes]
    rfl
  refine ⟨rfl, fun h => ?_⟩
  have hbare := (structItem_missingCommas_iff hheading rfl rfl).mp h
  exact nomatch (hbare _ List.mem_cons_self).2

end KlarAudit

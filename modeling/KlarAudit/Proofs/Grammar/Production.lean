import KlarAudit.Proofs.Grammar.Reading
import KlarAudit.Proofs.Grammar.Taken

/-!
# The brackets of each production

Every production of the grammar, described by the brackets that are open before and after it. A
declaration that is read whole leaves no bracket open, a declaration with members leaves the brace
that opens them, and there are two exceptions: a field whose type runs into the next field may stop
inside brackets, and an import may run to the end of the input inside brackets.

## Main results

* `nests_function`, `nests_enumeration`, `nests_constant`, `nests_typeAlias`: declarations read
  whole
* `nests_trait`, `nests_impl`, `nests_module`: declarations with members
* `takes_field`: a field leaves no bracket open unless the comma after it is missing
* `importItem_cases`: an import leaves no bracket open unless it runs to the end of the input
-/

namespace KlarAudit

namespace Parser

/-! ## Attributes and marks -/

theorem nests_attributeGroup (a : List Delimiter) : Nests a attributeGroup fun _ => a := by
  refine (nests_group .bracket a).bind fun g => ?_
  cases g with
  | some _ => exact nests_pure a true
  | none => exact nests_fail _ _ fun ls r h => nomatch h

theorem nests_oneAttribute (a : List Delimiter) : Nests a oneAttribute fun _ => a := by
  refine (nests_accept (by decide) a).bind fun t => ?_
  cases t with
  | some _ => exact (nests_accept (by decide) a).bind fun _ => nests_attributeGroup a
  | none =>
    refine (nests_accept (by decide) a).bind fun t => ?_
    cases t with
    | some _ =>
      exact (nests_expectName _ a).bind fun _ => (nests_group .paren a).bind fun _ =>
        nests_pure a true
    | none => exact nests_pure a false

theorem nests_attributes (a : List Delimiter) : Nests a attributes fun _ => a := by
  intro ls x rest h
  fun_induction attributes ls with
  | case1 ls e he => cases h
  | case2 ls mid he =>
    cases h
    exact nests_oneAttribute a _ _ _ he
  | case3 ls mid he ih =>
    exact (nests_oneAttribute a _ _ _ he).trans (ih h) fun _ _ => Leads.append

theorem nests_visibility (byPlace : Bool) (a : List Delimiter) :
    Nests a (visibility byPlace) fun _ => a := by
  refine (nests_accept (by decide) a).bind fun t => ?_
  cases t with
  | none => exact nests_pure a byPlace
  | some _ => exact (nests_group .paren a).bind fun _ => nests_pure a true

theorem nests_preamble (byPlace : Bool) (l : Lexeme) (a : List Delimiter) :
    Nests a (preamble byPlace l) fun _ => a :=
  (nests_attributes a).bind fun _ => (nests_peek? a).bind fun _ =>
    (nests_visibility byPlace a).bind fun _ => (nests_accept (by decide) a).bind fun _ =>
      nests_pure a _

/-! ## Generic parameters, bounds and types -/

/-- Generic parameters, given what the opening and the closing symbol do. -/
theorem nests_genericsIn {opener closer : String} {a b : List Delimiter}
    (ho : Nests a (accept opener) fun t => if t.isSome then b else a)
    (hc : Nests b (expect closer) fun _ => a) : Nests a (genericsIn opener closer) fun _ => a := by
  refine ho.bind fun t => ?_
  cases t with
  | none => exact nests_pure a none
  | some _ =>
    exact (nests_collect _ _ b).bind fun _ => hc.bind fun _ => nests_pure a _

theorem nests_generics (a : List Delimiter) : Nests a generics fun _ => a := by
  have angle : Nests a (genericsIn "<" ">") fun _ => a := by
    refine nests_genericsIn (b := a) ?_ (nests_expect (by decide) a)
    simpa only [ite_self] using nests_accept (s := "<") (by decide) a
  have square : Nests a (genericsIn "[" "]") fun _ => a :=
    nests_genericsIn (nests_accept_opener .bracket a) (nests_expect_closer .bracket a)
  refine angle.bind fun g => ?_
  cases g with
  | some g => exact nests_pure a g
  | none => exact square.bind fun _ => nests_pure a _

theorem nests_whereBounds (a : List Delimiter) : Nests a whereBounds fun _ => a := by
  refine (nests_accept (by decide) a).bind fun t => ?_
  cases t with
  | none => exact nests_pure a []
  | some _ => exact (nests_collect _ _ a).bind fun _ => nests_pure a _

theorem nests_typeAfter {s : String} (hs : Plain s) (terminators : List String)
    (a : List Delimiter) : Nests a (typeAfter s terminators) fun _ => a := by
  refine (nests_accept hs a).bind fun t => ?_
  cases t with
  | none => exact nests_pure a none
  | some _ => exact (nests_collect _ _ a).bind fun _ => nests_pure a _

/-! ## Enumerations and constants -/

theorem nests_payload (a : List Delimiter) : Nests a payload fun _ => a := by
  refine (nests_group .paren a).bind fun g => ?_
  cases g with
  | some _ => exact nests_pure a _
  | none => exact (nests_group .brace a).bind fun _ => nests_pure a _

theorem nests_valueBefore (terminators : List String) (a : List Delimiter) :
    Nests a (valueBefore terminators) fun _ => a := by
  refine (nests_accept (by decide) a).bind fun t => ?_
  cases t with
  | none => exact nests_pure a []
  | some _ => exact nests_collect _ _ a

theorem nests_variant (a : List Delimiter) : Nests a variant fun _ => a :=
  (nests_attributes a).bind fun _ => (nests_expectName _ a).bind fun _ =>
    (nests_payload a).bind fun _ => (nests_valueBefore _ a).bind fun _ => nests_pure a _

/-- The variants of an enumeration end with the brace that closes them. -/
theorem nests_variants (first : Token) (a : List Delimiter) :
    Nests (.brace :: a) (variants first) fun _ => a := by
  intro ls r rest h
  refine variants_induction (P := fun ls _ rest => Between ls rest (Leads (.brace :: a) a))
    ?close ?comma ?last h
  case close => exact fun hc => ⟨[_], rfl, leads_of_closer .brace hc a⟩
  case comma =>
    intro l tail v left r rest _ hv hn ih
    have hcomma := leads_of_nextIs hn (by decide) (.brace :: a)
    refine (nests_variant (.brace :: a) _ _ _ hv).trans ?_ fun _ _ => Leads.append
    exact hcomma.trans ih fun _ _ => Leads.append
  case last =>
    intro l tail v left brace rest _ hv _ hr
    have hclose := nests_expect_closer .brace a _ _ _ hr
    exact (nests_variant (.brace :: a) _ _ _ hv).trans hclose fun _ _ => Leads.append

theorem nests_enumeration (pre : Preamble) : Nests [] (enumeration pre) fun _ => [] :=
  (nests_expect (by decide) []).bind fun _ => (nests_expectName _ []).bind fun _ =>
    (nests_generics []).bind fun _ => (nests_whereBounds []).bind fun _ =>
      (nests_expect_opener .brace []).bind fun _ => (nests_variants _ []).bind fun _ =>
        nests_pure [] _

theorem nests_constant {keyword : String} (hk : Plain keyword) (pre : Preamble) :
    Nests [] (constant keyword pre) fun _ => [] :=
  (nests_expect hk []).bind fun _ => (nests_accept (by decide) []).bind fun _ =>
    (nests_expectName _ []).bind fun _ => (nests_typeAfter (by decide) _ []).bind fun _ =>
      (nests_valueBefore _ []).bind fun _ => (nests_expect (by decide) []).bind fun _ =>
        nests_pure [] _

/-! ## Functions -/

/-- A parameter list ends with the bracket that closes it. -/
theorem nests_slots (a : List Delimiter) : Nests (.paren :: a) slots fun _ => a := by
  intro ls ss rest h
  refine slots_induction (P := fun ls _ rest => Between ls rest (Leads (.paren :: a) a))
    ?close ?comma ?last h
  case close => exact fun hn => leads_of_nextIs_closer .paren hn a
  case comma =>
    intro ls run left here more rest _ hrun _ hn ih
    have hcomma := leads_of_nextIs hn (by decide) (.paren :: a)
    refine (nests_collect _ _ (.paren :: a) _ _ _ hrun).trans ?_ fun _ _ => Leads.append
    exact hcomma.trans ih fun _ _ => Leads.append
  case last =>
    intro ls run left here bracket rest _ hrun _ _ hr
    have hclose := nests_expect_closer .paren a _ _ _ hr
    exact (nests_collect _ _ (.paren :: a) _ _ _ hrun).trans hclose fun _ _ => Leads.append

theorem nests_functionBody (name : String) (a : List Delimiter) :
    Nests a (functionBody name) fun _ => a := by
  refine (nests_group .brace a).bind fun g => ?_
  cases g with
  | some _ => exact nests_pure a _
  | none =>
    refine (nests_accept (by decide) a).bind fun t => ?_
    cases t with
    | some _ => exact nests_pure a _
    | none => exact nests_fail _ _ fun ls r h => nomatch h

theorem nests_function (pre : Preamble) : Nests [] (function pre) fun _ => [] :=
  (nests_expect (by decide) []).bind fun _ => (nests_expectName _ []).bind fun _ =>
    (nests_generics []).bind fun _ => (nests_expect_opener .paren []).bind fun _ =>
      (nests_slots []).bind fun _ => (nests_typeAfter (by decide) _ []).bind fun _ =>
        (nests_whereBounds []).bind fun _ => (nests_functionBody _ []).bind fun _ =>
          nests_pure [] _

/-! ## Structures -/

/-- **The type of a field** is all that is taken. It nests, but where the comma after the field is
missing it may stop inside brackets. -/
theorem takes_fieldType (name : Token) (isPublic : Bool) :
    Takes (fieldType name isPublic) fun r ts =>
      (∃ t us, ts = t :: us ∧ r.1 = namedField name isPublic t us) ∧
      ∃ stack, nestAll [] ts = some stack ∧ (r.2 = none → stack = []) := by
  rintro ls ⟨f, following⟩ rest h
  obtain ⟨t, ts, left, hcollect, hcases⟩ := fieldType_eq_ok h
  obtain ⟨taken, rfl, hrun, hw⟩ := takes_collect _ _ _ _ _ hcollect
  rw [← hrun] at hw
  rcases hcases with ⟨-, rfl, rfl, rfl⟩ | ⟨k, next, -, hnext, rfl, rfl, rfl⟩
  · exact ⟨taken, rfl, ⟨t, ts, hrun, rfl⟩, [], hrun ▸ hw, fun _ => rfl⟩
  · -- the colon shows the next field, whose first token stands behind the type
    have hle : k + 1 ≤ taken.length := by
      have := congrArg List.length hrun
      have := (List.getElem?_eq_some_iff.mp hnext).1
      simp only [List.length_map, List.length_cons] at *
      omega
    refine ⟨taken.take (k + 1), ?_, ⟨t, ts.take k, ?_, rfl⟩, ?_⟩
    · rw [List.drop_append_of_le_length hle, ← List.append_assoc, List.take_append_drop]
    · rw [List.map_take, hrun, List.take_succ_cons]
    · -- the type is cut short, and what is cut off nests after it
      rw [← List.take_append_drop (k + 1) (taken.map Lexeme.token)] at hw
      obtain ⟨stack, hs⟩ := exists_nestAll_of_append hw
      exact ⟨stack, by rw [List.map_take]; exact hs, nofun⟩

/-- **A field** leaves no bracket open unless the comma after it is missing. -/
theorem takes_field :
    Takes field fun r ts => (∀ t ∈ ts, t.Genuine) →
      ∃ stack, nestAll [] ts = some stack ∧ (r.2 = none → stack = []) := by
  have step {α : Type} {p : Parser α} {f : α → Parser (Field × Option Token)}
      (hp : Nests [] p fun _ => [])
      (hf : ∀ x, Takes (f x) fun r ts => (∀ t ∈ ts, t.Genuine) →
        ∃ stack, nestAll [] ts = some stack ∧ (r.2 = none → stack = [])) :
      Takes (p >>= f) fun r ts => (∀ t ∈ ts, t.Genuine) →
        ∃ stack, nestAll [] ts = some stack ∧ (r.2 = none → stack = []) := by
    refine Takes.bind hp hf fun x r ts us hts hus hg => ?_
    have hw := wellNested_iff_shifts.mpr (hts fun t ht => hg t (List.mem_append_left _ ht))
    obtain ⟨stack, hs, hn⟩ := hus fun t ht => hg t (List.mem_append_right _ ht)
    exact ⟨stack, by rw [nestAll_append, show nestAll [] ts = some [] from hw]; exact hs, hn⟩
  exact step (nests_attributes []) fun _ => step (nests_accept (by decide) []) fun _ =>
    step (nests_expectName _ []) fun _ => step (nests_expect (by decide) []) fun _ =>
      (takes_fieldType _ _).mono fun _ _ h _ => h.2

theorem afterComma_cases (ls : List Lexeme) :
    afterComma ls = ls ∨ ∃ l, ls = l :: afterComma ls ∧ l.token.is "," := by
  unfold afterComma
  split
  · rename_i h
    exact .inr (eq_cons_of_nextIs h)
  · exact .inl rfl

/-- A comma that may be missing is no bracket. -/
theorem leads_afterComma (ls : List Lexeme) (a : List Delimiter) :
    Between ls (afterComma ls) (Leads a a) := by
  rcases afterComma_cases ls with h | ⟨l, h, hc⟩
  · rw [h]
    exact .refl ls (Leads.nil a)
  · exact ⟨[l], h, leads_of_is hc (by decide) a⟩

theorem nests_structHeading (a : List Delimiter) : Nests a structHeading fun _ => a :=
  (nests_expect (by decide) a).bind fun _ => (nests_expectName _ a).bind fun _ =>
    (nests_generics a).bind fun _ => (nests_whereBounds a).bind fun _ => nests_pure a _

theorem nests_tupleBody (a : List Delimiter) : Nests a tupleBody fun _ => a := by
  refine (nests_accept_opener .paren a).bind fun t => ?_
  cases t with
  | none => exact (nests_expect (by decide) a).bind fun _ => nests_pure a _
  | some _ =>
    exact (nests_collect _ _ _).bind fun _ => (nests_expect_closer .paren a).bind fun _ =>
      (nests_expect (by decide) a).bind fun _ => nests_pure a _

/-! ## Declarations with members -/

theorem nests_trait (pre : Preamble) : Nests [] (trait pre) fun _ => [.brace] :=
  (nests_expect (by decide) []).bind fun _ => (nests_expectName _ []).bind fun _ =>
    (nests_generics []).bind fun _ => (nests_typeAfter (by decide) _ []).bind fun _ =>
      (nests_whereBounds []).bind fun _ => (nests_expect_opener .brace []).bind fun _ =>
        nests_pure _ _

theorem nests_implGenerics (keyword : Token) (a : List Delimiter) :
    Nests a (implGenerics keyword) fun _ => a := by
  refine (nests_peek? a).bind fun next => ?_
  split
  · exact nests_generics a
  · exact nests_pure a _

theorem nests_implTarget (keyword : Token) (a : List Delimiter) :
    Nests a (implTarget keyword) fun _ => a := by
  refine (nests_collect _ _ a).bind fun run => (nests_typeAfter (by decide) _ a).bind fun t => ?_
  split
  · exact nests_fail _ _ fun ls r h => nomatch h
  · exact nests_pure a _

theorem nests_impl (pre : Preamble) : Nests [] (impl pre) fun _ => [.brace] :=
  (nests_expect (by decide) []).bind fun _ => (nests_implGenerics _ []).bind fun _ =>
    (nests_implTarget _ []).bind fun _ => (nests_whereBounds []).bind fun _ =>
      (nests_expect_opener .brace []).bind fun _ => nests_pure _ _

/-- The pairs that are open after a declaration has been read as far as its opening goes. -/
def openAfterOpening : Opening → List Delimiter
  | .complete _ => []
  | .block _ => [.brace]

theorem nests_module {keyword : String} (hk : Plain keyword) (pre : Preamble) :
    Nests [] (module keyword pre) openAfterOpening := by
  refine (nests_expect hk []).bind fun _ => (nests_expectName _ []).bind fun _ =>
    (nests_accept (by decide) []).bind fun t => ?_
  cases t with
  | some _ => exact nests_pure_to openAfterOpening _
  | none => exact (nests_expect_opener .brace []).bind fun _ => nests_pure_to openAfterOpening _

/-! ## Imports and aliases -/

theorem nests_typeAlias : Nests [] typeAlias fun _ => [] :=
  (nests_expect (by decide) []).bind fun _ => (nests_collect _ _ []).bind fun _ =>
    (nests_expect (by decide) []).bind fun _ => nests_pure [] _

end Parser

/-- **The tokens `ts` never end an import** that starts on the given line, inside the brackets
`stack`: they leave brackets open, and wherever no bracket is open the next token is neither a
semicolon nor on another line. -/
def NeverEnds (line : Nat) (stack ts : List Token) : Prop :=
  (∃ o outer, nestAll stack ts = some (o :: outer)) ∧
    ∀ before t after, ts = before ++ t :: after → nestAll stack before = some [] →
      ¬ t.is ";" ∧ t.line = line

/-- **An import that is never finished**: the keyword of an import and tokens that never end it. -/
def UnfinishedImport (ts : List Token) : Prop :=
  ∃ head rest, ts = head :: rest ∧ head.isKeywordIn ["use", "import"] ∧
    NeverEnds head.line [] rest

namespace Parser

/-- What follows the keyword of an import nests, unless the input ends first. -/
theorem importFrom_cases {line : Nat} {stack : List Token} {ls rest : List Lexeme}
    (h : importFrom line stack ls = .ok ((), rest)) :
    Between ls rest fun ts =>
      nestAll stack ts = some [] ∨ rest = [] ∧ NeverEnds line stack ts := by
  induction ls generalizing stack with
  | nil =>
    cases h
    cases stack with
    | nil => exact ⟨[], rfl, .inl rfl⟩
    | cons o outer => exact ⟨[], rfl, .inr ⟨rfl, ⟨o, outer, rfl⟩, by simp⟩⟩
  | cons l ls ih =>
    simp only [importFrom, Bool.and_eq_true, List.isEmpty_iff, bne_iff_ne] at h
    split at h
    · rename_i hs
      cases h
      obtain ⟨rfl, hs⟩ := hs
      refine ⟨[l], rfl, .inl ?_⟩
      exact wellNested_iff_shifts.mpr (shifts_of_is hs (by decide) [])
    · rename_i hsemi
      split at h
      · rename_i hs
        cases h
        exact ⟨[], rfl, .inl (by rw [hs.1]; rfl)⟩
      · rename_i hline
        split at h
        · cases h
        · rename_i stack' hn
          obtain ⟨taken, rfl, hcases⟩ := ih h
          refine ⟨l :: taken, rfl, ?_⟩
          rw [List.map_cons]
          -- the token has neither ended the import nor stood on another line outside brackets
          rcases hcases with hend | ⟨hrest, ⟨o, outer, hopen⟩, hnever⟩
          · exact .inl (by rw [nestAll_cons, hn]; exact hend)
          · refine .inr ⟨hrest, ⟨o, outer, by rw [nestAll_cons, hn]; exact hopen⟩, ?_⟩
            intro before t after hts hb
            cases before with
            | nil =>
              cases hts
              cases hb
              exact ⟨fun k => hsemi ⟨rfl, k⟩, Decidable.byContradiction fun k => hline ⟨rfl, k⟩⟩
            | cons b before =>
              rw [List.cons_append, List.cons.injEq] at hts
              obtain ⟨rfl, hts⟩ := hts
              rw [nestAll_cons, hn] at hb
              exact hnever before t after hts hb

/-- **An import** leaves no bracket open unless it takes all the input and never ends. -/
theorem importItem_cases {keyword : String} (hk : Plain keyword) {l : Lexeme}
    {tail rest : List Lexeme} (h : importItem keyword (l :: tail) = .ok ((), rest)) :
    Between (l :: tail) rest (Leads [] []) ∨
      rest = [] ∧ NeverEnds l.token.line [] (tail.map Lexeme.token) := by
  obtain ⟨head, mid, hhead, h⟩ := bind_eq_ok.mp h
  simp only [expect] at hhead
  split at hhead
  · rename_i hl
    cases hhead
    obtain ⟨taken, rfl, hcases⟩ := importFrom_cases h
    rcases hcases with hnest | ⟨rfl, hnever⟩
    · refine .inl ⟨l :: taken, rfl, ?_⟩
      exact (leads_of_is hl hk []).append (WellNested.leads hnest [])
    · exact .inr ⟨rfl, by simpa using hnever⟩
  · cases hhead

end Parser

/-! ## Any declaration -/

theorem Token.introduces?_eq_some {t : Token} {i : Introducer} (h : t.introduces? = some i) :
    t.kind = .keyword ∧ (t.text, i) ∈ Introducer.keywords := by
  unfold introduces? at h
  split at h
  · rename_i hk
    obtain ⟨before, after, hsplit, -⟩ := List.lookup_eq_some_iff.mp h
    exact ⟨hk, by simp [hsplit]⟩
  · cases h

theorem Introducer.plain_of_mem {p : String × Introducer} (h : p ∈ keywords) : Plain p.1 :=
  (by decide : ∀ p ∈ keywords, Plain p.1) p h

theorem Token.isKeywordIn_of_introduces? {t : Token} (h : t.introduces? = some .importItem) :
    t.isKeywordIn ["use", "import"] := by
  obtain ⟨hk, hm⟩ := introduces?_eq_some h
  have key : ∀ p ∈ Introducer.keywords, p.2 = .importItem → ["use", "import"].contains p.1 := by
    decide
  simpa [isKeywordIn, hk] using key _ hm rfl

/-- After the preamble comes a keyword, and the parser is the one for this keyword. -/
theorem exists_introducer {pre : Preamble} {ls rest : List Lexeme} {o : Opening}
    (h : (openAfter pre ls).outcome = .ok (o, rest)) :
    ∃ l tail i, ls = l :: tail ∧ l.token.introduces? = some i ∧
      openAfter pre ls = i.open l.token pre ls := by
  cases ls with
  | nil => cases h
  | cons l tail =>
    cases hi : l.token.introduces? with
    | none =>
      simp only [openAfter, hi] at h
      cases h
    | some i => exact ⟨l, tail, i, rfl, hi, by simp only [openAfter, hi]⟩

/-- **What a declaration takes after its preamble**: it nests up to its members, or it is a
structure, or it is an import that never ends and takes all the input. -/
theorem openAfter_cases {pre : Preamble} {ls rest : List Lexeme} {o : Opening}
    (h : (openAfter pre ls).outcome = .ok (o, rest)) :
    (Between ls rest (Parser.Leads [] (Parser.openAfterOpening o)) ∧
      (openAfter pre ls).issues = [] ∧ ¬ nextIs "struct" ls) ∨
    (∃ d, o = .complete (some d) ∧ nextIs "struct" ls ∧ openAfter pre ls =
      (fun (d, rest) => (.complete (some d), rest)) <$> structItem pre ls ∧
      (structItem pre ls).outcome = .ok (d, rest)) ∨
    (o = .complete none ∧ rest = [] ∧ (openAfter pre ls).issues = [] ∧
      UnfinishedImport (ls.map Lexeme.token)) := by
  obtain ⟨l, tail, i, rfl, hi, hopen⟩ := exists_introducer h
  obtain ⟨hkind, hmem⟩ := Token.introduces?_eq_some hi
  have hplain : Plain l.token.text := Introducer.plain_of_mem hmem
  rw [hopen] at h ⊢
  have hstruct (hne : i ≠ .struct) : ¬ nextIs "struct" (l :: tail) := by
    intro hn
    have htext : l.token.text = "struct" := Token.text_of_is (by simpa [nextIs] using hn)
    exact hne ((by decide : ∀ p ∈ Introducer.keywords, p.1 = "struct" → p.2 = .struct) _ hmem
      htext)
  -- all introducers but two run a parser that nests, and only wrap what it reads
  have lift {α : Type} {f : α → Opening} {p : Parser α}
      (hp : Parser.Nests [] p fun a => Parser.openAfterOpening (f a))
      (h : (Attempt.ofParser (f <$> p) (l :: tail)).outcome = .ok (o, rest)) :
      Between (l :: tail) rest (Parser.Leads [] (Parser.openAfterOpening o)) := by
    obtain ⟨a, ha, rfl⟩ := Parser.map_eq_ok.mp h
    exact hp _ _ _ ha
  cases i with
  | function => exact .inl ⟨lift (Parser.nests_function pre) h, rfl, hstruct (by decide)⟩
  | struct =>
    obtain ⟨⟨d, mid⟩, hd, he⟩ := Attempt.outcome_map_eq_ok.mp h
    cases he
    have htext : l.token.text = "struct" :=
      (by decide : ∀ p ∈ Introducer.keywords, p.2 = .struct → p.1 = "struct") _ hmem rfl
    refine .inr (.inl ⟨d, rfl, ?_, rfl, hd⟩)
    simp [nextIs, Token.is, hkind, htext, TokenKind.isStructural]
  | enumeration => exact .inl ⟨lift (Parser.nests_enumeration pre) h, rfl, hstruct (by decide)⟩
  | trait => exact .inl ⟨lift (Parser.nests_trait pre) h, rfl, hstruct (by decide)⟩
  | impl => exact .inl ⟨lift (Parser.nests_impl pre) h, rfl, hstruct (by decide)⟩
  | constant => exact .inl ⟨lift (Parser.nests_constant hplain pre) h, rfl, hstruct (by decide)⟩
  | module => exact .inl ⟨Parser.nests_module hplain pre _ _ _ h, rfl, hstruct (by decide)⟩
  | importItem =>
    obtain ⟨⟨⟩, hp, rfl⟩ := Parser.map_eq_ok.mp h
    rcases Parser.importItem_cases hplain hp with hbetween | ⟨rfl, hnever⟩
    · exact .inl ⟨hbetween, rfl, hstruct (by decide)⟩
    · exact .inr (.inr ⟨rfl, rfl, rfl, _, _, rfl, Token.isKeywordIn_of_introduces? hi, hnever⟩)
  | typeAlias => exact .inl ⟨lift Parser.nests_typeAlias h, rfl, hstruct (by decide)⟩

/-- A declaration is its preamble, which leaves no bracket open, and what follows. -/
theorem opening_split {byPlace : Bool} {ls rest : List Lexeme} {o : Opening}
    (h : (opening byPlace ls).outcome = .ok (o, rest)) :
    ∃ l tail pre after, ls = l :: tail ∧ Parser.preamble byPlace l ls = .ok (pre, after) ∧
      Between ls after (Parser.Leads [] []) ∧
      (openAfter pre after).outcome = .ok (o, rest) ∧
      (opening byPlace ls).issues = (openAfter pre after).issues := by
  cases ls with
  | nil => cases h
  | cons l tail =>
    obtain ⟨⟨pre, after⟩, hpre, h⟩ := Attempt.outcome_bind_eq_ok.mp h
    exact ⟨l, tail, pre, after, rfl, hpre, Parser.nests_preamble byPlace l [] _ _ _ hpre, h,
      Attempt.issues_ofParser_bind hpre _⟩

/-- Of a declaration with members, what is taken nests up to the brace that opens them. -/
theorem opening_of_block {byPlace : Bool} {ls rest : List Lexeme} {b : Block}
    (h : (opening byPlace ls).outcome = .ok (.block b, rest)) :
    Between ls rest (Parser.Leads [] [.brace]) ∧ (opening byPlace ls).issues = [] := by
  obtain ⟨l, tail, pre, after, -, -, hpre, ho, hi⟩ := opening_split h
  rcases openAfter_cases ho with ⟨hafter, hi', -⟩ | ⟨d, hd, -⟩ | ⟨hd, -⟩
  · exact ⟨hpre.trans hafter fun _ _ => Parser.Leads.append, by rw [hi, hi']⟩
  · cases hd
  · cases hd

end KlarAudit

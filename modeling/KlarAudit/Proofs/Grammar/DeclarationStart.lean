import KlarAudit.Proofs.Arena.BodyTokens
import KlarAudit.Proofs.Grammar.MissingComma

/-!
# How declarations start

A declaration starts with its attributes, and behind them stands a mark or its keyword. The
documentation of the declaration is what stands above its first lexeme or, failing that, above the
first one behind the attributes. An implementation has none.

## Main definitions

* `DeclStart`: attributes as they are written, and the lexeme behind them
* `Declaration.Begins first doc? d`: the declaration begins at a token and has this documentation

## Main results

* `exists_attributes`: what the reader of attributes takes is attributes
* `exists_start_of_opening`: every declaration that is opened has a start
-/

namespace KlarAudit

/-! ## Attributes that have been read -/

namespace Parser

variable {s : String} {ls rest : List Lexeme} {t : Token}

theorem eq_cons_of_accept (h : accept s ls = .ok (some t, rest)) :
    ∃ l, ls = l :: rest ∧ l.token = t ∧ t.is s := by
  obtain ⟨taken, rfl, htaken, ht⟩ := takes_accept s _ _ _ h
  obtain ⟨l, rfl, hl⟩ := List.map_eq_singleton_iff.mp htaken
  exact ⟨l, rfl, hl, ht t rfl⟩

theorem eq_of_accept (h : accept s ls = .ok (none, rest)) : ls = rest := by
  obtain ⟨taken, rfl, htaken, -⟩ := takes_accept s _ _ _ h
  rw [List.map_eq_nil_iff.mp htaken, List.nil_append]

/-- A group that has been read, from its opening bracket to the partner. -/
theorem exists_of_group {d : Delimiter} {o c : Token} (hg : ∀ l ∈ ls, l.token.Genuine)
    (h : group d.opener ls = .ok (some (o, c), rest)) :
    ∃ l inner m, ls = l :: (inner ++ m :: rest) ∧ l.token.opens? = some d ∧
      WellNested (inner.map Lexeme.token) ∧ m.token.closes? = some d := by
  obtain ⟨taken, rfl, htaken⟩ := takes_group_nested d _ _ _ h
  have hgenuine : ∀ t ∈ taken.map Lexeme.token, t.Genuine := by
    intro t ht
    obtain ⟨l, hl, rfl⟩ := List.mem_map.mp ht
    exact hg l (List.mem_append_left _ hl)
  obtain ⟨inner, htokens, ho, hinner, hc⟩ := htaken hgenuine o c rfl
  obtain ⟨l, more, rfl, rfl, hmore⟩ := List.map_eq_cons_iff.mp htokens
  obtain ⟨inside, last, rfl, rfl, hlast⟩ := List.map_eq_append_iff.mp hmore
  obtain ⟨m, rfl, rfl⟩ := List.map_eq_singleton_iff.mp hlast
  exact ⟨l, inside, m, by simp, ho, hinner, hc⟩

theorem eq_of_group (h : group s ls = .ok (none, rest)) : ls = rest := by
  obtain ⟨taken, rfl, ⟨-, htaken⟩ | ⟨o, c, more, ⟨⟩, -⟩⟩ := takes_group s _ _ _ h
  rw [List.map_eq_nil_iff.mp htaken, List.nil_append]

/-- The brackets of an attribute. -/
theorem exists_of_attributeGroup {b : Bool} (hg : ∀ l ∈ ls, l.token.Genuine)
    (h : attributeGroup ls = .ok (b, rest)) :
    b = true ∧ ∃ o inner c, ls = o :: (inner ++ c :: rest) ∧ o.token.opens? = some .bracket ∧
      WellNested (inner.map Lexeme.token) ∧ c.token.closes? = some .bracket := by
  obtain ⟨g, left, hgroup, h⟩ := bind_eq_ok.mp h
  cases g with
  | none => cases h
  | some g =>
    cases h
    exact ⟨rfl, exists_of_group (d := .bracket) hg hgroup⟩

/-- **What the reader of an attribute takes** is nothing, or an attribute as it is written. -/
theorem oneAttribute_cases {b : Bool} (hg : ∀ l ∈ ls, l.token.Genuine)
    (h : oneAttribute ls = .ok (b, rest)) :
    b = false ∧ ls = rest ∨ b = true ∧ ∃ a, IsAttribute a ∧ ls = a ++ rest := by
  obtain ⟨t, behind, ht, hbehind⟩ := bind_eq_ok.mp h
  cases t with
  | some t =>
    -- behind `#` brackets are required
    obtain ⟨hash, rfl, rfl, hhash⟩ := eq_cons_of_accept ht
    have hg := List.forall_mem_of_forall_mem_cons hg
    obtain ⟨u, brackets, hu, hgroup⟩ := bind_eq_ok.mp hbehind
    cases u with
    | none =>
      obtain rfl := eq_of_accept hu
      obtain ⟨rfl, o, inner, c, rfl, ho, hinner, hc⟩ := exists_of_attributeGroup hg hgroup
      have hattribute := @IsAttribute.bracketed hash o c none inner hhash (by simp) ho hinner hc
      exact .inr ⟨rfl, _, hattribute, by simp⟩
    | some u =>
      obtain ⟨bang, rfl, rfl, hbang⟩ := eq_cons_of_accept hu
      have hg := List.forall_mem_of_forall_mem_cons hg
      obtain ⟨rfl, o, inner, c, rfl, ho, hinner, hc⟩ := exists_of_attributeGroup hg hgroup
      have hattribute := @IsAttribute.bracketed hash o c bang inner hhash (by simpa) ho hinner hc
      exact .inr ⟨rfl, _, hattribute, by simp⟩
  | none =>
    obtain rfl := eq_of_accept ht
    obtain ⟨u, named, hu, hnamed⟩ := bind_eq_ok.mp hbehind
    cases u with
    | none =>
      cases hnamed
      exact .inl ⟨rfl, eq_of_accept hu⟩
    | some u =>
      -- behind `@` a name is required, but no arguments
      obtain ⟨mark, rfl, rfl, hmark⟩ := eq_cons_of_accept hu
      obtain ⟨n, arguments, hn, harguments⟩ := bind_eq_ok.mp hnamed
      obtain ⟨taken, rfl, htaken, hname⟩ := takes_expectName _ _ _ _ hn
      obtain ⟨name, rfl, rfl⟩ := List.map_eq_singleton_iff.mp htaken
      obtain ⟨g, left, hgroup, hleft⟩ := bind_eq_ok.mp harguments
      cases hleft
      cases g with
      | none =>
        obtain rfl := eq_of_group hgroup
        exact .inr ⟨rfl, _, .named hmark hname, rfl⟩
      | some g =>
        have hg : ∀ l ∈ arguments, l.token.Genuine := fun l hl => hg l (by simp [hl])
        obtain ⟨o, inner, c, rfl, ho, hinner, hc⟩ := exists_of_group (d := .paren) hg hgroup
        exact .inr ⟨rfl, _, .applied hmark hname ho hinner hc, by simp⟩

/-- **What the reader of attributes takes** is attributes. -/
theorem exists_attributes (hg : ∀ l ∈ ls, l.token.Genuine) (h : attributes ls = .ok ((), rest)) :
    ∃ as : List {a : List Lexeme // IsAttribute a}, ls = (as.map Subtype.val).flatten ++ rest := by
  fun_induction attributes ls with
  | case1 ls e he => cases h
  | case2 ls mid he =>
    cases h
    obtain ⟨-, hls⟩ | ⟨⟨⟩, -⟩ := oneAttribute_cases hg he
    exact ⟨[], hls⟩
  | case3 ls mid he ih =>
    obtain ⟨⟨⟩, -⟩ | ⟨-, a, ha, rfl⟩ := oneAttribute_cases hg he
    obtain ⟨as, rfl⟩ := ih (fun l hl => hg l (List.mem_append_right _ hl)) h
    exact ⟨⟨a, ha⟩ :: as, by simp⟩

end Parser

/-! ## The start of a declaration -/

/-- What may stand behind the attributes: the marks and the keywords that introduce declarations. -/
def startWords : List String :=
  "pub" :: "unsafe" :: Introducer.keywords.map (·.1)

/-- A token as a lexeme without comments. -/
def Lexeme.alone (t : Token) : Lexeme :=
  ⟨[], t⟩

theorem map_token_map_alone (ts : List Token) : (ts.map Lexeme.alone).map Lexeme.token = ts := by
  rw [List.map_map]
  exact List.map_id ts

/-- Whether something is an attribute does not depend on comments. -/
theorem IsAttribute.map_alone {a : List Lexeme} (h : IsAttribute a) :
    IsAttribute ((a.map Lexeme.token).map Lexeme.alone) := by
  have hinner {inner : List Lexeme} (hi : WellNested (inner.map Lexeme.token)) :
      WellNested (((inner.map Lexeme.token).map Lexeme.alone).map Lexeme.token) := by
    rwa [map_token_map_alone]
  cases h with
  | @bracketed hash o c bang inner hh hb ho hi hc =>
    have hattribute := @IsAttribute.bracketed (.alone hash.token) (.alone o.token)
      (.alone c.token) (bang.map fun b => .alone b.token) _ hh ?_ ho (hinner hi) hc
    · cases bang <;> simpa [Lexeme.alone] using hattribute
    · rintro _ hbang
      obtain ⟨b, hb', rfl⟩ := Option.map_eq_some_iff.mp hbang
      exact hb b hb'
  | named hm hn => exact .named hm hn
  | @applied mark name o c inner hm hn ho hi hc =>
    have hattribute := @IsAttribute.applied (.alone mark.token) (.alone name.token)
      (.alone o.token) (.alone c.token) _ hm hn ho (hinner hi) hc
    simpa using hattribute

/-- **The reader of attributes comes to their end**, whatever comments there are. -/
theorem attributes_of_startWord {as : List {a : List Lexeme // IsAttribute a}} {next : Token}
    {after : List Token} (hnext : ∃ w ∈ startWords, next.is w) :
    Parser.attributes
        (((as.map Subtype.val).flatten.map Lexeme.token ++ next :: after).map Lexeme.alone) =
      .ok ((), (next :: after).map Lexeme.alone) := by
  -- the first two would start another attribute, the last one the arguments of the one before
  have hword : ∀ s ∈ ["#", "@", "("], ¬ nextIs s ((next :: after).map Lexeme.alone) := by
    intro s hs hn
    obtain ⟨w, hw, hwis⟩ := hnext
    have hnext : next.is s := by simpa [nextIs, Lexeme.alone] using hn
    have hsame : w = s := (Token.text_of_is hwis).symm.trans (Token.text_of_is hnext)
    exact (by decide : ∀ s ∈ ["#", "@", "("], s ∉ startWords) s hs (hsame ▸ hw)
  have hsplit : ((as.map Subtype.val).flatten.map Lexeme.token ++ next :: after).map Lexeme.alone =
      (as.map fun a => (a.1.map Lexeme.token).map Lexeme.alone).flatten ++
        (next :: after).map Lexeme.alone := by
    simp [List.map_flatten, Function.comp_def]
  rw [hsplit]
  refine attributes_of_isAttribute ?_ (hword _ (by simp)) (hword _ (by simp)) (hword _ (by simp))
  intro a ha
  obtain ⟨b, -, rfl⟩ := List.mem_map.mp ha
  exact b.2.map_alone

/-- **The start of a declaration**: its attributes, and the first lexeme behind them. -/
structure DeclStart where
  /-- The attributes. -/
  attributes : List {a : List Lexeme // IsAttribute a}
  /-- The first mark, or the keyword. -/
  next : {l : Lexeme // ∃ w ∈ startWords, l.token.is w}

namespace DeclStart

/-- The lexemes of the attributes. -/
def front (s : DeclStart) : List Lexeme :=
  (s.attributes.map Subtype.val).flatten

/-- All lexemes of the start. -/
def lexemes (s : DeclStart) : List Lexeme :=
  s.front ++ [s.next.1]

/-- The first lexeme. -/
def first (s : DeclStart) : Lexeme :=
  s.front.headD s.next.1

/-- The documentation above the first lexeme or, failing that, above the one behind the
attributes. -/
def doc? (s : DeclStart) : Option DocComment :=
  s.first.doc?.or s.next.1.doc?

theorem head?_lexemes (s : DeclStart) : s.lexemes.head? = some s.first := by
  unfold lexemes first
  cases s.front <;> rfl

end DeclStart

/-- The declaration is an implementation. -/
def Shape.isImpl : Shape → Bool
  | .impl .. => true
  | _ => false

/-- **A declaration begins at a token**, and it has the given documentation unless it is an
implementation. -/
structure Declaration.Begins (first : Token) (doc? : Option DocComment) (d : Declaration) :
    Prop where
  /-- The span starts with the token. -/
  span : d.span.start = first.start
  /-- The documentation. -/
  doc : d.doc = if d.shape.isImpl then none else doc?

/-- **What is opened begins at a token**, whether complete or with members to follow. -/
def Opening.Begins (first : Token) (doc? : Option DocComment) : Opening → Prop
  | .complete whole? => ∀ d : Declaration, whole? = some d → d.Begins first doc?
  | .block b => ∀ close, (b.declaration close).Begins first doc?

namespace Parser

variable (pre : Preamble)

theorem begins_function : Yields (function pre) (·.Begins pre.first pre.doc) :=
  .bind fun _ => .bind fun _ => .bind fun _ => .bind fun _ => .bind fun _ => .bind fun _ =>
    .bind fun _ => .bind fun _ => yields_pure ⟨rfl, rfl⟩

theorem begins_enumeration : Yields (enumeration pre) (·.Begins pre.first pre.doc) :=
  .bind fun _ => .bind fun _ => .bind fun _ => .bind fun _ => .bind fun _ => .bind fun _ =>
    yields_pure ⟨rfl, rfl⟩

theorem begins_constant (keyword : String) :
    Yields (constant keyword pre) (·.Begins pre.first pre.doc) :=
  .bind fun _ => .bind fun _ => .bind fun _ => .bind fun _ => .bind fun _ => .bind fun _ =>
    yields_pure ⟨rfl, rfl⟩

theorem begins_trait :
    Yields (trait pre) fun b => ∀ close, (b.declaration close).Begins pre.first pre.doc :=
  .bind fun _ => .bind fun _ => .bind fun _ => .bind fun _ => .bind fun _ => .bind fun _ =>
    yields_pure fun _ => ⟨rfl, rfl⟩

/-- An implementation begins like any declaration, but has no documentation. -/
theorem begins_impl :
    Yields (impl pre) fun b => ∀ close, (b.declaration close).Begins pre.first pre.doc :=
  .bind fun _ => .bind fun _ => .bind fun _ => .bind fun _ => .bind fun _ =>
    yields_pure fun _ => ⟨rfl, rfl⟩

theorem begins_module (keyword : String) :
    Yields (module keyword pre) (·.Begins pre.first pre.doc) := by
  refine .bind fun _ => .bind fun _ => .bind fun t => ?_
  cases t with
  | some _ => exact yields_pure fun d hd => by cases hd
  | none => exact .bind fun _ => yields_pure fun _ => ⟨rfl, rfl⟩

end Parser

theorem begins_structItem {pre : Preamble} {ls rest : List Lexeme} {d : Declaration}
    (h : (structItem pre ls).outcome = .ok (d, rest)) : d.Begins pre.first pre.doc := by
  obtain ⟨⟨⟨name, generics⟩, mid⟩, -, h⟩ := Attempt.outcome_bind_eq_ok.mp h
  obtain ⟨⟨⟨fs, close⟩, mid'⟩, -, h⟩ := Attempt.outcome_bind_eq_ok.mp h
  cases h
  exact ⟨rfl, rfl⟩

/-- **Every declaration begins with its preamble.** -/
theorem begins_openAfter {pre : Preamble} {ls rest : List Lexeme} {o : Opening}
    (h : (openAfter pre ls).outcome = .ok (o, rest)) : o.Begins pre.first pre.doc := by
  obtain ⟨l, tail, i, rfl, -, hopen⟩ := exists_introducer h
  rw [hopen] at h
  -- a reader of a declaration is lifted to one of an opening, whole or up to its members
  have lift {α : Type} {f : α → Opening} {p : Parser α}
      (hp : Parser.Yields p fun a => (f a).Begins pre.first pre.doc)
      (h : (Attempt.ofParser (f <$> p) (l :: tail)).outcome = .ok (o, rest)) :
      o.Begins pre.first pre.doc := by
    obtain ⟨a, ha, rfl⟩ := Parser.map_eq_ok.mp h
    exact hp _ _ _ ha
  have whole {p : Parser Declaration} (hp : Parser.Yields p (·.Begins pre.first pre.doc)) :
      Parser.Yields p fun d => (Opening.complete (some d)).Begins pre.first pre.doc := by
    rintro ls d rest hd _ ⟨⟩
    exact hp _ _ _ hd
  have nothing {p : Parser Unit} :
      Parser.Yields p fun _ => (Opening.complete none).Begins pre.first pre.doc := by
    rintro ls a rest - _ ⟨⟩
  cases i with
  | function => exact lift (whole (Parser.begins_function pre)) h
  | struct =>
    obtain ⟨⟨d, mid⟩, hd, ⟨⟩⟩ := Attempt.outcome_map_eq_ok.mp h
    rintro _ ⟨⟩
    exact begins_structItem hd
  | enumeration => exact lift (whole (Parser.begins_enumeration pre)) h
  | trait => exact lift (Parser.begins_trait pre) h
  | impl => exact lift (Parser.begins_impl pre) h
  | constant => exact lift (whole (Parser.begins_constant pre _)) h
  | module => exact Parser.begins_module pre _ _ _ _ h
  | importItem => exact lift nothing h
  | typeAlias => exact lift nothing h

/-- The mark or keyword behind the attributes. -/
theorem exists_startWord {byPlace b : Bool} {mark : Option Token} {pre : Preamble} {o : Opening}
    {mid left after rest : List Lexeme} (hv : Parser.visibility byPlace mid = .ok (b, left))
    (hm : Parser.accept "unsafe" left = .ok (mark, after))
    (ho : (openAfter pre after).outcome = .ok (o, rest)) :
    ∃ next tail, mid = next :: tail ∧ ∃ w ∈ startWords, next.token.is w := by
  -- the first of three that is there: the mark of visibility, `unsafe`, the keyword itself
  obtain ⟨t, marked, ht, hmarked⟩ := Parser.bind_eq_ok.mp hv
  cases t with
  | some t =>
    obtain ⟨next, rfl, rfl, hnext⟩ := Parser.eq_cons_of_accept ht
    exact ⟨next, marked, rfl, "pub", by simp [startWords], hnext⟩
  | none =>
    obtain rfl := Parser.eq_of_accept ht
    cases hmarked
    cases mark with
    | some t =>
      obtain ⟨next, rfl, rfl, hnext⟩ := Parser.eq_cons_of_accept hm
      exact ⟨next, after, rfl, "unsafe", by simp [startWords], hnext⟩
    | none =>
      obtain rfl := Parser.eq_of_accept hm
      obtain ⟨next, tail, i, rfl, hi, -⟩ := exists_introducer ho
      obtain ⟨hkind, hword⟩ := Token.introduces?_eq_some hi
      refine ⟨next, tail, rfl, next.token.text, ?_, ?_⟩
      · exact List.mem_cons_of_mem _ (List.mem_cons_of_mem _ (List.mem_map_of_mem hword))
      · simp [Token.is, hkind, TokenKind.isStructural]

theorem suffix_of_opening {byPlace : Bool} {ls rest : List Lexeme} {o : Opening}
    (h : (opening byPlace ls).outcome = .ok (o, rest)) : rest <:+ ls := by
  cases o with
  | complete d => exact suffix_of_item (congrArg Attempt.outcome (item_of_complete h))
  | block b => exact (opening_of_block h).1.suffix

/-- **Every declaration that is opened has a start**, at which it begins with the documentation that
is found there. -/
theorem exists_start_of_opening {byPlace : Bool} {ls rest : List Lexeme} {o : Opening}
    (hg : ∀ l ∈ ls, l.token.Genuine) (h : (opening byPlace ls).outcome = .ok (o, rest)) :
    ∃ (s : DeclStart) (tail : List Lexeme), ls = s.lexemes ++ tail ∧ rest <:+ tail ∧
      o.Begins s.first.token s.doc? := by
  obtain ⟨l, more, pre, after, hls, hpre, -, ho, -⟩ := opening_split h
  obtain ⟨u, mid, hattributes, hmid⟩ := Parser.bind_eq_ok.mp hpre
  obtain ⟨peeked, mid', hpeek, hmarks⟩ := Parser.bind_eq_ok.mp hmid
  cases hpeek
  obtain ⟨isPublic, left, hvisibility, hleft⟩ := Parser.bind_eq_ok.mp hmarks
  obtain ⟨mark, after', hmark, hafter⟩ := Parser.bind_eq_ok.mp hleft
  cases hafter
  obtain ⟨as, hfront⟩ := Parser.exists_attributes hg hattributes
  obtain ⟨next, tail, rfl, hnext⟩ := exists_startWord hvisibility hmark ho
  let s : DeclStart := ⟨as, next, hnext⟩
  have hsplit : ls = s.lexemes ++ tail := by
    rw [hfront, DeclStart.lexemes, List.append_assoc]
    rfl
  -- the preamble takes its first token and documentation from the first lexeme
  have hfirst : s.first = l := by
    have hhead := congrArg List.head? hsplit
    rw [List.head?_append, s.head?_lexemes, hls] at hhead
    exact (Option.some.inj hhead).symm
  refine ⟨s, tail, hsplit, ?_, ?_⟩
  · -- the keyword and what may stand before it are behind the attributes
    have hshort := Parser.shortens_visibility byPlace _ _ _ hvisibility
    have hshort' := Parser.shortens_accept _ _ _ _ hmark
    obtain ⟨m, behind, i, rfl, -, hopen⟩ := exists_introducer ho
    rw [hopen] at ho
    have hopen := Introducer.open_shorter ho
    refine List.suffix_of_suffix_length_le (suffix_of_opening h) ⟨s.lexemes, hsplit.symm⟩ ?_
    simp only [List.length_cons] at hshort hshort' hopen
    omega
  · have hbegins := begins_openAfter ho
    rw [DeclStart.doc?, hfirst]
    exact hbegins

end KlarAudit

import KlarAudit.Proofs.Grammar.Production

/-!
# The heading of a declaration

What a declaration turns out to be when it has been opened. A declaration whose members follow is a
module, a trait or an implementation; it knows its first token, and the last token of its heading is
the brace that opens the members. A declaration that is read whole is none of the three.

## Main definitions

* `Parser.Yields p R`: every value that `p` reads satisfies `R`
* `HeadsBlock pre b ts`: the tokens `ts` are a heading of the block `b`

## Main results

* `block_of_opening`: a declaration whose members follow
* `not_isContainer_of_opening`: a declaration read whole
-/

namespace KlarAudit

/-- **A heading**: the tokens `ts`, after the preamble `pre`, open the block `b`; the last of them
is the brace before the members. -/
structure HeadsBlock (pre : Preamble) (b : Block) (ts : List Token) : Prop where
  /-- The declaration starts with its preamble. -/
  first : b.first = pre.first
  /-- The declaration is one that has members. -/
  container : b.heading.shape.isContainer
  /-- The members stand behind a brace. -/
  opener : ∃ before t, ts = before ++ [t] ∧ t.is "\x7b"

theorem HeadsBlock.prepend {pre : Preamble} (b : Block) (ts us : List Token)
    (h : HeadsBlock pre b us) : HeadsBlock pre b (ts ++ us) := by
  obtain ⟨before, t, rfl, ht⟩ := h.opener
  exact ⟨h.first, h.container, ts ++ before, t, by rw [List.append_assoc], ht⟩

namespace Parser

variable {α β : Type}

/-! ## Blocks -/

/-- The brace is the last token that is read. -/
theorem takes_headsBlock {pre : Preamble} {b : Block} (hf : b.first = pre.first)
    (hc : b.heading.shape.isContainer) :
    Takes (expect "\x7b" >>= fun _ => pure b) (HeadsBlock pre) := by
  refine (takes_expect "\x7b").bind (fun t => takes_pure (R := fun c ts => c = b ∧ ts = []) b
    ⟨rfl, rfl⟩) ?_
  rintro t c ts us ⟨rfl, ht⟩ ⟨rfl, rfl⟩
  exact ⟨hf, hc, [], t, rfl, ht⟩

theorem takes_trait (pre : Preamble) : Takes (trait pre) (HeadsBlock pre) :=
  .before HeadsBlock.prepend (takes_expect "trait") fun _ =>
    .before HeadsBlock.prepend (takes_expectName _) fun _ =>
      .before HeadsBlock.prepend (nests_generics []) fun _ =>
        .before HeadsBlock.prepend (nests_typeAfter (by decide) _ []) fun _ =>
          .before HeadsBlock.prepend (nests_whereBounds []) fun _ => takes_headsBlock rfl rfl

theorem takes_impl (pre : Preamble) : Takes (impl pre) (HeadsBlock pre) :=
  .before HeadsBlock.prepend (takes_expect "impl") fun _ =>
    .before HeadsBlock.prepend (nests_implGenerics _ []) fun _ =>
      .before HeadsBlock.prepend (nests_implTarget _ []) fun _ =>
        .before HeadsBlock.prepend (nests_whereBounds []) fun _ => takes_headsBlock rfl rfl

theorem takes_module (keyword : String) (pre : Preamble) :
    Takes (module keyword pre) fun o ts => ∀ b, o = .block b → HeadsBlock pre b ts := by
  have prepend (o : Opening) (ts us : List Token) (h : ∀ b, o = .block b → HeadsBlock pre b us) :
      ∀ b, o = .block b → HeadsBlock pre b (ts ++ us) := fun b hb => (h b hb).prepend b ts us
  refine .before prepend (takes_expect keyword) fun _ =>
    .before prepend (takes_expectName _) fun name => .before prepend (takes_accept ";") fun t => ?_
  cases t with
  | some _ => exact takes_pure _ fun b h => by cases h
  | none =>
    intro ls o rest h
    obtain ⟨t, mid, h₁, h₂⟩ := bind_eq_ok.mp h
    cases h₂
    obtain ⟨taken, hls, htaken, ht⟩ := takes_expect "\x7b" _ _ _ h₁
    refine ⟨taken, hls, ?_⟩
    rintro b ⟨⟩
    exact ⟨rfl, rfl, [], t, htaken, ht⟩

/-! ## Values -/

/-- Every value that the parser reads satisfies `R`. -/
def Yields (p : Parser α) (R : α → Prop) : Prop :=
  ∀ ls a rest, p ls = .ok (a, rest) → R a

theorem yields_pure {a : α} {R : α → Prop} (h : R a) : Yields (pure a) R := by
  rintro ls b rest ⟨⟩
  exact h

/-- The value comes from the last parser. -/
theorem Yields.bind {p : Parser α} {f : α → Parser β} {R : β → Prop} (h : ∀ a, Yields (f a) R) :
    Yields (p >>= f) R := by
  intro ls b rest hb
  obtain ⟨a, mid, -, h₂⟩ := bind_eq_ok.mp hb
  exact h a mid b rest h₂

theorem yields_preamble (byPlace : Bool) (l : Lexeme) :
    Yields (preamble byPlace l) (·.first = l.token) :=
  .bind fun _ => .bind fun _ => .bind fun _ => .bind fun _ => yields_pure rfl

theorem yields_function (pre : Preamble) : Yields (function pre) (·.shape.isContainer = false) :=
  .bind fun _ => .bind fun _ => .bind fun _ => .bind fun _ => .bind fun _ => .bind fun _ =>
    .bind fun _ => .bind fun _ => yields_pure rfl

theorem yields_enumeration (pre : Preamble) :
    Yields (enumeration pre) (·.shape.isContainer = false) :=
  .bind fun _ => .bind fun _ => .bind fun _ => .bind fun _ => .bind fun _ => .bind fun _ =>
    yields_pure rfl

theorem yields_constant (keyword : String) (pre : Preamble) :
    Yields (constant keyword pre) (·.shape.isContainer = false) :=
  .bind fun _ => .bind fun _ => .bind fun _ => .bind fun _ => .bind fun _ => .bind fun _ =>
    yields_pure rfl

/-- A module leaves a declaration only if its members follow. -/
theorem yields_module (keyword : String) (pre : Preamble) :
    Yields (module keyword pre) fun o => ∀ d, o ≠ .complete (some d) := by
  refine .bind fun _ => .bind fun _ => .bind fun t => ?_
  cases t with
  | some _ => exact yields_pure fun d h => by cases h
  | none => exact .bind fun _ => yields_pure fun d h => by cases h

end Parser

/-- Modules, traits and implementations have no body of statements. -/
theorem body?_of_isContainer {d : Declaration} (h : d.shape.isContainer) : d.body? = none := by
  unfold Declaration.body? Declaration.signature?
  cases hd : d.shape <;> simp_all [Shape.isContainer]

/-! ## Any declaration -/

/-- **A declaration whose members follow** is a module, a trait or an implementation; it starts with
the first token read, and the last one read is the brace before the members. -/
theorem block_of_opening {byPlace : Bool} {ls rest : List Lexeme} {b : Block}
    (h : (opening byPlace ls).outcome = .ok (.block b, rest)) :
    ∃ l tail, ls = l :: tail ∧ b.first = l.token ∧ b.heading.shape.isContainer ∧
      ∃ heading opener, ls = heading ++ opener :: rest ∧ opener.token.is "\x7b" := by
  obtain ⟨l, tail, pre, after, hl, hpre, ⟨before, hls, -⟩, ho, -⟩ := opening_split h
  have hfirst : pre.first = l.token := Parser.yields_preamble _ _ _ _ _ hpre
  -- what is left to show is about the tokens behind the preamble
  suffices hblock : Between after rest (HeadsBlock pre b) by
    obtain ⟨taken, rfl, hb⟩ := hblock
    obtain ⟨ts, t, hts, ht⟩ := hb.opener
    obtain ⟨heading, last, rfl, -, hlast⟩ := List.map_eq_append_iff.mp hts
    obtain ⟨opener, _, rfl, rfl, hnil⟩ := List.map_eq_cons_iff.mp hlast
    obtain rfl := List.map_eq_nil_iff.mp hnil
    refine ⟨l, tail, hl, hb.first.trans hfirst, hb.container, before ++ heading, opener, ?_, ht⟩
    rw [hls]
    simp
  obtain ⟨m, more, i, rfl, -, hopen⟩ := exists_introducer ho
  rw [hopen] at ho
  have lift {p : Parser Block} (hp : Parser.Takes p (HeadsBlock pre))
      (h : (Attempt.ofParser (Opening.block <$> p) (m :: more)).outcome =
        .ok (.block b, rest)) :
      Between (m :: more) rest (HeadsBlock pre b) := by
    obtain ⟨b', hb, ⟨⟩⟩ := Parser.map_eq_ok.mp h
    exact hp _ _ _ hb
  cases i with
  | trait => exact lift (Parser.takes_trait pre) ho
  | impl => exact lift (Parser.takes_impl pre) ho
  | module =>
    exact (Parser.takes_module _ pre _ _ _ ho).mono fun ts hb => hb b rfl
  | struct => obtain ⟨_, -, ⟨⟩⟩ := Attempt.outcome_map_eq_ok.mp ho
  | _ => obtain ⟨_, -, ⟨⟩⟩ := Parser.map_eq_ok.mp ho

theorem not_isContainer_of_structItem {pre : Preamble} {ls rest : List Lexeme} {d : Declaration}
    (h : (structItem pre ls).outcome = .ok (d, rest)) : d.shape.isContainer = false := by
  obtain ⟨⟨⟨name, generics⟩, mid⟩, -, h⟩ := Attempt.outcome_bind_eq_ok.mp h
  obtain ⟨⟨⟨fs, close⟩, mid'⟩, -, h⟩ := Attempt.outcome_bind_eq_ok.mp h
  cases h
  rfl

/-- **A declaration that is read whole** is no module, trait or implementation. -/
theorem not_isContainer_of_opening {byPlace : Bool} {ls rest : List Lexeme} {d : Declaration}
    (h : (opening byPlace ls).outcome = .ok (.complete (some d), rest)) :
    d.shape.isContainer = false := by
  obtain ⟨l, tail, pre, after, -, -, -, ho, -⟩ := opening_split h
  obtain ⟨m, more, i, rfl, -, hopen⟩ := exists_introducer ho
  rw [hopen] at ho
  have lift {p : Parser Declaration} (hp : Parser.Yields p (·.shape.isContainer = false))
      (h : (Attempt.ofParser ((Opening.complete ∘ some) <$> p) (m :: more)).outcome =
        .ok (.complete (some d), rest)) : d.shape.isContainer = false := by
    obtain ⟨d', hd, ⟨⟩⟩ := Parser.map_eq_ok.mp h
    exact hp _ _ _ hd
  cases i with
  | function => exact lift (Parser.yields_function pre) ho
  | enumeration => exact lift (Parser.yields_enumeration pre) ho
  | constant => exact lift (Parser.yields_constant _ pre) ho
  | struct =>
    obtain ⟨⟨d', mid⟩, hd, ⟨⟩⟩ := Attempt.outcome_map_eq_ok.mp ho
    exact not_isContainer_of_structItem hd
  | module => exact absurd rfl (Parser.yields_module _ pre _ _ _ ho d)
  | _ => obtain ⟨_, -, ⟨⟩⟩ := Parser.map_eq_ok.mp ho

end KlarAudit

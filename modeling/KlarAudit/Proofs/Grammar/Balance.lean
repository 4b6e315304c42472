import KlarAudit.Arena.Parse
import KlarAudit.Proofs.Grammar.Production

/-!
# Balanced input

A text that is read without an issue has balanced brackets, in declarations, attributes and aliases
alike, with one exception: the reader of imports does not look at the brackets that are still open
when the input ends. Such an import takes all that is left, whatever declarations it holds.

## Main definitions

* `EndsInOpenImport ts`: the tokens end with an import that is never finished

## Main results

* `nests_item_of_no_issues`: a declaration that is read without an issue leaves no bracket open,
  unless it is an import that is never finished
* `wellNested_iff_of_ok`: a text that is read without an issue is well nested exactly if it does not
  end in an import that is never finished
-/

namespace KlarAudit

/-- **The tokens end in an open import**: after well-nested tokens comes an import that is never
finished. -/
def EndsInOpenImport (ts : List Token) : Prop :=
  ∃ before after, ts = before ++ after ∧ WellNested before ∧ UnfinishedImport after

/-- An import that is never finished leaves a bracket open. -/
theorem EndsInOpenImport.not_wellNested {ts : List Token} (h : EndsInOpenImport ts) :
    ¬ WellNested ts := by
  obtain ⟨before, after, rfl, hb, head, rest, rfl, hhead, ⟨o, outer, hopen⟩, -⟩ := h
  have hk : head.kind = .keyword := by
    simp only [Token.isKeywordIn, Bool.and_eq_true, beq_iff_eq] at hhead
    exact hhead.1
  -- the keyword is no bracket, so the brackets behind it are open at the end of all tokens
  have hn : nest [] head = some [] :=
    nest_of_plain (by simp [Token.opens?, hk]) (by simp [Token.closes?, hk]) []
  rw [WellNested, nestAll_append, show nestAll [] before = some [] from hb, Option.bind_some,
    nestAll_cons, hn, Option.bind_some, hopen]
  simp

/-! ## Structures without a missing comma -/

/-- The fields of a structure end with the brace that closes them, if no comma is missing. -/
theorem nests_fields_of_no_issues {first : Token} {ls rest : List Lexeme}
    {r : List Field × Token} (h : (fields first ls).outcome = .ok (r, rest))
    (hi : (fields first ls).issues = []) :
    Between ls rest (Parser.Leads [.brace] []) := by
  refine fields_induction (P := fun ls _ rest => (fields first ls).issues = [] →
    Between ls rest (Parser.Leads [.brace] [])) ?close ?field h hi
  case close => exact fun hc _ => ⟨[_], rfl, Parser.leads_of_closer .brace hc []⟩
  case field =>
    intro l tail f following left r rest hc hf _ ih hi
    rw [fields_of_field hc hf] at hi
    obtain ⟨hmissing, hi⟩ := List.append_eq_nil_iff.mp hi
    obtain rfl : following = none := by
      cases following with
      | none => rfl
      | some t => cases hmissing
    -- no comma is missing, so the field itself leaves no bracket open
    have hfield : Between (l :: tail) left (Parser.Leads [.brace] [.brace]) := by
      refine (Parser.takes_field _ _ _ hf).mono fun ts ht hg => ?_
      obtain ⟨stack, hs, hn⟩ := ht hg
      exact (wellNested_iff_shifts.mp (by rw [WellNested, hs, hn rfl])).around [.brace]
    have hcomma := Parser.leads_afterComma left [.brace]
    refine hfield.trans ?_ fun _ _ => Parser.Leads.append
    exact hcomma.trans (ih hi) fun _ _ => Parser.Leads.append

/-- A structure leaves no bracket open, if no comma is missing. -/
theorem nests_structItem_of_no_issues {pre : Preamble} {ls rest : List Lexeme} {d : Declaration}
    (h : (structItem pre ls).outcome = .ok (d, rest)) (hi : (structItem pre ls).issues = []) :
    Between ls rest (Parser.Leads [] []) := by
  obtain ⟨⟨⟨name, generics⟩, mid⟩, hhead, h⟩ := Attempt.outcome_bind_eq_ok.mp h
  obtain ⟨⟨⟨fs, close⟩, left⟩, hbody, h⟩ := Attempt.outcome_bind_eq_ok.mp h
  cases h
  -- the heading records no issue, so it is the body that has none
  have hi : (structBody pre.first mid).issues = [] := by
    rw [structItem, Attempt.issues_ofParser_bind hhead] at hi
    dsimp only at hi
    rw [Attempt.issues_bind_of_ok hbody] at hi
    exact (List.append_eq_nil_iff.mp hi).1
  refine (Parser.nests_structHeading [] _ _ _ hhead).trans ?_ fun _ _ => Parser.Leads.append
  unfold structBody at hbody hi
  split at hbody
  · rename_i ho
    rw [if_pos ho] at hi
    have hopen := Parser.leads_of_nextIs_opener .brace ho []
    exact hopen.trans (nests_fields_of_no_issues hbody hi) fun _ _ => Parser.Leads.append
  · exact Parser.nests_tupleBody [] _ _ _ hbody

/-! ## Declarations read without an issue -/

/-- The input is a run that leaves no bracket open and an import that is never finished. -/
def OpenToTheEnd (ls : List Lexeme) : Prop :=
  ∃ after, Between ls after (Parser.Leads [] []) ∧ UnfinishedImport (after.map Lexeme.token)

/-- A declaration without members that is read without an issue leaves no bracket open, unless it is
an unfinished import. -/
theorem nests_opening_of_no_issues {byPlace : Bool} {ls rest : List Lexeme}
    {d : Option Declaration} (h : (opening byPlace ls).outcome = .ok (.complete d, rest))
    (hi : (opening byPlace ls).issues = []) :
    Between ls rest (Parser.Leads [] []) ∨ d = none ∧ rest = [] ∧ OpenToTheEnd ls := by
  obtain ⟨l, tail, pre, after, -, -, hpre, ho, heq⟩ := opening_split h
  rcases openAfter_cases ho with ⟨hafter, -⟩ | ⟨d', -, -, hstruct, hd⟩ | ⟨⟨⟩, hrest, -, hopen⟩
  · exact .inl (hpre.trans hafter fun _ _ => Parser.Leads.append)
  · rw [heq, hstruct, Attempt.issues_map] at hi
    have hafter := nests_structItem_of_no_issues hd hi
    exact .inl (hpre.trans hafter fun _ _ => Parser.Leads.append)
  · exact .inr ⟨rfl, hrest, after, hpre, hopen⟩

/-- **A declaration that is read without an issue** leaves no bracket open, unless it is an import
that is never finished; a body ends with the brace that closes it. -/
theorem nests_item_of_no_issues :
    (∀ byPlace ls (r : ItemResult ls), (item byPlace ls).outcome = .ok r →
      (item byPlace ls).issues = [] →
      Between ls r.rest (Parser.Leads [] []) ∨ r.tree = none ∧ r.rest = [] ∧ OpenToTheEnd ls) ∧
    ∀ first byPlace ls (m : BodyResult ls), (members first byPlace ls).outcome = .ok m →
      (members first byPlace ls).issues = [] →
      Between ls m.rest (Parser.Leads [.brace] []) := by
  refine reading_induction ?complete ?block ?close ?member ?skipped
  case complete =>
    intro byPlace ls d rest h hi
    rw [item_of_complete h] at hi
    refine (nests_opening_of_no_issues h hi).imp_right ?_
    rintro ⟨rfl, hopen⟩
    exact ⟨rfl, hopen⟩
  case block =>
    intro byPlace ls b rest m h hm ih hi
    rw [item_of_block h] at hi
    have hbody := ih (List.append_eq_nil_iff.mp hi).2
    exact .inl ((opening_of_block h).1.trans hbody fun _ _ => Parser.Leads.append)
  case close =>
    intro first byPlace l tail _ hl _
    exact ⟨[l], rfl, Parser.leads_of_closer .brace hl []⟩
  case member =>
    intro first byPlace l tail r m hl hr hm ihItem ihBody hi
    rw [members_of_item hl hr] at hi
    obtain ⟨hi, hmore⟩ := List.append_eq_nil_iff.mp hi
    rcases ihItem hi with hitem | ⟨-, hrest, -⟩
    · -- inside the body the member is read around its brace
      have hitem : Between (l :: tail) r.rest (Parser.Leads [.brace] [.brace]) :=
        hitem.mono fun ts ht hg => (ht hg).around [.brace]
      exact hitem.trans (ihBody hmore) fun _ _ => Parser.Leads.append
    · -- the body would have to go on after the end of the input
      exact absurd m.shorter (by simp [hrest])
  case skipped =>
    intro first byPlace l tail e rest m _ hl he hs hm ih hi
    -- a member that is skipped is reported
    rw [members_of_resync hl he hs] at hi
    exact absurd (List.append_eq_nil_iff.mp hi).2 (List.cons_ne_nil _ _)

/-! ## Texts read without an issue -/

/-- Declarations that are read without an issue leave no bracket open, unless the last of them is
an import that is never finished. -/
theorem nests_topLevel_of_no_issues (ls : List Lexeme) (hi : (topLevel ls).1 = []) :
    Between ls [] (Parser.Leads [] []) ∨ OpenToTheEnd ls := by
  induction ls using topLevel_induction with
  | nil => exact .inl (.refl [] (Parser.Leads.nil []))
  | read h ih =>
    rw [topLevel_of_item h] at hi
    obtain ⟨hi, hrest⟩ := List.append_eq_nil_iff.mp hi
    rcases nests_item_of_no_issues.1 _ _ _ h hi with hitem | ⟨-, -, hopen⟩
    · rcases ih hrest with hmore | ⟨after, hmore, hopen⟩
      · exact .inl (hitem.trans hmore fun _ _ => Parser.Leads.append)
      · exact .inr ⟨after, hitem.trans hmore fun _ _ => Parser.Leads.append, hopen⟩
    · exact .inr hopen
  | skipped h ih =>
    rw [topLevel_of_error h] at hi
    exact absurd (List.append_eq_nil_iff.mp hi).2 (List.cons_ne_nil _ _)

/-- **A text that is read without an issue** has balanced brackets, unless it ends in an import
whose brackets are never closed. -/
theorem wellNested_iff_of_ok (text : String) (h : (parse (scan text)).ok) :
    WellNested (significant (scan text)) ↔ ¬ EndsInOpenImport (significant (scan text)) := by
  have hg := genuine_ofTokens_scan text
  have hi : (topLevel (Lexeme.ofTokens (scan text))).1 = [] := by
    simpa [ParseResult.ok, parse] using h
  rw [← Lexeme.map_token_ofTokens]
  constructor
  · intro hw ho
    exact ho.not_wellNested hw
  · intro ho
    rcases nests_topLevel_of_no_issues _ hi with hall | ⟨after, ⟨taken, hls, ht⟩, hopen⟩
    · exact wellNested_iff_shifts.mpr (hall.all hg)
    · rw [hls, List.map_append] at hg
      refine absurd ⟨_, _, by rw [hls, List.map_append], ?_, hopen⟩ ho
      exact wellNested_iff_shifts.mpr (ht fun t k => hg t (List.mem_append_left _ k))

/-- The shortest text that is read without an issue although a bracket stays open. -/
theorem parse_ok_of_open_import : (parse (scan "use a(")).ok ∧
    ¬ WellNested (significant (scan "use a(")) ∧ EndsInOpenImport (significant (scan "use a(")) := by
  have hok : (parse (scan "use a(")).ok := by decide +kernel
  have hopen : ¬ WellNested (significant (scan "use a(")) := by decide +kernel
  refine ⟨hok, hopen, ?_⟩
  refine Classical.byContradiction fun hend => ?_
  exact hopen ((wellNested_iff_of_ok "use a(" hok).mpr hend)

end KlarAudit

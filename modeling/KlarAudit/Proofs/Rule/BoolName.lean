import KlarAudit.Proofs.Arena.FunctionBody
import KlarAudit.Proofs.Grammar.Rendering
import KlarAudit.Proofs.Naming.Convention
import KlarAudit.Proofs.Rule.Place

/-!
# Names for truth values

Two checks propose names for the same functions and bindings. One brings a name into the
convention; the other does so and puts `is_` in front. The second does not look at what it gets: a
name that starts as the name of a truth value should, but for the case of its letters, is given a
second such word, while the first check proposes it without one. Nor does it leave a name of
underscores alone, out of which it makes `is_`, a name that the first check remarks on.

## Main definitions

* `NamedBy d t`: the token is the name of the declaration
* `BoolProposal n fix`: what there is to say on the proposal of `fix` for `n`
* `BoolFinding s f t`: a finding on the name of a truth value, and what the other check finds there

## Main results

* `exists_namedBy`: the name of a function is an identifier of the text
* `startsWithAny_of_respell`: a name that follows the convention does not start as it should only
  once it is respelled
* `toList_boolName`: the proposed name is `is` and the words of the name
* `proposals_of_text`: what is proposed for the names of truth values in a text
-/

namespace KlarAudit

/-! ## Names are identifiers -/

/-- The token is the name of the declaration. -/
structure NamedBy (d : Declaration) (t : Token) : Prop where
  /-- It is an identifier. -/
  kind : t.kind = .identifier
  /-- The name is its text. -/
  text : d.name = t.text
  /-- The declaration is where it is. -/
  pos : d.pos = t.pos

theorem Parser.takes_function_name (pre : Preamble) :
    Takes (function pre) fun d ts => ∃ t ∈ ts, NamedBy d t := by
  have prepend (d : Declaration) (ts us : List Token) (h : ∃ t ∈ us, NamedBy d t) :
      ∃ t ∈ ts ++ us, NamedBy d t := by
    obtain ⟨t, ht, hd⟩ := h
    exact ⟨t, List.mem_append_right _ ht, hd⟩
  -- what is taken behind the name does not change it
  have keep (name : Token) (d : Declaration) (ts us : List Token)
      (h : d.name = name.text ∧ d.pos = name.pos) : d.name = name.text ∧ d.pos = name.pos := h
  refine .before prepend (takes_expect _) fun _ => (takes_expectName _).bind
    (S := fun name d _ => d.name = name.text ∧ d.pos = name.pos) (fun name => ?_) ?_
  · exact .before (keep name) (nests_generics []) fun _ => .before (keep name) (takes_expect _)
      fun _ => .before (keep name) (nests_slots []) fun _ =>
        .before (keep name) (nests_typeAfter (by decide) _ []) fun _ =>
          .before (keep name) (nests_whereBounds []) fun _ =>
            .before (keep name) (takes_functionBody _) fun _ => takes_pure _ ⟨rfl, rfl⟩
  · rintro name d ts us ⟨rfl, hkind⟩ ⟨htext, hpos⟩
    exact ⟨name, by simp, hkind, htext, hpos⟩

/-- **The name of a function** is an identifier of the text. -/
theorem exists_namedBy {text : String} {e : Entry} {sig : Signature}
    (he : e ∈ (parse (scan text)).arena.entries) (hsig : e.decl.signature? = some sig) :
    ∃ t ∈ significant (scan text), NamedBy e.decl t := by
  obtain ⟨byPlace, ls, rest, hls, ho⟩ :=
    exists_opening_of_mem he (isContainer_of_signature? hsig)
  obtain ⟨pre, mid, hbefore, hfunction⟩ := function_of_opening ho hsig
  obtain ⟨taken, rfl, t, ht, hnamed⟩ := Parser.takes_function_name pre _ _ _ hfunction
  refine ⟨t, ?_, hnamed⟩
  obtain ⟨l, hl, rfl⟩ := List.mem_map.mp ht
  rw [← Lexeme.map_token_ofTokens]
  exact List.mem_map_of_mem (hls.subset (hbefore.suffix.subset (List.mem_append_left _ hl)))

/-- The text of an identifier is a name. -/
theorem isName_of_mem_scan {text : String} {t : Token} (ht : t ∈ scan text)
    (hkind : t.kind = .identifier) : Naming.IsName t.text := by
  have hlegible := legible_of_mem_scan ht
  obtain ⟨c, cs, hcs, hstart⟩ := hlegible.name (.inl hkind)
  exact (hlegible.word c cs hcs hstart).2

/-! ## Starts of names -/

section Starts

open Naming Convention

variable {n p : String} {q rest : List Char}

/-- Each of the starts is a word in small letters with an underscore behind it. -/
theorem exists_stem (hp : p ∈ boolStarts) :
    ∃ q, p.toList = q ++ ['_'] ∧ q ≠ [] ∧ ∀ c ∈ q, isLower c := by
  have hstems : ∀ p ∈ boolStarts, p.toList = p.toList.dropLast ++ ['_'] ∧
      p.toList.dropLast ≠ [] ∧ p.toList.dropLast.all isLower := by
    decide +kernel
  obtain ⟨hsplit, hne, hlower⟩ := hstems p hp
  exact ⟨_, hsplit, hne, List.all_eq_true.mp hlower⟩

theorem startsWithAny_iff {ps : List String} :
    Text.startsWithAny ps n ↔ ∃ p ∈ ps, p.toList <+: n.toList := by
  simp [Text.startsWithAny, Text.startsWith]

/-- The name starts with one of the words. -/
theorem exists_of_startsWithAny (h : Text.startsWithAny boolStarts n) :
    ∃ p ∈ boolStarts, ∃ q rest, p.toList = q ++ ['_'] ∧ q ≠ [] ∧ (∀ c ∈ q, isLower c) ∧
      n.toList = q ++ '_' :: rest := by
  obtain ⟨p, hp, rest, hrest⟩ := startsWithAny_iff.mp h
  obtain ⟨q, hq, hne, hlower⟩ := exists_stem hp
  exact ⟨p, hp, q, rest, hq, hne, hlower, by simp [← hrest, hq]⟩

/-- A name that starts with one of the words has no underscores in front. -/
theorem takeWhile_of_startsWithAny (h : Text.startsWithAny boolStarts n) :
    n.toList.takeWhile (· == '_') = [] := by
  obtain ⟨-, -, q, rest, -, hne, hlower, hn⟩ := exists_of_startsWithAny h
  obtain ⟨c, cs, rfl⟩ := List.exists_cons_of_ne_nil hne
  have hc := ne_underscore_of_isLetter (isLetter_of_isLower (hlower c List.mem_cons_self))
  rw [hn, List.cons_append, List.takeWhile_cons_of_neg (by simpa using hc)]

/-- There are no capitals in a name that follows the convention. -/
theorem isUpper_of_accepts_snake (h : snake.accepts n) : ∀ c ∈ n.toList, isUpper c = false := by
  have hbody (c : Char) (hc : isLower c || isNumeral c) : isUpper c = false := by
    rcases Bool.or_eq_true_iff.mp hc with hc | hc
    · exact isUpper_of_isLower hc
    · exact (isLetter_eq_false_iff.mp (isLetter_of_isNumeral hc)).2
  intro c hc
  rw [accepts, isDivided] at h
  -- the convention says nothing of underscores in front, and no capital is among them
  rw [← List.takeWhile_append_dropWhile (p := (· == '_')) (l := n.toList)] at hc
  rcases List.mem_append.mp hc with hc | hc
  · rw [eq_underscore_of_mem_takeWhile hc]
    decide
  · split at h
    case h_1 hnil => simp [hnil] at hc
    case h_2 d ds hcons =>
      obtain ⟨hd, hds⟩ := Bool.and_eq_true_iff.mp h
      rw [hcons] at hc
      rcases List.mem_cons.mp hc with rfl | hc
      · exact isUpper_of_isLower hd
      · rcases of_isSegmented hds c hc with hc | rfl
        · exact hbody c hc
        · decide

/-- A name that follows the convention and starts with one of the words once it is respelled has
started with it before. -/
theorem startsWithAny_of_respell (hn : IsName n) (haccepts : Convention.snake.accepts n)
    (h : Text.startsWithAny boolStarts (Convention.snake.respell n)) :
    Text.startsWithAny boolStarts n := by
  cases hwords : words n with
  | nil => rwa [respell_of_words_eq_nil _ hwords] at h
  | cons w ws =>
    obtain ⟨p, hp, q, rest, hpq, hne, hlower, hrest⟩ := exists_of_startsWithAny h
    have hfront : n.toList.takeWhile (· == '_') = [] := by
      rw [← takeWhile_respell (c := snake) (by decide) hn, takeWhile_of_startsWithAny h]
    rw [toList_respell (by decide) hwords, hfront, List.nil_append] at hrest
    have hsmall := isUpper_of_accepts_snake haccepts
    have hseg := segments_words hn
    rw [hwords] at hseg
    have hsame : (snake.recase w).toList = w.toList := by
      refine String.toList_ofList.trans ((List.map_congr_left fun c hc => ?_).trans (List.map_id' _))
      simp [lowerChar, hsmall c (hseg.mem_of_mem_word List.mem_cons_self hc)]
    have hw := hseg.written w List.mem_cons_self
    -- the respelled name has its first word in front of its first underscore, and the start, too
    have hword : w.toList = q := by
      rw [hsame] at hrest
      refine append_underscore_inj hrest (fun c => hw.ne_underscore) (fun c hc => ?_) ?_ (by simp)
      · exact ne_underscore_of_isLetter (isLetter_of_isLower (hlower c hc))
      · cases ws <;> simp
    obtain ⟨behind, hcs, hbehind⟩ := hseg.exists_append fun c hc => by
      obtain ⟨cs, hcs⟩ := List.head?_eq_some_iff.mp hc
      rintro rfl
      simp [hcs] at hfront
    obtain ⟨d, cs, rfl⟩ : ∃ d cs, behind = d :: cs := by
      refine List.exists_cons_of_ne_nil fun hnil => ?_
      -- there is another word, whose underscore belongs to the start
      have hws : ws = [] := hbehind.eq_nil_iff.mpr (by simp [hnil])
      simp [hws, hsame, hword] at hrest
    have hd : d = '_' := eq_underscore_of_words hwords hn hsmall hw.ne_nil (hword ▸ hlower) hcs
    refine startsWithAny_iff.mpr ⟨p, hp, cs, ?_⟩
    rw [hpq, hcs, hd, hword]
    simp

end Starts

/-! ## The proposed names -/

section Proposed

open Naming Convention

variable {n : String}

theorem boolName_of_words_eq_nil (hn : IsName n) (h : words n = []) : boolName n = "is_" := by
  have hdrop : n.toList.dropWhile (· == '_') = [] :=
    List.dropWhile_eq_nil_iff.mpr fun c hc => beq_iff_eq.mpr ((words_eq_nil_iff hn).mp h c hc)
  rw [boolName, respell_of_words_eq_nil _ h, hdrop]
  decide

/-- **The proposed name** is `is` and the words of the name, in small letters. -/
theorem toList_boolName (hn : IsName n) (h : words n ≠ []) : (boolName n).toList =
    "is".toList ++ ((words n).map lower).flatMap fun v => '_' :: v.toList := by
  have hwritten := written_of_mem_map_recase .snake hn
  obtain ⟨w, ws, hws⟩ := List.exists_cons_of_ne_nil h
  rw [hws] at hwritten
  have hw := hwritten _ List.mem_cons_self
  obtain ⟨c, cs, hc⟩ := List.exists_cons_of_ne_nil hw.ne_nil
  have hdrop : (snake.respell n).toList.dropWhile (· == '_') =
      (lower w).toList ++ (ws.map lower).flatMap fun v => '_' :: v.toList := by
    rw [toList_respell (by decide) hws, List.dropWhile_append_of_pos fun d => List.mem_takeWhile_imp]
    have hne : c ≠ '_' := hw.ne_underscore (by simp [hc])
    rw [hc, List.cons_append, List.dropWhile_cons_of_neg (by simpa using hne)]
    rw [← List.cons_append, ← hc]
    rfl
  rw [boolName, hdrop, hws]
  simp

theorem startsWithAny_boolName (n : String) : Text.startsWithAny boolStarts (boolName n) :=
  startsWithAny_iff.mpr ⟨"is_", by decide, by simp [boolName]⟩

theorem accepts_boolName_iff (hn : IsName n) :
    snake.accepts (boolName n) ↔ ∃ c ∈ n.toList, c ≠ '_' := by
  have hword : words n ≠ [] ↔ ∃ c ∈ n.toList, c ≠ '_' := by
    simp [words_eq_nil_iff hn]
  rw [← hword]
  by_cases h : words n = []
  · rw [boolName_of_words_eq_nil hn h]
    simp only [h, ne_eq, not_true_eq_false, iff_false]
    decide
  · have his : Written snake.letter "is" :=
      ⟨by decide, "is".toList, [], by decide, List.all_eq_true.mp (by decide), by simp⟩
    have hwritten : ∀ v ∈ "is" :: (words n).map lower, Written snake.letter v :=
      List.forall_mem_cons.mpr ⟨his, written_letter_of_mem (c := snake) (by decide) hn⟩
    have haccepts := accepts_of_written (by decide) (List.forall_mem_nil _) hwritten
      (toList_boolName hn h)
    rw [haccepts]
    simp only [h, ne_eq, not_false_eq_true, iff_true]
    decide

end Proposed

/-! ## What there is to say on a proposal -/

section Proposals

open Naming Convention

variable {n : String}

/-- **What there is to say on the proposal** of `fix` for a truth value that is called `n`. -/
structure BoolProposal (n fix : String) : Prop where
  /-- What is proposed starts as it should. -/
  starts : Text.startsWithAny boolStarts fix
  /-- So it is not remarked on again. -/
  boolRemark?_eq : ∀ what pos, boolRemark? what fix pos = none
  /-- It follows the convention, unless the name is made of underscores. -/
  accepts_iff : snake.accepts fix ↔ ∃ c ∈ n.toList, c ≠ '_'
  /-- Just then the other check has nothing to remark on it. -/
  caseRemark?_eq_iff :
    (∀ t : NamedThing, t.name = fix → t.convention = .snake → caseRemark? t = none) ↔
      ∃ c ∈ n.toList, c ≠ '_'
  /-- If the respelled name starts as it should, it gets another start. -/
  doubled : Text.startsWithAny boolStarts (snake.respell n) → fix = "is_" ++ snake.respell n
  /-- So the respelled name is what is proposed in that case only if the case does not arise. -/
  agrees_iff :
    (Text.startsWithAny boolStarts (snake.respell n) → fix = snake.respell n) ↔
      ¬Text.startsWithAny boolStarts (snake.respell n)

theorem boolName_of_startsWithAny_respell (h : Text.startsWithAny boolStarts (snake.respell n)) :
    boolName n = "is_" ++ snake.respell n := by
  have hsplit := List.takeWhile_append_dropWhile (p := (· == '_')) (l := (snake.respell n).toList)
  rw [takeWhile_of_startsWithAny h, List.nil_append] at hsplit
  rw [boolName, hsplit, String.ofList_toList]

/-- **The proposal** for a name. -/
theorem boolProposal_boolName (hn : IsName n) : BoolProposal n (boolName n) := by
  have haccepts := accepts_boolName_iff hn
  constructor
  case starts => exact startsWithAny_boolName n
  case boolRemark?_eq =>
    intro what pos
    rw [boolRemark?, if_pos (startsWithAny_boolName n)]
  case accepts_iff => exact haccepts
  case caseRemark?_eq_iff =>
    rw [← haccepts]
    exact forall_caseRemark?_eq_none_iff ⟨'i', by simp [boolName], by decide⟩
  case agrees_iff =>
    refine ⟨fun hsame hprefixed => ?_, fun hno hprefixed => absurd hprefixed hno⟩
    have hlonger := (boolName_of_startsWithAny_respell hprefixed).symm.trans (hsame hprefixed)
    have hlength := congrArg (·.toList.length) hlonger
    simp at hlength
    omega
  case doubled => exact boolName_of_startsWithAny_respell

/-- A name that starts as it should only once it is respelled does not follow the convention. -/
theorem exists_caseRemark?_of_respell {t : NamedThing} (hn : IsName t.name)
    (hconvention : t.convention = .snake) (hstart : ¬Text.startsWithAny boolStarts t.name)
    (hprefixed : Text.startsWithAny boolStarts (snake.respell t.name)) :
    ∃ r, caseRemark? t = some r := by
  have hno : ¬t.convention.accepts t.name := by
    rw [hconvention]
    exact fun hyes => hstart (startsWithAny_of_respell hn hyes hprefixed)
  refine exists_caseRemark? hno ?_
  by_contra hall
  have hwords : words t.name = [] := (words_eq_nil_iff hn).mpr (by simpa using hall)
  rw [respell_of_words_eq_nil _ hwords] at hprefixed
  exact hstart hprefixed

end Proposals

/-! ## The proposals for a text -/

section Text

variable {path text : String}

/-- What is said on the name of a truth value is said at the name, and proposes another. -/
theorem of_boolRemark? {what n : String} {pos : Position} {m : Remark}
    (h : boolRemark? what n pos = some m) : ¬Text.startsWithAny boolStarts n ∧
      m.line = pos.line ∧ m.column = pos.column ∧ m.fix = some (boolName n) := by
  unfold boolRemark? at h
  split at h
  case isTrue => cases h
  case isFalse hstart =>
    cases h
    exact ⟨hstart, rfl, rfl, rfl⟩

/-- The token is the name of something that the convention in small letters is for. -/
def Subject.Names (s : Subject) (t : Token) : Prop :=
  ∃ n ∈ (namedThings s).values, n.name = t.text ∧ n.pos = t.pos ∧ n.convention = .snake

/-- The named things of a function: its name, unless it is a method of a trait, its parameters, and
the bindings in its body. -/
theorem values_namedThingsOf {s : Subject} {e : Entry} {sig : Signature} {isTraitMethod : Bool}
    (hsig : e.decl.signature? = some sig) (htrait : s.isTraitMethod e = .ok isTraitMethod) :
    (namedThingsOf s e).values =
      (if isTraitMethod then [] else [⟨"function", e.decl.name, e.decl.pos, .snake⟩]) ++
        sig.params.map (fun p => ⟨"parameter", p.name, p.pos, .snake⟩) ++
        (letBindings (bodyTokens s.stream sig)).map fun b =>
          ⟨"variable", b.1.text, b.1.pos, .snake⟩ := by
  have hshape : e.decl.shape = .function sig := by
    cases hd : e.decl.shape <;> simp_all [Declaration.signature?]
  rw [namedThingsOf, hshape]
  dsimp only
  rw [htrait]
  rfl

theorem mem_namedThings {s : Subject} (hs : s.Sourced) {e : Entry} {n : NamedThing}
    (he : e ∈ s.arena.entries) (hn : n ∈ (namedThingsOf s e).values) :
    n ∈ (namedThings s).values :=
  (Emission.mem_values_each fun _ hd => (sound_namedThingsOf hs hd).failure_eq).mpr ⟨e, he, hn⟩

/-- **The remarks on a text** are said on identifiers, which the other check looks at as well. -/
theorem sound_boolPrefixRule_ofText (path text : String) :
    (boolPrefixRule.check (Subject.ofText path text)).Sound fun m =>
      ∃ t ∈ significant (scan text), t.kind = .identifier ∧
        (Subject.ofText path text).Names t ∧ ∃ what, boolRemark? what t.text t.pos = some m := by
  have hs := sourced_ofText path text
  refine sound_boolPrefixRule_of hs (fun e sig he htrait m hm => ?_) fun e sig he b hb m hm => ?_
  · have hentry := mem_of_mem_functions he
    have hsig := signature?_of_mem_functions he
    obtain ⟨t, ht, hnamed⟩ := exists_namedBy hentry hsig
    rw [hnamed.text, hnamed.pos] at hm
    refine ⟨t, ht, hnamed.kind, ⟨⟨"function", e.decl.name, e.decl.pos, .snake⟩,
      mem_namedThings hs hentry ?_, hnamed.text, hnamed.pos, rfl⟩, _, hm⟩
    rw [values_namedThingsOf hsig htrait]
    simp
  · have hentry := mem_of_mem_functions he
    obtain ⟨hmem, hkind⟩ := of_mem_letBindings hb
    have hscan : b.1 ∈ scan text := mem_of_mem_bodyTokens hmem
    have hword : b.1.isComment = false := by rw [Token.isComment, hkind]; rfl
    obtain ⟨isTraitMethod, htrait⟩ := exists_isTraitMethod hs hentry
    refine ⟨b.1, List.mem_filter.mpr ⟨hscan, by simp [hword]⟩, hkind,
      ⟨⟨"variable", b.1.text, b.1.pos, .snake⟩, mem_namedThings hs hentry ?_, rfl, rfl, rfl⟩, _, hm⟩
    rw [values_namedThingsOf (signature?_of_mem_functions he) htrait]
    exact List.mem_append_right _ (List.mem_map_of_mem hb)

/-- **A finding on the name of a truth value**, at the name. -/
structure BoolFinding (s : Subject) (f : Finding) (t : Token) : Prop where
  /-- The name is an identifier. -/
  kind : t.kind = .identifier
  /-- The finding is there. -/
  isAt : f.IsAt t
  /-- The name does not start as it should. -/
  start : ¬Text.startsWithAny boolStarts t.text
  /-- Another name is proposed. -/
  proposal : ∃ fix, f.fix = some fix ∧ BoolProposal t.text fix
  /-- If the name starts as it should once it is respelled, the other check has a finding there, too,
  and proposes the respelled name. -/
  contested : Text.startsWithAny boolStarts (Convention.snake.respell t.text) →
    ∃ g ∈ caseRule.run s, g.IsAt t ∧ g.fix = some (Convention.snake.respell t.text)

/-- **What is proposed for the names of truth values** in a text. -/
theorem proposals_of_text {f : Finding} (hf : f ∈ boolPrefixRule.run (Subject.ofText path text)) :
    ∃ t ∈ significant (scan text), BoolFinding (Subject.ofText path text) f t := by
  have hsound := sound_boolPrefixRule_ofText path text
  rw [Rule.run, hsound.failure_eq] at hf
  obtain ⟨m, hm, rfl⟩ := List.mem_map.mp hf
  obtain ⟨t, ht, hkind, ⟨n, hn, hname, hpos, hconvention⟩, what, hremark⟩ := hsound.values m hm
  obtain ⟨hstart, hline, hcolumn, hfix⟩ := of_boolRemark? hremark
  have his : Naming.IsName t.text := isName_of_mem_scan (List.mem_filter.mp ht).1 hkind
  refine ⟨t, ht, hkind, ⟨hline, hcolumn⟩, hstart, ⟨_, hfix, boolProposal_boolName his⟩, ?_⟩
  intro hprefixed
  rw [← hname] at his hstart hprefixed ⊢
  obtain ⟨r, hr⟩ := exists_caseRemark?_of_respell his hconvention hstart hprefixed
  obtain ⟨hrline, hrcolumn, hrfix⟩ := of_caseRemark? hr
  rw [hpos] at hrline hrcolumn
  refine ⟨caseRule.finding path r, ?_, ⟨hrline, hrcolumn⟩, hconvention ▸ hrfix⟩
  rw [Rule.run, (sound_caseRule (sourced_ofText path text)).failure_eq]
  exact List.mem_map_of_mem (List.mem_filterMap.mpr ⟨n, hn, hr⟩)

/-- A truth value whose name starts as it should, but for the case of its letters. -/
def capitalStart : String :=
  "fn f() \x7b let isReady = true; \x7d"

/-- It gets a further start. -/
theorem doubled_capitalStart : ∃ f ∈ boolPrefixRule.run (Subject.ofText "a.kl" capitalStart),
    f.fix = some "is_is_ready" ∧ Convention.snake.respell "isReady" = "is_ready" ∧
    ∃ t ∈ significant (scan capitalStart),
      BoolFinding (Subject.ofText "a.kl" capitalStart) f t := by
  have hfixes : (boolPrefixRule.run (Subject.ofText "a.kl" capitalStart)).map (·.fix) =
      [some "is_is_ready"] := by
    decide +kernel
  obtain ⟨f, hf, hfix⟩ := List.mem_map.mp (hfixes ▸ List.mem_singleton_self _)
  exact ⟨f, hf, hfix, by decide +kernel, proposals_of_text hf⟩

end Text

end KlarAudit

import KlarAudit.Audit.Source
import KlarAudit.Proofs.Arena.Links
import KlarAudit.Proofs.Grammar.OriginForest
import KlarAudit.Proofs.Token.Lossless
import KlarAudit.Rule.Catalogue

/-!
# The built-in rules on a parsed file

A check could fail in four ways: by following a link that leads out of the arena, to the parent of a
function or to a method of a trait; by asking what the names of no methods have in common; and by
taking the text of no tokens. The arena of a parsed file is well formed, which rules out the first
two, and the checks look before they leap, which rules out the others. What they remark on is a
declaration, a part of one, an unsafe block or a token of a body, all of which are where some token
of the file is.

## Main definitions

* `Finding.IsAt`: a finding is located at a token
* `Subject.Sourced`: what parsing makes sure of in what the rules look at
* `Remark.Proper`: a remark on a token, which cannot be taken for the report of a failure

## Main results

* `sourced_ofText`: a parsed file is sourced
* `sound_of_mem_builtinRules`: no built-in rule fails on it, and all its remarks are proper
* `located_auditText`: every finding lies in its file
-/

namespace KlarAudit

/-! ## Findings at tokens -/

/-- **The finding is located at the token.** -/
def Finding.IsAt (f : Finding) (t : Token) : Prop :=
  f.line = t.line ∧ f.column = t.column

instance (f : Finding) (t : Token) : Decidable (f.IsAt t) :=
  inferInstanceAs (Decidable (_ ∧ _))

/-! ## What the rules look at -/

/-- **A subject as parsing makes it**: all positions are those of tokens, and all links lead
somewhere. -/
structure Subject.Sourced (s : Subject) : Prop where
  /-- The positions in the declarations. -/
  entries : ∀ e ∈ s.arena.entries, Heading.MarkedBy (· ∈ s.stream.tokens) e.decl.toHeading
  /-- The positions of the unsafe blocks. -/
  regions : ∀ r ∈ s.arena.regions, Marked (· ∈ s.stream.tokens) r.pos
  /-- The links. -/
  links : WellFormed s.arena.entries

/-- An unsafe block is where its keyword is. -/
theorem marked_of_mem_unsafeRegionsFrom {entries : List Entry} {limit : Nat}
    {before ts : List Token} {r : UnsafeRegion}
    (h : r ∈ unsafeRegionsFrom entries limit before ts) : Marked (· ∈ ts) r.pos := by
  induction ts generalizing before with
  | nil => cases h
  | cons t ts ih =>
    rw [unsafeRegionsFrom] at h
    rcases List.mem_append.mp h with h | h
    · split at h
      · rw [List.mem_singleton.mp h]
        exact marked_of List.mem_cons_self
      · cases h
    · obtain ⟨u, hu, hpos⟩ := ih h
      exact ⟨u, List.mem_cons_of_mem _ hu, hpos⟩

/-- **A parsed file is sourced.** -/
theorem sourced_ofText (path text : String) : (Subject.ofText path text).Sourced where
  entries _ he := marked_of_mem_entries he
  regions _ hr := marked_of_mem_unsafeRegionsFrom hr
  links := wellFormed_flatten (wellShaped_topLevel _)

/-- The tokens of a function body are tokens of the file. -/
theorem mem_of_mem_bodyTokens {ts : TokenStream} {sig : Signature} {t : Token}
    (h : t ∈ bodyTokens ts sig) : t ∈ ts.tokens := by
  unfold bodyTokens at h
  split at h
  · cases h
  · have h := List.mem_of_mem_drop (List.dropLast_subset _ h)
    have h := (List.mem_filter.mp h).1
    rw [TokenStream.within] at h
    exact List.mem_of_mem_take (List.mem_of_mem_drop (List.mem_filter.mp h).1)

theorem mem_of_mem_functions {s : Subject} {e : Entry} {sig : Signature}
    (h : (e, sig) ∈ s.functions) : e ∈ s.arena.entries := by
  obtain ⟨e', he, h⟩ := List.mem_filterMap.mp h
  obtain ⟨sig', -, h⟩ := Option.map_eq_some_iff.mp h
  cases h
  exact he

theorem signature?_of_mem_functions {s : Subject} {e : Entry} {sig : Signature}
    (h : (e, sig) ∈ s.functions) : e.decl.signature? = some sig := by
  obtain ⟨e', -, h⟩ := List.mem_filterMap.mp h
  obtain ⟨sig', hsig, h⟩ := Option.map_eq_some_iff.mp h
  cases h
  exact hsig

/-- The name in a simple binding comes next, or behind the mark that the binding may change. -/
theorem of_letBinding? {after : List Token} {b : Token × Bool} (h : letBinding? after = some b) :
    b.1 ∈ after ∧ b.1.kind = .identifier := by
  unfold letBinding? at h
  dsimp only at h
  split at h
  · cases h
  · rename_i name rest hafter
    have hname : name ∈ after := by
      have hmem : name ∈ name :: rest := List.mem_cons_self
      rw [← hafter] at hmem
      split at hmem
      · exact List.mem_of_mem_tail hmem
      · exact hmem
    split at h
    · rename_i hkind
      cases h
      exact ⟨hname, hkind⟩
    · cases h

/-- The name in a simple binding is an identifier in the body. -/
theorem of_mem_letBindings {body : List Token} {b : Token × Bool} (h : b ∈ letBindings body) :
    b.1 ∈ body ∧ b.1.kind = .identifier := by
  obtain ⟨c, hc, h⟩ := List.mem_filterMap.mp h
  split at h
  · obtain ⟨hname, hkind⟩ := of_letBinding? h
    exact ⟨Context.mem_of_mem_after hc hname, hkind⟩
  · cases h

/-- A statement that drops a value has a name for nothing, a token of the body, and a value. -/
theorem mem_of_mem_discards {body : List Token} {d : Token × List Token} (h : d ∈ discards body) :
    d.1 ∈ body ∧ d.2 ≠ [] := by
  obtain ⟨c, hc, h⟩ := List.mem_filterMap.mp h
  unfold discard? at h
  dsimp only at h
  split at h
  · split at h
    · split at h
      · cases h
      · rename_i hvalue
        cases h
        exact ⟨Context.token_mem_of_mem_all hc, hvalue⟩
    · cases h
  · cases h

/-- The text from the first to the last of some tokens can be taken. -/
theorem exists_sourceText (s : Subject) {ts : List Token} (h : ts ≠ []) :
    ∃ text, sourceText s ts = .ok text := by
  rw [sourceText, List.head?_eq_some_head h, List.getLast?_eq_some_getLast h]
  exact ⟨_, rfl⟩

/-- Names have a word in common, or they have not. -/
theorem exists_shareWord {names : List String} (h : names ≠ []) :
    ∃ b, shareWord names = .ok b := by
  cases names with
  | nil => exact absurd rfl h
  | cons name names => exact ⟨_, rfl⟩

theorem callee_of_loggingCall? {c : Context} {l : LoggingCall} (h : loggingCall? c = some l) :
    l.callee = c.token := by
  unfold loggingCall? at h
  dsimp only at h
  split at h
  · split at h
    · cases h
      rfl
    · cases h
  · cases h

/-- The called token of a logging call is one of the run. -/
theorem mem_of_mem_loggingCalls {ts : List Token} {l : LoggingCall} (h : l ∈ loggingCalls ts) :
    l.callee ∈ ts := by
  obtain ⟨c, hc, h⟩ := List.mem_filterMap.mp h
  rw [callee_of_loggingCall? h]
  exact Context.token_mem_of_mem_all hc

/-! ## Remarks -/

/-- **A proper remark** of the rule: it is on a token, and it has another severity than the report
of a failure has, or a fix, which the report of a failure has not. -/
structure Remark.Proper (ts : List Token) (r : Rule) (m : Remark) : Prop where
  /-- It is on a token. -/
  place : ∃ t ∈ ts, m.line = t.line ∧ m.column = t.column
  /-- It is no report of a failure. -/
  apart : m.fix.isSome ∨ m.severity.getD r.severity ≠ .medium

theorem Remark.proper_at {ts : List Token} {r : Rule} {p : Position} {message : String}
    {fix : Option String} {severity : Option Severity} (hp : Marked (· ∈ ts) p)
    (h : fix.isSome ∨ severity.getD r.severity ≠ .medium) :
    (Remark.at p message fix severity).Proper ts r := by
  obtain ⟨t, ht, rfl⟩ := hp
  exact ⟨⟨t, ht, rfl, rfl⟩, h⟩

/-! ## Rules that look at tokens only -/

/-- What is said on the name of a truth value is said at the name, with another name for it. -/
theorem proper_of_boolRemark? {s : Subject} {what name : String} {p : Position}
    (hp : Marked (· ∈ s.stream.tokens) p) {m : Remark} (h : m ∈ boolRemark? what name p) :
    m.Proper s.stream.tokens boolPrefixRule := by
  unfold boolRemark? at h
  split at h
  · cases h
  · cases h
    exact Remark.proper_at hp (.inl rfl)

theorem sound_discardedErrorRule (s : Subject) :
    (discardedErrorRule.check s).Sound (Remark.Proper s.stream.tokens discardedErrorRule) := by
  refine .each fun (_, sig) _ => .each fun (name, value) hd => ?_
  obtain ⟨hname, hvalue⟩ := mem_of_mem_discards hd
  show (discardedErrorRemarks s s.fallible name value).Sound _
  unfold discardedErrorRemarks
  split
  · split
    · obtain ⟨text, htext⟩ := exists_sourceText s hvalue
      refine .after htext ?_
      refine Emission.sound_all (List.forall_mem_singleton.mpr ?_)
      exact Remark.proper_at (marked_of (mem_of_mem_bodyTokens hname)) (.inl rfl)
    · exact Emission.sound_all (List.forall_mem_nil _)
  · exact Emission.sound_all (List.forall_mem_nil _)

theorem sound_uncheckedIndexRule (s : Subject) :
    (uncheckedIndexRule.check s).Sound (Remark.Proper s.stream.tokens uncheckedIndexRule) := by
  refine Emission.sound_all fun m hm => ?_
  obtain ⟨⟨e, sig⟩, -, hm⟩ := List.mem_flatMap.mp hm
  obtain ⟨c, hc, hm⟩ := List.mem_filterMap.mp hm
  have htoken := mem_of_mem_bodyTokens (Context.token_mem_of_mem_all hc)
  unfold uncheckedIndexRemark? at hm
  split at hm
  · split at hm
    · split at hm
      · cases hm
      · split at hm
        · cases hm
        · cases hm
          exact Remark.proper_at (marked_of htoken) (.inl rfl)
    · cases hm
  · cases hm

theorem sound_loggedSecretRule (s : Subject) :
    (loggedSecretRule.check s).Sound (Remark.Proper s.stream.tokens loggedSecretRule) := by
  refine Emission.sound_all_filterMap fun l hl m hm => ?_
  have hcallee := (List.mem_filter.mp (mem_of_mem_loggingCalls hl)).1
  unfold loggedSecretRemark? at hm
  split at hm
  · cases hm
  · cases hm
    exact Remark.proper_at (marked_of hcallee) (.inr (by decide))

/-! ## Rules that look at declarations -/

section Rules

variable {s : Subject} (hs : s.Sourced)

include hs

theorem Subject.Sourced.marked_pos {e : Entry} (he : e ∈ s.arena.entries) :
    Marked (· ∈ s.stream.tokens) e.decl.pos :=
  hs.entries e he _ List.mem_cons_self

theorem Subject.Sourced.marked_shape {e : Entry} (he : e ∈ s.arena.entries) {p : Position}
    (hp : p ∈ e.decl.shape.positions) : Marked (· ∈ s.stream.tokens) p :=
  hs.entries e he _ (List.mem_cons_of_mem _ hp)

/-- The parent of a function is in the arena. -/
theorem exists_isTraitMethod {e : Entry} (he : e ∈ s.arena.entries) :
    ∃ b, s.isTraitMethod e = .ok b := by
  obtain ⟨i, hi⟩ := List.mem_iff_getElem?.mp he
  unfold Subject.isTraitMethod
  split
  · exact ⟨false, rfl⟩
  · rename_i parent hparent
    obtain ⟨-, f, hf, -⟩ := hs.links.parent_before hi hparent
    rw [Arena.entryAt, hf]
    exact ⟨_, rfl⟩

/-- The methods of a trait are in the arena. -/
theorem exists_methodNames {e : Entry} (he : e ∈ s.arena.entries) {g : Generics}
    (hshape : e.decl.shape = .trait g) :
    ∃ names, s.methodNames e = .ok names ∧ names.length = e.members.length := by
  obtain ⟨i, hi⟩ := List.mem_iff_getElem?.mp he
  -- The methods of a trait are picked from the entries, so there is an entry for each.
  have hmembers : ∀ j ∈ e.members, ∃ f, s.arena.entries[j]? = some f := by
    rw [hs.links.methods hi (by rw [hshape]; rfl) (by rw [hshape]; exact Shape.noConfusion)]
    intro j hj
    have hany := (List.mem_filter.mp hj).2
    cases hf : s.arena.entries[j]? with
    | none => rw [hf] at hany; cases hany
    | some f => exact ⟨f, rfl⟩
  unfold Subject.methodNames
  generalize e.members = members at hmembers ⊢
  induction members with
  | nil => exact ⟨[], rfl, rfl⟩
  | cons j js ih =>
    obtain ⟨⟨f, hf⟩, hjs⟩ := List.forall_mem_cons.mp hmembers
    obtain ⟨names, hnames, hlength⟩ := ih hjs
    refine ⟨f.decl.name :: names, ?_, by rw [List.length_cons, List.length_cons, hlength]⟩
    rw [List.mapM_cons, hnames, Arena.entryAt, hf]
    rfl

theorem sound_namedThingsOf {e : Entry} (he : e ∈ s.arena.entries) :
    (namedThingsOf s e).Sound fun n => Marked (· ∈ s.stream.tokens) n.pos := by
  have hpos := hs.marked_pos he
  have hshape (p : Position) (hp : p ∈ e.decl.shape.positions) :
      Marked (· ∈ s.stream.tokens) p := hs.marked_shape he hp
  rw [namedThingsOf]
  cases hk : e.decl.shape with
  | module | trait _ | const _ _ =>
    exact Emission.sound_all (List.forall_mem_singleton.mpr hpos)
  | impl _ _ _ => exact Emission.sound_all (List.forall_mem_nil _)
  | struct _ fields =>
    rw [hk] at hshape
    refine Emission.sound_all (List.forall_mem_cons.mpr ⟨hpos, List.forall_mem_map.mpr ?_⟩)
    intro f hf
    exact hshape _ (List.mem_map_of_mem (List.mem_filter.mp hf).1)
  | enum _ variants =>
    rw [hk] at hshape
    refine Emission.sound_all (List.forall_mem_cons.mpr ⟨hpos, List.forall_mem_map.mpr ?_⟩)
    intro v hv
    exact hshape _ (List.mem_map_of_mem hv)
  | function sig =>
    rw [hk] at hshape
    obtain ⟨b, hb⟩ := exists_isTraitMethod hs he
    refine .after hb (Emission.sound_all ?_)
    -- the name of the function, its parameters, and the bindings in its body
    refine List.forall_mem_append.mpr ⟨List.forall_mem_append.mpr ⟨?_, ?_⟩, ?_⟩
    · split
      · exact List.forall_mem_nil _
      · exact List.forall_mem_singleton.mpr hpos
    · refine List.forall_mem_map.mpr fun p hp => ?_
      exact hshape _ (List.mem_map_of_mem hp)
    · refine List.forall_mem_map.mpr fun b hb => ?_
      exact marked_of (mem_of_mem_bodyTokens (of_mem_letBindings hb).1)

theorem sound_namedThings :
    (namedThings s).Sound fun n => Marked (· ∈ s.stream.tokens) n.pos :=
  .each fun _ he => sound_namedThingsOf hs he

theorem sound_caseRule : (caseRule.check s).Sound (Remark.Proper s.stream.tokens caseRule) := by
  refine (sound_namedThings hs).filterMap fun n hn m hm => ?_
  unfold caseRemark? at hm
  split at hm
  · cases hm
  · cases hm
    exact Remark.proper_at hn (.inl rfl)

/-- What is said on the names of truth values is said on the names of functions and on those of
bindings. -/
theorem sound_boolPrefixRule_of {R : Remark → Prop}
    (hfunction : ∀ e sig, (e, sig) ∈ s.functions → s.isTraitMethod e = .ok false →
      ∀ m ∈ boolRemark? "function" e.decl.name e.decl.pos, R m)
    (hvariable : ∀ e sig, (e, sig) ∈ s.functions →
      ∀ b ∈ letBindings (bodyTokens s.stream sig),
        ∀ m ∈ boolRemark? "variable" b.1.text b.1.pos, R m) :
    (boolPrefixRule.check s).Sound R := by
  refine .each fun (e, sig) he => ?_
  refine Emission.Sound.andThen ?_ (Emission.sound_all_filterMap fun (t, isBool) hb m hm => ?_)
  · split
    · obtain ⟨b, hb⟩ := exists_isTraitMethod hs (mem_of_mem_functions he)
      refine .after hb (Emission.sound_all ?_)
      cases b with
      | true => exact List.forall_mem_nil _
      | false => exact fun m hm => hfunction e sig he hb m (Option.mem_toList.mp hm)
    · exact Emission.sound_all (List.forall_mem_nil _)
  · dsimp only at hm
    split at hm
    · exact hvariable e sig he _ hb m hm
    · cases hm

theorem sound_boolPrefixRule :
    (boolPrefixRule.check s).Sound (Remark.Proper s.stream.tokens boolPrefixRule) := by
  refine sound_boolPrefixRule_of hs (fun e sig he _ m hm => ?_) fun e sig he b hb m hm => ?_
  · exact proper_of_boolRemark? (hs.marked_pos (mem_of_mem_functions he)) hm
  · exact proper_of_boolRemark? (marked_of (mem_of_mem_bodyTokens (of_mem_letBindings hb).1)) hm

/-- A field of a structure is where a token is. -/
theorem marked_of_mem_fields {owner : String} {f : Field} (h : (owner, f) ∈ s.fields) :
    Marked (· ∈ s.stream.tokens) f.pos := by
  obtain ⟨d, hd, hf⟩ := List.mem_flatMap.mp h
  obtain ⟨e, he, rfl⟩ := List.mem_map.mp hd
  split at hf
  · rename_i fields hshape
    obtain ⟨f', hf, hpair⟩ := List.mem_map.mp hf
    cases hpair
    refine hs.marked_shape he ?_
    rw [hshape]
    exact List.mem_map_of_mem hf
  · cases hf

theorem sound_storedReferenceRule :
    (storedReferenceRule.check s).Sound (Remark.Proper s.stream.tokens storedReferenceRule) := by
  refine Emission.sound_all_filterMap fun (owner, f) hf m hm => ?_
  unfold storedReferenceRemark? at hm
  dsimp only at hm
  split at hm
  · cases hm
    exact Remark.proper_at (marked_of_mem_fields hs hf) (.inl rfl)
  · cases hm

theorem sound_sharedOwnershipRule :
    (sharedOwnershipRule.check s).Sound (Remark.Proper s.stream.tokens sharedOwnershipRule) := by
  refine Emission.sound_all_filterMap fun (owner, f) hf m hm => ?_
  have hpos := marked_of_mem_fields hs hf
  obtain ⟨⟨wrapper, inner⟩, -, rfl⟩ := Option.map_eq_some_iff.mp hm
  dsimp only
  split
  · exact Remark.proper_at hpos (.inr (by decide))
  · exact Remark.proper_at hpos (.inl rfl)

theorem sound_parameterCountRule :
    (parameterCountRule.check s).Sound (Remark.Proper s.stream.tokens parameterCountRule) := by
  refine Emission.sound_all_filterMap fun (e, sig) he m hm => ?_
  have he := mem_of_mem_functions he
  dsimp only [parameterCountRemark?] at hm
  split at hm
  · cases hm
  · cases hm
    exact Remark.proper_at (hs.marked_pos he) (.inl rfl)

theorem sound_traitCohesionRule :
    (traitCohesionRule.check s).Sound (Remark.Proper s.stream.tokens traitCohesionRule) := by
  refine .each fun e he => ?_
  unfold traitCohesionRemarks
  split
  · rename_i g hshape
    split
    · exact Emission.sound_all (List.forall_mem_nil _)
    · rename_i hmany
      obtain ⟨names, hnames, hlength⟩ := exists_methodNames hs he hshape
      -- names are compared only of more methods than a trait may have, so there is one
      have hne : names ≠ [] := by
        rintro rfl
        rw [List.length_nil] at hlength
        omega
      obtain ⟨b, hb⟩ := exists_shareWord hne
      refine .after hnames (.after hb (Emission.sound_all ?_))
      split
      · exact List.forall_mem_nil _
      · exact List.forall_mem_singleton.mpr
          (Remark.proper_at (hs.marked_pos he) (.inr (by decide)))
  · exact Emission.sound_all (List.forall_mem_nil _)

theorem sound_unstructuredErrorRule :
    (unstructuredErrorRule.check s).Sound
      (Remark.Proper s.stream.tokens unstructuredErrorRule) := by
  refine Emission.sound_all_filterMap fun (e, sig) he m hm => ?_
  have he := mem_of_mem_functions he
  dsimp only [unstructuredErrorRemark?] at hm
  split at hm
  · split at hm
    · cases hm
      exact Remark.proper_at (hs.marked_pos he) (.inl rfl)
    · cases hm
  · cases hm

theorem sound_safetyCommentRule :
    (safetyCommentRule.check s).Sound (Remark.Proper s.stream.tokens safetyCommentRule) := by
  refine Emission.sound_all (List.forall_mem_map.mpr fun r hr => ?_)
  exact Remark.proper_at (hs.regions r (List.mem_filter.mp hr).1) (.inl rfl)

theorem sound_missingDocRule :
    (missingDocRule.check s).Sound (Remark.Proper s.stream.tokens missingDocRule) := by
  refine Emission.sound_all (List.forall_mem_map.mpr fun d hd => ?_)
  have hd := (List.mem_filter.mp (List.mem_filter.mp hd).1).1
  obtain ⟨e, he, rfl⟩ := List.mem_map.mp hd
  exact Remark.proper_at (hs.marked_pos he) (.inl rfl)

/-- **No built-in rule fails**, and all their remarks are proper. -/
theorem sound_of_mem_builtinRules {r : Rule} (hr : r ∈ builtinRules) :
    (r.check s).Sound (Remark.Proper s.stream.tokens r) := by
  simp only [builtinRules, List.mem_cons, List.not_mem_nil, or_false] at hr
  rcases hr with rfl | rfl | rfl | rfl | rfl | rfl | rfl | rfl | rfl | rfl | rfl | rfl
  · exact sound_caseRule hs
  · exact sound_boolPrefixRule hs
  · exact sound_storedReferenceRule hs
  · exact sound_sharedOwnershipRule hs
  · exact sound_parameterCountRule hs
  · exact sound_traitCohesionRule hs
  · exact sound_unstructuredErrorRule hs
  · exact sound_discardedErrorRule s
  · exact sound_safetyCommentRule hs
  · exact sound_uncheckedIndexRule s
  · exact sound_loggedSecretRule s
  · exact sound_missingDocRule hs

end Rules

/-! ## Findings -/

/-- The report of a failure has medium severity and no fix. -/
theorem Remark.Proper.finding_ne_failure {ts : List Token} {r r' : Rule} {m : Remark}
    (h : m.Proper ts r) (path : String) (e : CheckFailure) :
    r.finding path m ≠ r'.failure path e := by
  intro heq
  have hfix : m.fix = none := congrArg Finding.fix heq
  have hseverity : m.severity.getD r.severity = .medium := congrArg Finding.severity heq
  rcases h.apart with hsome | hne
  · rw [hfix] at hsome
    cases hsome
  · exact hne hseverity

/-- **Every finding lies in its file, and no built-in check fails.** Whatever the path and the text,
each finding names the path, has the line and the column that the line index gives for the start of
a token of the text, and does not report the failure of a rule. -/
theorem located_auditText (path text : String) :
    (∀ r ∈ builtinRules, (r.check (Subject.ofText path text)).failure = none) ∧
    ∀ f ∈ (auditText path text builtinRules).findings,
      f.file = path ∧
      (∃ t ∈ scan text, f.line = ((LineIndex.ofText text).location t.start).1 ∧
        f.column = ((LineIndex.ofText text).location t.start).2) ∧
      ∀ (r : Rule) (e : CheckFailure), f ≠ r.failure path e := by
  have hsound {r : Rule} (hr : r ∈ builtinRules) :=
    sound_of_mem_builtinRules (sourced_ofText path text) hr
  have hlocation {t : Token} (ht : t ∈ scan text) :
      (LineIndex.ofText text).location t.start = (t.line, t.column) :=
    (@standsIn_of_mem_scanAt text 0 t ht).1.location
  refine ⟨fun r hr => (hsound hr).failure_eq, fun f hf => ?_⟩
  rw [findings_auditText] at hf
  -- a finding is an issue of the parser or the remark of a rule
  rcases List.mem_append.mp hf with hf | hf
  · obtain ⟨i, hi, rfl⟩ := List.mem_map.mp hf
    obtain ⟨t, ht, hline, hcolumn⟩ := exists_of_mem_issues hi
    refine ⟨rfl, ⟨t, ht, ?_, ?_⟩, fun r e heq => ?_⟩
    · rw [hlocation ht, hline]
      rfl
    · rw [hlocation ht, hcolumn]
      rfl
    · exact Severity.noConfusion (congrArg Finding.severity heq)
  · obtain ⟨r, hr, hf⟩ := List.mem_flatMap.mp hf
    rw [Rule.run, (hsound hr).failure_eq] at hf
    obtain ⟨m, hm, rfl⟩ := List.mem_map.mp hf
    have hproper := (hsound hr).values m hm
    obtain ⟨t, ht, hline, hcolumn⟩ := hproper.place
    refine ⟨rfl, ⟨t, ht, ?_, ?_⟩, fun r' e => hproper.finding_ne_failure path e⟩
    · rw [hlocation ht]
      exact hline
    · rw [hlocation ht]
      exact hcolumn

end KlarAudit

import KlarAudit.Proofs.Command.Completion
import KlarAudit.Proofs.Settings.Reading

/-!
# Rule sets in force

A file and a command line both have a say in which rules run, which findings fail a run and which
files are left out. What the command line says of the selector and of the threshold replaces what
the file says; its patterns come after those of the file; and a rule that the file switches on or
off is not up to the selector at all. What neither of them mentions is as in the default rule set.

## Main definitions

* `SwitchedTo`: a file switches a rule on or off
* `InForce`: the value in force of a setting that both may give
* `Texts`, `CutAtCommas`: the texts that a field lists, and the pieces of a text
* `Effective`: what is in force for a file and a command line

## Main results

* `toggle?_iff`: a toggle says what the file says
* `inForce_getD`: what the command line gives comes before what is in the file
* `ruleSet_effective`: what a file and a command line put in force, and when a file is refused
-/

namespace KlarAudit

/-! ## What a file says on rules -/

/-- **The last word of a mapping on a rule**: the value of the last entry for it. The keys of a
mapping that is read from a document are distinct, so there is one such entry at most. -/
def LastWord (entries : List (Value × Value)) (id : String) (v : Value) : Prop :=
  ∃ before after, entries = before ++ (.text id, v) :: after ∧ ∀ e ∈ after, e.1 ≠ .text id

/-- **A file switches a rule** on or off. -/
def SwitchedTo (data : List (Value × Value)) (id : String) (b : Bool) : Prop :=
  ∃ rules, Value.get? "rules" data = some (.mapping rules) ∧ LastWord rules id (.bool b)

/-- The entry that a toggle is read from. -/
def toggleEntry (t : String × Bool) : Value × Value :=
  (.text t.1, .bool t.2)

theorem toggleEntries_eq_ok {entries : List (Value × Value)} {toggles : List (String × Bool)}
    (h : RuleSet.toggleEntries entries = .ok toggles) : entries = toggles.map toggleEntry := by
  induction entries generalizing toggles with
  | nil =>
    cases h
    rfl
  | cons e entries ih =>
    obtain ⟨k, v⟩ := e
    rw [toggleEntries_cons] at h
    obtain ⟨t, ht, hrest⟩ := exists_of_bind_eq_ok h
    obtain ⟨⟨rfl, rfl⟩, -⟩ := toggleOf_eq_ok_iff.mp ht
    obtain ⟨rest, hentries, rfl⟩ := exists_of_map_eq_ok hrest
    rw [ih hentries]
    rfl

/-- Toggles are put in the order of the identifiers, which keeps the order of those of one rule. -/
theorem filter_mergeSort_toggles (id : String) (toggles : List (String × Bool)) :
    (toggles.mergeSort fun a b => (compare a.1 b.1).isLE).filter (·.1 == id) =
      toggles.filter (·.1 == id) := by
  have trans (a b c : String × Bool) :
      (compare a.1 b.1).isLE → (compare b.1 c.1).isLE → (compare a.1 c.1).isLE :=
    Std.TransCmp.isLE_trans
  have total (a b : String × Bool) :
      ((compare a.1 b.1).isLE || (compare b.1 a.1).isLE) = true := by
    rw [@Std.OrientedCmp.eq_swap _ compare _ b.1 a.1]
    cases compare a.1 b.1 <;> rfl
  -- toggles of one rule are tied, and sorting keeps the order of what is tied
  have htied : (fun t : String × Bool => t.1 == id) =
      Tied (fun a b => (compare a.1 b.1).isLE) (id, true) := by
    funext t
    rw [Bool.eq_iff_iff, tied_iff, beq_iff_eq]
    constructor
    · intro h
      rw [h]
      exact ⟨Std.ReflCmp.isLE_rfl, Std.ReflCmp.isLE_rfl⟩
    · rintro ⟨h₁, h₂⟩
      exact (Std.LawfulEqCmp.eq_of_compare (Std.OrientedCmp.isLE_antisymm h₁ h₂)).symm
  rw [htied]
  exact filter_tied_mergeSort trans total _ toggles

/-- The last toggle of a rule is the last word of the entries that the toggles are read from. -/
theorem find?_reverse_toggles_iff {toggles : List (String × Bool)} {id : String} {b : Bool} :
    (toggles.reverse.find? (·.1 == id)).map (·.2) = some b ↔
      LastWord (toggles.map toggleEntry) id (.bool b) := by
  rw [Option.map_eq_some_iff]
  constructor
  · rintro ⟨t, ht, rfl⟩
    -- what was passed over in the reversed list stands behind the hit in the entries
    obtain ⟨hid, later, earlier, hsplit, hlater⟩ := List.find?_eq_some_iff_append.mp ht
    obtain rfl := eq_of_beq hid
    have htoggles : toggles = earlier.reverse ++ t :: later.reverse := by
      rw [← List.reverse_reverse toggles, hsplit]
      simp
    refine ⟨earlier.reverse.map toggleEntry, later.reverse.map toggleEntry, ?_, ?_⟩
    · rw [htoggles, List.map_append, List.map_cons]
      rfl
    · intro e he hkey
      obtain ⟨t', ht', rfl⟩ := List.mem_map.mp he
      have := hlater t' (List.mem_reverse.mp ht')
      rw [Value.text.inj hkey, beq_self_eq_true] at this
      cases this
  · rintro ⟨before, after, hsplit, hafter⟩
    obtain ⟨earlier, rest, rfl, rfl, hrest⟩ := List.map_eq_append_iff.mp hsplit
    obtain ⟨t, later, rfl, ht, rfl⟩ := List.map_eq_cons_iff.mp hrest
    obtain ⟨hid, hb⟩ := Prod.mk.inj ht
    refine ⟨t, List.find?_eq_some_iff_append.mpr ⟨?_, later.reverse, earlier.reverse, ?_, ?_⟩, ?_⟩
    · rw [Value.text.inj hid, beq_self_eq_true]
    · simp
    · intro t' ht'
      rw [Bool.not_eq_true', beq_eq_false_iff_ne]
      rintro rfl
      exact hafter (toggleEntry t') (List.mem_map_of_mem (List.mem_reverse.mp ht')) rfl
    · exact Value.bool.inj hb

/-- **A toggle says what the file says.** -/
theorem toggle?_iff {data : List (Value × Value)} {s : RuleSet}
    (h : RuleSet.togglesOf (Value.get? "rules" data) = .ok s.toggles) (id : String) (b : Bool) :
    s.toggle? id = some b ↔ SwitchedTo data id b := by
  -- what is looked up depends on the toggles of the rule only, and sorting keeps their order
  have hlookup : s.toggle? id = ((s.toggles.filter (·.1 == id)).reverse.head?).map (·.2) := by
    rw [RuleSet.toggle?, ← List.head?_filter, List.filter_reverse]
  cases hrules : Value.get? "rules" data with
  | none =>
    rw [hrules] at h
    have hnone : s.toggles = [] := (Except.ok.inj h).symm
    rw [hlookup, hnone]
    refine iff_of_false (by simp) ?_
    rintro ⟨rules, hsome, -⟩
    cases hrules.symm.trans hsome
  | some v =>
    rw [hrules] at h
    cases v with
    | mapping rules =>
      obtain ⟨toggles, htoggles, hsorted⟩ := exists_of_map_eq_ok h
      rw [hlookup, ← hsorted, filter_mergeSort_toggles, ← List.filter_reverse, List.head?_filter,
        find?_reverse_toggles_iff, ← toggleEntries_eq_ok htoggles]
      constructor
      · exact fun hword => ⟨rules, hrules, hword⟩
      · rintro ⟨rules', hrules', hword⟩
        cases hrules.symm.trans hrules'
        exact hword
    | _ => cases h

/-! ## What is in force -/

/-- **The value in force** of a setting: the one given on the command line or, failing that, the one
in the file or, failing that, the default one. -/
inductive InForce {α : Type} (known? : String → Option α) (default : α) (given : Option String)
    (filed : Option Value) : α → Prop where
  /-- It is given on the command line. -/
  | given {text : String} {a : α} : given = some text → known? text = some a →
      InForce known? default given filed a
  /-- It is in the file. -/
  | filed {v : Value} {a : α} : given = none → filed = some v → known? v.display = some a →
      InForce known? default given filed a
  /-- It is nowhere. -/
  | default : given = none → filed = none → InForce known? default given filed default

/-- **The texts that a field lists**: none if it is absent, itself if it is a text, and the texts
that the items of a list are written as. -/
inductive Texts : Option Value → List String → Prop where
  /-- There is no field. -/
  | absent : Texts none []
  /-- The field is a text. -/
  | one {v : Value} : v.IsText → Texts (some v) [v.display]
  /-- The field is a list. -/
  | list {xs : List Value} : Texts (some (.list xs)) (xs.map (·.display))

/-- **A text is cut at its commas.** -/
structure CutAtCommas (text : String) (cuts : List String) : Prop where
  /-- The pieces with commas between them make up the text. -/
  joined : [','].intercalate (cuts.map String.toList) = text.toList
  /-- There is a piece. -/
  nonempty : cuts ≠ []
  /-- No comma is in a piece. -/
  free : ∀ cut ∈ cuts, ',' ∉ cut.toList

theorem cutAtCommas_divide (text : String) : CutAtCommas text (Text.divide ',' text) := by
  have hpieces : (Text.divide ',' text).map String.toList = Text.pieces ',' text.toList := by
    rw [Text.divide, List.map_map]
    exact (List.map_congr_left fun cs _ => String.toList_ofList).trans (List.map_id _)
  constructor
  · rw [hpieces, Text.intercalate_pieces]
  · rw [Text.divide, Ne, List.map_eq_nil_iff]
    exact Text.pieces_ne_nil ',' _
  · intro cut hcut
    have hmem : cut.toList ∈ Text.pieces ',' text.toList := hpieces ▸ List.mem_map_of_mem hcut
    exact Text.not_mem_of_mem_pieces hmem

theorem readValue?_eq_some {α : Type} {read? : String → Option α} {text? : Option String}
    {a? : Option α} (h : readValue? read? text? = some a?) :
    (text? = none ∧ a? = none) ∨
      ∃ text a, text? = some text ∧ read? text = some a ∧ a? = some a := by
  cases text? with
  | none =>
    cases h
    exact .inl ⟨rfl, rfl⟩
  | some text =>
    obtain ⟨a, ha, rfl⟩ := Option.map_eq_some_iff.mp h
    exact .inr ⟨text, a, rfl, ha, rfl⟩

/-- A named field says what its value names, and the default if it is absent. -/
def Names {α : Type} (known? : String → Option α) (default : α) (v? : Option Value) (a : α) :
    Prop :=
  (∀ v, v? = some v → known? v.display = some a) ∧ (v? = none → a = default)

/-- **What the command line gives** comes before what is in the file. -/
theorem inForce_getD {α : Type} {known? : String → Option α} {default : α} {given : Option String}
    {filed : Option Value} {a? : Option α} {a : α} (hgiven : readValue? known? given = some a?)
    (hfiled : Names known? default filed a) :
    InForce known? default given filed (a?.getD a) := by
  obtain ⟨hnone, rfl⟩ | ⟨text, b, htext, hb, rfl⟩ := readValue?_eq_some hgiven
  · cases filed with
    | none =>
      obtain rfl := hfiled.2 rfl
      exact .default hnone rfl
    | some v => exact .filed hnone rfl (hfiled.1 v rfl)
  · exact .given htext hb

/-- **What is in force** for a file with the given entries and a command line with the given
options. -/
structure Effective (data : List (Value × Value)) (options : List (AuditOption × Option String))
    (s : RuleSet) : Prop where
  /-- The selector is that of the command line, of the file, or the full one. -/
  selector : InForce RuleSelector.ofLabel? .full (lastValue .rules options)
    (Value.get? "rule_set" data) s.selector
  /-- The threshold is that of the command line, of the file, or the high one. -/
  threshold : InForce Severity.ofLabel? .high (lastValue .threshold options)
    (Value.get? "severity_min" data) s.threshold
  /-- The patterns of the file come before those of the command line. -/
  exclude : ∃ filed cuts, Texts (Value.get? "exclude" data) filed ∧
    List.Forall₂ CutAtCommas (valuesOf .exclude options) cuts ∧
    s.exclude = filed ++ (cuts.flatten.map Text.trim).filter (· != "")
  /-- The rules run in their order, each once. -/
  ordered : (s.enabledRules builtinRules).Sublist builtinRules
  /-- A rule runs if it is switched on or, failing that, selected. -/
  enabled : ∀ r ∈ builtinRules, r ∈ s.enabledRules builtinRules ↔
    SwitchedTo data r.id true ∨
      (∀ b, ¬ SwitchedTo data r.id b) ∧ (s.selector = .full ∨ r.security = true)
  /-- These rules run on every file. -/
  run : ∀ fs paths results, auditAll s builtinRules fs paths = .ok results →
    ∃ files : List String, results = files.map fun file =>
      auditFile fs (s.enabledRules builtinRules) file file

/-- A mapping that is read as a rule set is read field by field. -/
theorem ofMapping_eq_ok {data : List (Value × Value)} {s : RuleSet}
    (h : RuleSet.ofMapping data = .ok s) :
    RuleSet.selectorOf (Value.get? "rule_set" data) = .ok s.selector ∧
    RuleSet.thresholdOf (Value.get? "severity_min" data) = .ok s.threshold ∧
    RuleSet.togglesOf (Value.get? "rules" data) = .ok s.toggles ∧
    RuleSet.textsOf "exclude" [] (Value.get? "exclude" data) = .ok s.exclude := by
  obtain ⟨selector, hselector, h⟩ := exists_of_bind_eq_ok h
  obtain ⟨threshold, hthreshold, h⟩ := exists_of_bind_eq_ok h
  obtain ⟨toggles, htoggles, h⟩ := exists_of_bind_eq_ok h
  obtain ⟨exclude, hexclude, h⟩ := exists_of_bind_eq_ok h
  obtain ⟨extensions, -, h⟩ := exists_of_bind_eq_ok h
  cases h
  exact ⟨hselector, hthreshold, htoggles, hexclude⟩

/-- A field in which a name is looked up says what the name stands for. -/
theorem LooksUp.names {α : Type} {known? : String → Option α} {default a : α}
    {v? : Option Value} {r : Except SetupError α} (h : LooksUp known? default v? r)
    (hr : r = .ok a) : Names known? default v? a := by
  constructor
  · intro v hv
    cases hname : known? v.display with
    | some b =>
      have hb := hr.symm.trans (h.known v b hv hname)
      rw [Except.ok.inj hb]
    | none =>
      obtain ⟨e, he⟩ := h.unknown v hv hname
      cases hr.symm.trans he
  · intro hnone
    exact Except.ok.inj (hr.symm.trans (h.absent hnone))

theorem ofOptions?_eq_some {fs : FileSystem} {options : List (AuditOption × Option String)}
    {paths : List String} {q : AuditRequest}
    (h : AuditRequest.ofOptions? fs options paths = some q) :
    readValue? RuleSelector.ofLabel? (lastValue .rules options) = some q.selector ∧
    readValue? Severity.ofLabel? (lastValue .threshold options) = some q.threshold ∧
    q.exclude = patternsOf (valuesOf .exclude options) := by
  simp only [AuditRequest.ofOptions?, Option.bind_eq_bind, Option.bind_eq_some_iff] at h
  obtain ⟨selector, hselector, form, -, threshold, hthreshold, -, -, output, -, h⟩ := h
  cases h
  exact ⟨hselector, hthreshold, rfl⟩

theorem texts_of_textsOf {key : String} {v? : Option Value} {texts : List String}
    (h : RuleSet.textsOf key [] v? = .ok texts) : Texts v? texts := by
  cases v? with
  | none =>
    cases h
    exact .absent
  | some v =>
    cases v with
    | text s =>
      cases h
      exact .one (.inl ⟨s, rfl⟩)
    | ragged codes =>
      cases h
      exact .one (.inr ⟨codes, rfl⟩)
    | list xs =>
      rw [RuleSet.textsOf] at h
      split at h
      · cases h
        exact .list
      · cases h
    | _ => cases h

/-- The cuts of the values of an option are what its patterns are made of. -/
theorem exists_cuts (values : List String) : ∃ cuts, List.Forall₂ CutAtCommas values cuts ∧
    patternsOf values = (cuts.flatten.map Text.trim).filter (· != "") := by
  refine ⟨values.map (Text.divide ','), ?_, ?_⟩
  · rw [List.forall₂_map_right_iff, List.forall₂_same]
    exact fun text _ => cutAtCommas_divide text
  · rw [patternsOf, List.flatMap_def, List.map_flatten, List.map_map]
    rfl

/-- A rule runs if it is switched on or, failing that, selected. -/
theorem enables_iff {data : List (Value × Value)} {s : RuleSet}
    (h : RuleSet.togglesOf (Value.get? "rules" data) = .ok s.toggles) (r : Rule) :
    s.enables r = true ↔ SwitchedTo data r.id true ∨
      (∀ b, ¬ SwitchedTo data r.id b) ∧ (s.selector = .full ∨ r.security = true) := by
  simp only [← toggle?_iff h, RuleSet.enables]
  cases htoggle : s.toggle? r.id with
  | none => simp
  | some b => simp

/-- **What a file and a command line put in force**, and when a file is refused. -/
theorem ruleSet_effective (data : List (Value × Value)) :
    ((∃ e, RuleSet.ofMapping data = .error e) ↔
      ¬ Known RuleSelector.ofLabel? (Value.get? "rule_set" data) ∨
      ¬ Known Severity.ofLabel? (Value.get? "severity_min" data) ∨
      ¬ SwitchesRules (Value.get? "rules" data) ∨
      ¬ ListsTexts (Value.get? "exclude" data) ∨ ¬ ListsTexts (Value.get? "extensions" data) ∨
      ListsOverlong (Value.get? "exclude" data) ∨ ListsOverlong (Value.get? "extensions" data)) ∧
    ∀ s fs options paths q, RuleSet.ofMapping data = .ok s →
      AuditRequest.ofOptions? fs options paths = some q →
        Effective data options (s.override q) := by
  constructor
  · have hrefused : (∃ e, RuleSet.ofMapping data = .error e) ↔ ¬ FitsMapping data := by
      rw [← (readsIf_ofMapping data).ok_iff]
      cases RuleSet.ofMapping data <;> simp
    rw [hrefused, fitsMapping_iff]
    tauto
  · intro s fs options paths q hs hq
    obtain ⟨hselector, hthreshold, htoggles, hexclude⟩ := ofMapping_eq_ok hs
    obtain ⟨hrules, hlevel, hpatterns⟩ := ofOptions?_eq_some hq
    constructor
    case selector => exact inForce_getD hrules ((looksUp_selectorOf _).names hselector)
    case threshold => exact inForce_getD hlevel ((looksUp_thresholdOf _).names hthreshold)
    case exclude =>
      obtain ⟨cuts, hcuts, hpieces⟩ := exists_cuts (valuesOf .exclude options)
      refine ⟨s.exclude, cuts, texts_of_textsOf hexclude, hcuts, ?_⟩
      rw [RuleSet.override, hpatterns, hpieces]
    case ordered => exact List.filter_sublist
    case enabled =>
      intro r hr
      rw [RuleSet.enabledRules, List.mem_filter, and_iff_right hr]
      exact enables_iff (s := s.override q) htoggles r
    case run =>
      intro fs paths results hresults
      obtain ⟨files, -, h⟩ := exists_files_of_auditAll hresults
      exact ⟨files, h⟩

/-- **A list with a number that is too long** is refused, though it is a list like any other. A
file that only names a selector is in force with the patterns of the command line. -/
theorem refused_overlong_exclude :
    (∃ e, RuleSet.ofMapping [(.text "exclude", .list [.int Value.writableBound])] = .error e) ∧
    ∃ s q, RuleSet.ofMapping [(.text "rule_set", .text "security")] = .ok s ∧
      AuditRequest.ofOptions? {} [(.exclude, some "a, ,b")] ["src"] = some q ∧
      s.override q = { selector := .security, exclude := ["a", "b"] } ∧
      Effective [(.text "rule_set", .text "security")] [(.exclude, some "a, ,b")]
        (s.override q) := by
  constructor
  · have hexclude (v : Value) : Value.get? "exclude" [(.text "exclude", v)] = some v := by
      simp [Value.get?, Value.sameKey]
    refine (ruleSet_effective _).1.mpr (.inr (.inr (.inr (.inr (.inr (.inl ?_))))))
    refine ⟨_, hexclude _, _, List.mem_singleton_self _, .int ?_⟩
    rw [Int.natAbs_natCast]
  · refine ⟨{ selector := .security }, { exclude := ["a", "b"], paths := ["src"] }, rfl, ?_, rfl,
      ?_⟩
    · decide +kernel
    · exact (ruleSet_effective _).2 _ {} _ ["src"] _ rfl (by decide +kernel)

end KlarAudit

import KlarAudit.Settings.RuleSet

/-!
# When settings are read

A rule set is read from a mapping field by field. A field that does not fit is an error of the
configuration, which is told to the user together with what was found. There is one thing that
cannot be told: a whole number with too many digits to be written. It breaks the reading off, both
in the message about a field that does not fit and in a list of texts, where any value is taken for
the text that it is written as.

## Main definitions

* `Value.Overlong`: a number in a value is too long to be written
* `ReadsIf`: when a reading succeeds, and when it breaks off
* `LooksUp`: how a name is read
* `FitsMapping`, `BreaksMapping`: what is read as a rule set, and what breaks the reading off

## Main results

* `Value.isWritable_eq_false_iff`: what can be written
* `ReadsIf.bind`: one reading after the other
* `readsIf_ofMapping`: when a mapping is read as a rule set
-/

namespace KlarAudit

/-! ## Numbers that cannot be written -/

/-- **A number in the value is too long** to be written. -/
inductive Value.Overlong : Value → Prop where
  /-- It is the value. -/
  | int {i : Int} : Value.writableBound ≤ i.natAbs → Overlong (.int i)
  /-- It is in an item of a list. -/
  | item {xs : List Value} {x : Value} : x ∈ xs → Overlong x → Overlong (.list xs)
  /-- It is in a key of a mapping. -/
  | key {entries : List (Value × Value)} {k v : Value} :
      (k, v) ∈ entries → Overlong k → Overlong (.mapping entries)
  /-- It is in a value of a mapping. -/
  | entry {entries : List (Value × Value)} {k v : Value} :
      (k, v) ∈ entries → Overlong v → Overlong (.mapping entries)

namespace Value

mutual

/-- **A value can be written** unless a number in it is too long. -/
theorem isWritable_eq_false_iff : ∀ v : Value, v.isWritable = false ↔ v.Overlong
  | .null | .bool _ | .float _ | .text _ | .ragged _ => by
    constructor
    · intro h
      cases h
    · intro h
      cases h
  | .int i => by
    rw [isWritable, decide_eq_false_iff_not, Nat.not_lt]
    constructor
    · exact .int
    · intro h
      cases h with
      | int h => exact h
  | .list xs => by
    rw [isWritable, areWritable_eq_false_iff xs]
    constructor
    · rintro ⟨x, hx, h⟩
      exact .item hx h
    · intro h
      cases h with
      | item hx h => exact ⟨_, hx, h⟩
  | .mapping entries => by
    rw [isWritable, areEntriesWritable_eq_false_iff entries]
    constructor
    · rintro ⟨e, he, h | h⟩
      · exact .key he h
      · exact .entry he h
    · intro h
      cases h with
      | key he h => exact ⟨_, he, .inl h⟩
      | entry he h => exact ⟨_, he, .inr h⟩

/-- The values of a list can be written unless a number in one of them is too long. -/
theorem areWritable_eq_false_iff : ∀ xs : List Value,
    areWritable xs = false ↔ ∃ x ∈ xs, x.Overlong
  | [] => by simp [areWritable]
  | x :: xs => by
    rw [areWritable, Bool.and_eq_false_iff, isWritable_eq_false_iff x, areWritable_eq_false_iff xs]
    simp only [List.mem_cons, exists_eq_or_imp]

/-- The entries of a mapping can be written unless a number in one of them is too long. -/
theorem areEntriesWritable_eq_false_iff : ∀ entries : List (Value × Value),
    areEntriesWritable entries = false ↔ ∃ e ∈ entries, e.1.Overlong ∨ e.2.Overlong
  | [] => by simp [areEntriesWritable]
  | (k, v) :: entries => by
    rw [areEntriesWritable, Bool.and_eq_false_iff, Bool.and_eq_false_iff,
      isWritable_eq_false_iff k, isWritable_eq_false_iff v,
      areEntriesWritable_eq_false_iff entries]
    simp only [List.mem_cons, exists_eq_or_imp]

end

end Value

/-! ## Readings -/

theorem exists_of_bind_eq_ok {ε α β : Type} {r : Except ε α} {f : α → Except ε β} {b : β}
    (h : r >>= f = .ok b) : ∃ a, r = .ok a ∧ f a = .ok b := by
  cases r with
  | error e => cases h
  | ok a => exact ⟨a, rfl, h⟩

theorem exists_of_map_eq_ok {ε α β : Type} {r : Except ε α} {f : α → β} {b : β}
    (h : r.map f = .ok b) : ∃ a, r = .ok a ∧ f a = b := by
  cases r with
  | error e => cases h
  | ok a => exact ⟨a, rfl, Except.ok.inj h⟩

/-- **A reading of settings** succeeds if what is read `fits`, and breaks off if it `breaks`.
Otherwise the configuration is wrong. -/
structure ReadsIf {α : Type} (r : Except SetupError α) (fits breaks : Prop) : Prop where
  /-- It succeeds. -/
  ok_iff : (∃ a, r = .ok a) ↔ fits
  /-- It breaks off. -/
  breakdown_iff : (∃ b, r = .error (.breakdown b)) ↔ breaks

namespace ReadsIf

variable {α β : Type} {r : Except SetupError α} {fits breaks fits' breaks' : Prop}

theorem of_ok {a : α} (hr : r = .ok a) (hfits : fits) (hbreaks : ¬ breaks) :
    ReadsIf r fits breaks := by
  subst hr
  refine ⟨iff_of_true ⟨a, rfl⟩ hfits, iff_of_false ?_ hbreaks⟩
  rintro ⟨b, hb⟩
  cases hb

theorem of_configuration {e : ConfigError} (hr : r = .error (.configuration e)) (hfits : ¬ fits)
    (hbreaks : ¬ breaks) : ReadsIf r fits breaks := by
  subst hr
  refine ⟨iff_of_false ?_ hfits, iff_of_false ?_ hbreaks⟩
  · rintro ⟨a, ha⟩
    cases ha
  · rintro ⟨b, hb⟩
    cases hb

theorem of_breakdown {b : Breakdown} (hr : r = .error (.breakdown b)) (hfits : ¬ fits)
    (hbreaks : breaks) : ReadsIf r fits breaks := by
  subst hr
  refine ⟨iff_of_false ?_ hfits, iff_of_true ⟨b, rfl⟩ hbreaks⟩
  rintro ⟨a, ha⟩
  cases ha

/-- An error about a value that is too long to be written breaks off. -/
theorem of_about {v : Value} {e : ConfigError} (hr : r = .error (.about v e)) (hfits : ¬ fits)
    (hbreaks : breaks ↔ v.Overlong) : ReadsIf r fits breaks := by
  rw [← Value.isWritable_eq_false_iff] at hbreaks
  rw [SetupError.about] at hr
  cases hw : v.isWritable with
  | true =>
    rw [hw] at hr hbreaks
    exact of_configuration hr hfits fun h => Bool.noConfusion (hbreaks.mp h)
  | false =>
    rw [hw] at hr hbreaks
    exact of_breakdown hr hfits (hbreaks.mpr rfl)

/-- **One reading after the other**: the later one is only tried if the earlier one succeeds. -/
theorem bind {f : α → Except SetupError β} (h : ReadsIf r fits breaks)
    (hf : ∀ a, r = .ok a → ReadsIf (f a) fits' breaks') :
    ReadsIf (r >>= f) (fits ∧ fits') (breaks ∨ fits ∧ breaks') := by
  -- where the earlier one fails, nothing is asked of the later one
  cases r with
  | ok a =>
    have hfits : fits := h.ok_iff.mp ⟨a, rfl⟩
    have hbreaks : ¬ breaks := by
      intro hb
      obtain ⟨b, hb⟩ := h.breakdown_iff.mpr hb
      cases hb
    have hf := hf a rfl
    refine ⟨hf.ok_iff.trans (and_iff_right hfits).symm, hf.breakdown_iff.trans ?_⟩
    rw [or_iff_right hbreaks, and_iff_right hfits]
  | error e =>
    have hfits : ¬ fits := by
      intro hf
      obtain ⟨a, ha⟩ := h.ok_iff.mpr hf
      cases ha
    refine ⟨iff_of_false ?_ fun hboth => hfits hboth.1, ?_⟩
    · rintro ⟨b, hb⟩
      cases hb
    · rw [or_iff_left fun hboth => hfits hboth.1, ← h.breakdown_iff]
      constructor
      · rintro ⟨b, hb⟩
        cases hb
        exact ⟨b, rfl⟩
      · rintro ⟨b, hb⟩
        cases hb
        exact ⟨b, rfl⟩

/-- A reading whose result is used further on. -/
theorem map {f : α → β} (h : ReadsIf r fits breaks) : ReadsIf (r.map f) fits breaks := by
  have hbind : r.map f = r >>= fun a => .ok (f a) := by
    cases r <;> rfl
  have hok (a : α) : ReadsIf (.ok (f a)) True False := of_ok rfl trivial not_false
  have hreads := h.bind fun a _ => hok a
  rwa [← hbind, and_true, and_false, or_false] at hreads

theorem congr (h : ReadsIf r fits breaks) (hfits : fits ↔ fits') (hbreaks : breaks ↔ breaks') :
    ReadsIf r fits' breaks' :=
  ⟨h.ok_iff.trans hfits, h.breakdown_iff.trans hbreaks⟩

end ReadsIf

/-! ## The fields of a rule set -/

/-- **A name is known**, if there is one. -/
def Known {α : Type} (known? : String → Option α) (v? : Option Value) : Prop :=
  ∀ v, v? = some v → ∃ a, known? v.display = some a

/-- **A name is unknown and too long** for a message that says so. -/
def UnknownOverlong {α : Type} (known? : String → Option α) (v? : Option Value) : Prop :=
  ∃ v, v? = some v ∧ known? v.display = none ∧ v.Overlong

/-- **An entry switches a rule** on or off. -/
def Switches (e : Value × Value) : Prop :=
  ∃ r ∈ builtinRules, e.1 = .text r.id ∧ ∃ b, e.2 = .bool b

/-- **All entries of a mapping switch rules**, if there is a value. -/
def SwitchesRules (v? : Option Value) : Prop :=
  ∀ v, v? = some v → ∃ entries, v = .mapping entries ∧ ∀ e ∈ entries, Switches e

/-- **The first entry that switches no rule** has a key that is too long for a message. -/
def OverlongRule (v? : Option Value) : Prop :=
  ∃ before k v after, v? = some (.mapping (before ++ (k, v) :: after)) ∧
    (∀ e ∈ before, Switches e) ∧ k.Overlong

/-- **The value is a text**, of characters or not. -/
def Value.IsText (v : Value) : Prop :=
  (∃ s, v = .text s) ∨ ∃ codes, v = .ragged codes

/-- **A value lists texts**, if there is one: it is a text or a list. -/
def ListsTexts (v? : Option Value) : Prop :=
  ∀ v, v? = some v → v.IsText ∨ ∃ xs, v = .list xs

/-- **A list holds a number that is too long** to be a text. -/
def ListsOverlong (v? : Option Value) : Prop :=
  ∃ xs, v? = some (.list xs) ∧ ∃ x ∈ xs, x.Overlong

section

variable (v? : Option Value)

/-- **A name is looked up**: a field that is absent stands for the default, and a name that is
unknown stands in a message. -/
structure LooksUp {α : Type} (known? : String → Option α) (default : α) (v? : Option Value)
    (r : Except SetupError α) : Prop where
  /-- There is no name. -/
  absent : v? = none → r = .ok default
  /-- The name is known. -/
  known : ∀ v a, v? = some v → known? v.display = some a → r = .ok a
  /-- The name is unknown. -/
  unknown : ∀ v, v? = some v → known? v.display = none → ∃ e, r = .error (.about v e)

/-- A name is read if it is known. -/
theorem LooksUp.readsIf {v? : Option Value} {α : Type} {known? : String → Option α} {default : α}
    {r : Except SetupError α} (h : LooksUp known? default v? r) :
    ReadsIf r (Known known? v?) (UnknownOverlong known? v?) := by
  cases v? with
  | none =>
    refine .of_ok (h.absent rfl) (fun v hv => ?_) ?_
    · cases hv
    · rintro ⟨v, hv, -⟩
      cases hv
  | some v =>
    cases hname : known? v.display with
    | some a =>
      refine .of_ok (h.known v a rfl hname) (fun w hw => ?_) ?_
      · cases hw
        exact ⟨a, hname⟩
      · rintro ⟨w, hw, hnone, -⟩
        cases hw
        cases hname.symm.trans hnone
    | none =>
      obtain ⟨e, he⟩ := h.unknown v rfl hname
      refine .of_about he (fun hknown => ?_) ⟨?_, fun hlong => ⟨v, rfl, hname, hlong⟩⟩
      · obtain ⟨a, ha⟩ := hknown v rfl
        cases hname.symm.trans ha
      · rintro ⟨w, hw, -, hlong⟩
        cases hw
        exact hlong

theorem looksUp_selectorOf :
    LooksUp RuleSelector.ofLabel? .full v? (RuleSet.selectorOf v?) where
  absent h := by rw [h]; rfl
  known v a h ha := by simp only [h, RuleSet.selectorOf, ha]
  unknown v h hv := ⟨.unknownSelector v, by simp only [h, RuleSet.selectorOf, hv]⟩

theorem looksUp_thresholdOf :
    LooksUp Severity.ofLabel? .high v? (RuleSet.thresholdOf v?) where
  absent h := by rw [h]; rfl
  known v a h ha := by simp only [h, RuleSet.thresholdOf, ha]
  unknown v h hv := ⟨.unknownThreshold v, by simp only [h, RuleSet.thresholdOf, hv]⟩

theorem isSome_builtinRule?_iff {id : String} :
    (builtinRule? id).isSome = true ↔ ∃ r ∈ builtinRules, r.id = id := by
  simp [builtinRule?, List.find?_isSome]

/-- An entry that switches a rule is read as the toggle that it is. -/
theorem toggleOf_eq_ok_iff {k v : Value} {t : String × Bool} :
    RuleSet.toggleOf k v = .ok t ↔
      (k = .text t.1 ∧ v = .bool t.2) ∧ ∃ r ∈ builtinRules, r.id = t.1 := by
  rw [← isSome_builtinRule?_iff]
  constructor
  · intro h
    unfold RuleSet.toggleOf at h
    split at h
    · split at h
      · split at h
        · cases h
          exact ⟨⟨rfl, rfl⟩, ‹_›⟩
        · cases h
      · cases h
    · cases h
  · rintro ⟨⟨rfl, rfl⟩, hknown⟩
    simp only [RuleSet.toggleOf, hknown, if_true]

/-- The key of an entry that is refused stands in a message. -/
theorem toggleOf_eq_error {k v : Value} {e : SetupError} (h : RuleSet.toggleOf k v = .error e) :
    ∃ e', e = .about k e' := by
  unfold RuleSet.toggleOf at h
  split at h
  · split at h
    · split at h
      · cases h
      · cases h
        exact ⟨_, rfl⟩
    · cases h
      exact ⟨_, rfl⟩
  · cases h
    exact ⟨_, rfl⟩

theorem switches_iff {k v : Value} : Switches (k, v) ↔ ∃ t, RuleSet.toggleOf k v = .ok t := by
  simp only [toggleOf_eq_ok_iff, Switches]
  constructor
  · rintro ⟨r, hr, rfl, b, rfl⟩
    exact ⟨(r.id, b), ⟨rfl, rfl⟩, r, hr, rfl⟩
  · rintro ⟨⟨id, b⟩, ⟨rfl, rfl⟩, r, hr, rfl⟩
    exact ⟨r, hr, rfl, b, rfl⟩

/-- The key of an entry that switches a rule is an identifier. -/
theorem not_overlong_of_switches {k v : Value} (h : Switches (k, v)) : ¬ k.Overlong := by
  obtain ⟨r, -, rfl, -⟩ := h
  intro h
  cases h

theorem readsIf_toggleOf {k v : Value} :
    ReadsIf (RuleSet.toggleOf k v) (Switches (k, v)) k.Overlong := by
  cases hread : RuleSet.toggleOf k v with
  | ok t =>
    have hswitches := switches_iff.mpr ⟨t, hread⟩
    exact .of_ok rfl hswitches (not_overlong_of_switches hswitches)
  | error e =>
    obtain ⟨e, rfl⟩ := toggleOf_eq_error hread
    refine .of_about rfl (fun h => ?_) Iff.rfl
    obtain ⟨t, ht⟩ := switches_iff.mp h
    cases hread.symm.trans ht

theorem toggleEntries_cons {k v : Value} {entries : List (Value × Value)} :
    RuleSet.toggleEntries ((k, v) :: entries) =
      RuleSet.toggleOf k v >>= fun t => (RuleSet.toggleEntries entries).map (t :: ·) := by
  rw [RuleSet.toggleEntries]
  cases RuleSet.toggleOf k v <;> rfl

/-- Entries are read one after the other. -/
theorem readsIf_toggleEntries (entries : List (Value × Value)) :
    ReadsIf (RuleSet.toggleEntries entries) (∀ e ∈ entries, Switches e)
      (∃ before k v after, entries = before ++ (k, v) :: after ∧
        (∀ e ∈ before, Switches e) ∧ k.Overlong) := by
  induction entries with
  | nil =>
    refine .of_ok rfl (List.forall_mem_nil _) ?_
    rintro ⟨before, k, v, after, h, -⟩
    simp at h
  | cons e entries ih =>
    obtain ⟨k, v⟩ := e
    rw [toggleEntries_cons]
    -- the entry that breaks the reading off is this one, or a later one and this one fits
    refine (readsIf_toggleOf.bind fun t _ => ih.map).congr List.forall_mem_cons.symm ?_
    constructor
    · rintro (h | ⟨hswitches, before, k', v', after, rfl, hbefore, h⟩)
      · exact ⟨[], k, v, entries, rfl, List.forall_mem_nil _, h⟩
      · exact ⟨(k, v) :: before, k', v', after, rfl,
          List.forall_mem_cons.mpr ⟨hswitches, hbefore⟩, h⟩
    · rintro ⟨before, k', v', after, hentries, hbefore, h⟩
      cases before with
      | nil =>
        cases hentries
        exact .inl h
      | cons e before =>
        cases hentries
        obtain ⟨hswitches, hbefore⟩ := List.forall_mem_cons.mp hbefore
        exact .inr ⟨hswitches, before, k', v', after, rfl, hbefore, h⟩

theorem readsIf_togglesOf :
    ReadsIf (RuleSet.togglesOf v?) (SwitchesRules v?) (OverlongRule v?) := by
  -- only a mapping can name rules, and anything else but nothing at all is refused
  have hmapping {entries : List (Value × Value)} (h : v? = some (.mapping entries)) :
      ReadsIf (RuleSet.togglesOf v?) (SwitchesRules v?) (OverlongRule v?) := by
    subst h
    refine (readsIf_toggleEntries entries).map.congr ?_ ?_
    · constructor
      · rintro h v hv
        cases hv
        exact ⟨entries, rfl, h⟩
      · intro h
        obtain ⟨entries, hentries, h⟩ := h _ rfl
        cases hentries
        exact h
    · simp only [OverlongRule, Option.some.injEq, Value.mapping.injEq]
  cases v? with
  | none =>
    refine .of_ok rfl (fun v hv => ?_) ?_
    · cases hv
    · rintro ⟨before, k, v, after, h, -⟩
      cases h
  | some v =>
    cases v with
    | mapping entries => exact hmapping rfl
    | _ =>
      refine .of_configuration rfl (fun h => ?_) ?_
      · obtain ⟨entries, hentries, -⟩ := h _ rfl
        cases hentries
      · rintro ⟨before, k, v, after, h, -⟩
        cases h

/-- A text is no list with a number in it that is too long. -/
theorem Value.IsText.not_listsOverlong {v : Value} (h : v.IsText) : ¬ ListsOverlong (some v) := by
  rintro ⟨xs, hxs, -⟩
  cases hxs
  obtain ⟨s, hs⟩ | ⟨codes, hcodes⟩ := h
  · cases hs
  · cases hcodes

theorem listsOverlong_list_iff {xs : List Value} :
    ListsOverlong (some (.list xs)) ↔ Value.areWritable xs = false := by
  rw [Value.areWritable_eq_false_iff]
  constructor
  · rintro ⟨ys, hys, h⟩
    cases hys
    exact h
  · exact fun h => ⟨xs, rfl, h⟩

/-- Texts are read if they are listed and all of them can be written. -/
theorem readsIf_textsOf (key : String) (default : List String) :
    ReadsIf (RuleSet.textsOf key default v?) (ListsTexts v? ∧ ¬ ListsOverlong v?)
      (ListsOverlong v?) := by
  -- a text counts as a list of one, whatever stands in it
  have htext {v : Value} {texts : List String} (hv : v? = some v) (htext : v.IsText)
      (hr : RuleSet.textsOf key default v? = .ok texts) :
      ReadsIf (RuleSet.textsOf key default v?) (ListsTexts v? ∧ ¬ ListsOverlong v?)
        (ListsOverlong v?) := by
    subst hv
    refine .of_ok hr ⟨fun w hw => ?_, htext.not_listsOverlong⟩ htext.not_listsOverlong
    cases hw
    exact .inl htext
  cases v? with
  | none =>
    have hshort : ¬ ListsOverlong none := by
      rintro ⟨xs, hxs, -⟩
      cases hxs
    refine .of_ok rfl ⟨fun v hv => ?_, hshort⟩ hshort
    cases hv
  | some v =>
    cases v with
    | text s => exact htext rfl (.inl ⟨s, rfl⟩) rfl
    | ragged codes => exact htext rfl (.inr ⟨codes, rfl⟩) rfl
    | list xs =>
      have hlists : ListsTexts (some (.list xs)) := fun v hv => by
        cases hv
        exact .inr ⟨xs, rfl⟩
      rw [RuleSet.textsOf]
      cases hw : Value.areWritable xs with
      | true =>
        have hshort : ¬ ListsOverlong (some (.list xs)) := by
          rw [listsOverlong_list_iff, hw]
          exact Bool.noConfusion
        exact .of_ok rfl ⟨hlists, hshort⟩ hshort
      | false =>
        have hlong := listsOverlong_list_iff.mpr hw
        exact .of_breakdown rfl (fun h => h.2 hlong) hlong
    | _ =>
      refine .of_configuration rfl (fun h => ?_) ?_
      · obtain ⟨s, hs⟩ | ⟨codes, hcodes⟩ | ⟨xs, hxs⟩ := or_assoc.mp (h.1 _ rfl)
        · cases hs
        · cases hcodes
        · cases hxs
      · rintro ⟨xs, hxs, -⟩
        cases hxs

end

/-! ## A rule set -/

/-- **A number breaks the reading of a mapping off**: it stands in a message, or where a text is
wanted, and is too long. The fields are read one after the other, and the first one that does not
fit ends the reading. -/
def BreaksMapping (data : List (Value × Value)) : Prop :=
  UnknownOverlong RuleSelector.ofLabel? (Value.get? "rule_set" data) ∨
  Known RuleSelector.ofLabel? (Value.get? "rule_set" data) ∧
    (UnknownOverlong Severity.ofLabel? (Value.get? "severity_min" data) ∨
    Known Severity.ofLabel? (Value.get? "severity_min" data) ∧
      (OverlongRule (Value.get? "rules" data) ∨
      SwitchesRules (Value.get? "rules" data) ∧
        (ListsOverlong (Value.get? "exclude" data) ∨
        (ListsTexts (Value.get? "exclude" data) ∧ ¬ ListsOverlong (Value.get? "exclude" data)) ∧
          ListsOverlong (Value.get? "extensions" data))))

/-- **A mapping fits**: every field is read. -/
structure FitsMapping (data : List (Value × Value)) : Prop where
  /-- The selector is known. -/
  selector : Known RuleSelector.ofLabel? (Value.get? "rule_set" data)
  /-- The threshold is known. -/
  threshold : Known Severity.ofLabel? (Value.get? "severity_min" data)
  /-- Rules are switched on or off. -/
  rules : SwitchesRules (Value.get? "rules" data)
  /-- Texts are listed, and no number among them is too long. -/
  exclude : ListsTexts (Value.get? "exclude" data) ∧ ¬ ListsOverlong (Value.get? "exclude" data)
  /-- Texts are listed, and no number among them is too long. -/
  extensions : ListsTexts (Value.get? "extensions" data) ∧
    ¬ ListsOverlong (Value.get? "extensions" data)

theorem fitsMapping_iff {data : List (Value × Value)} : FitsMapping data ↔
    Known RuleSelector.ofLabel? (Value.get? "rule_set" data) ∧
    Known Severity.ofLabel? (Value.get? "severity_min" data) ∧
    SwitchesRules (Value.get? "rules" data) ∧
    (ListsTexts (Value.get? "exclude" data) ∧ ¬ ListsOverlong (Value.get? "exclude" data)) ∧
    (ListsTexts (Value.get? "extensions" data) ∧
      ¬ ListsOverlong (Value.get? "extensions" data)) :=
  ⟨fun ⟨h₁, h₂, h₃, h₄, h₅⟩ => ⟨h₁, h₂, h₃, h₄, h₅⟩,
    fun ⟨h₁, h₂, h₃, h₄, h₅⟩ => ⟨h₁, h₂, h₃, h₄, h₅⟩⟩

/-- **When a mapping is read** as a rule set, and when the reading breaks off. -/
theorem readsIf_ofMapping (data : List (Value × Value)) :
    ReadsIf (RuleSet.ofMapping data) (FitsMapping data) (BreaksMapping data) := by
  have hexclude := readsIf_textsOf (Value.get? "exclude" data) "exclude" []
  have hextensions := readsIf_textsOf (Value.get? "extensions" data) "extensions" defaultExtensions
  have hreads := (looksUp_selectorOf (Value.get? "rule_set" data)).readsIf.bind fun selector _ =>
    (looksUp_thresholdOf (Value.get? "severity_min" data)).readsIf.bind fun threshold _ =>
      (readsIf_togglesOf (Value.get? "rules" data)).bind fun toggles _ =>
        hexclude.bind fun exclude _ => hextensions.map (f := fun extensions =>
          ({ selector, toggles, threshold, exclude,
             extensions := extensions.map RuleSet.withPoint } : RuleSet))
  exact hreads.congr fitsMapping_iff.symm Iff.rfl

end KlarAudit

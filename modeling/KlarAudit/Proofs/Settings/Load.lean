import KlarAudit.Command.Invocation
import KlarAudit.Proofs.Settings.Reading

/-!
# Loading a rule set

A file of the rule configuration that can be read is a rule set, or it is a wrong configuration and
the run is refused. This holds for every reader of documents that gives a value or says that the
document is malformed. There are exceptions nevertheless, all of which break the run off: bytes that
are no text, and numbers with too many digits to be written in a message or taken for a text.

## Main definitions

* `documentText?`: the text that the bytes of a configuration hold
* `DocumentReader.Plain`: the reader says of a text that it is malformed, or gives its value
* `FitsDocument`, `BreaksDocument`: what is read as a rule set, and what breaks the reading off
* `BreaksOff`: the bytes that break the reading of a configuration off

## Main results

* `readsIf_loadBy`: when a file is read as a rule set
* `load_exact`: what a file that can be read comes to, and a run with the file in force
-/

namespace KlarAudit

/-- **The text of a configuration**: its bytes, read strictly, with line feeds only. -/
def documentText? (bytes : List UInt8) : Option String :=
  (Utf8.decode? bytes).map fun text => String.ofList (Utf8.unifyBreaks text.toList)

/-- **The reader gives the value of a text**, or says that the text is malformed. -/
def DocumentReader.Plain (read : DocumentReader) : Prop :=
  ∀ text f, read text = .error f → f = .malformed

section

variable (read : DocumentReader)

/-- **What breaks the reading of a document off**: a number in a mapping that is too long. -/
def BreaksDocument (text : String) : Prop :=
  ∃ data, read text = .ok (.mapping data) ∧ BreaksMapping data

/-- **What breaks the reading of a configuration off**: its bytes are no text, or it is a document
that breaks the reading off. -/
def BreaksOff (bytes : List UInt8) : Prop :=
  documentText? bytes = none ∨ ∃ text, documentText? bytes = some text ∧ BreaksDocument read text

/-- **A document is a rule set**: it is empty, or a mapping that fits. -/
def FitsDocument (text : String) : Prop :=
  read text = .ok .null ∨ ∃ data, read text = .ok (.mapping data) ∧ FitsMapping data

end

section

variable {read : DocumentReader} (hread : read.Plain)

include hread in
theorem readsIf_ofTextBy (text : String) :
    ReadsIf (RuleSet.ofTextBy read text) (FitsDocument read text) (BreaksDocument read text) := by
  unfold RuleSet.ofTextBy
  cases hload : read text with
  | error f =>
    obtain rfl := hread text f hload
    refine .of_configuration rfl ?_ ?_
    · simp [FitsDocument, hload]
    · simp [BreaksDocument, hload]
  | ok v =>
    cases v with
    | null =>
      refine .of_ok rfl (.inl hload) ?_
      simp [BreaksDocument, hload]
    | mapping data =>
      refine (readsIf_ofMapping data).congr ?_ ?_
      · simp [FitsDocument, hload]
      · simp [BreaksDocument, hload]
    | _ =>
      refine .of_configuration rfl ?_ ?_
      · simp [FitsDocument, hload]
      · simp [BreaksDocument, hload]

include hread in
/-- **When a file is read** as a rule set, and when the reading breaks off. -/
theorem readsIf_loadBy {fs : FileSystem} {path : String} {bytes : List UInt8}
    (hbytes : fs.read (Path.ofText path).render = .ok bytes) :
    ReadsIf (RuleSet.loadBy read fs path)
      (∃ text, documentText? bytes = some text ∧ FitsDocument read text)
      (BreaksOff read bytes) := by
  -- bytes that are no text break the reading off before anything is parsed
  cases hdecode : Utf8.decode? bytes with
  | none =>
    have htext : documentText? bytes = none := by
      rw [documentText?, hdecode, Option.map_none]
    refine .of_breakdown (b := .undecodable) ?_ ?_ (.inl htext)
    · simp only [RuleSet.loadBy, hbytes, hdecode]
    · simp [htext]
  | some text =>
    have htext : documentText? bytes =
        some (String.ofList (Utf8.unifyBreaks text.toList)) := by
      rw [documentText?, hdecode, Option.map_some]
    have hload : RuleSet.loadBy read fs path =
        RuleSet.ofTextBy read (String.ofList (Utf8.unifyBreaks text.toList)) := by
      simp only [RuleSet.loadBy, hbytes, hdecode]
    rw [hload]
    refine (readsIf_ofTextBy hread _).congr ?_ ?_
    · simp [htext]
    · simp [BreaksOff, htext]

end

/-- **A file that can be read** is a rule set or a wrong configuration, unless it breaks the reading
off. A run with the file in force, because the command line or the settings name it, goes on with
the rule set, is refused with exit code 2 or breaks off accordingly. -/
theorem load_exact {read : DocumentReader} (hread : read.Plain) {fs : FileSystem} {path : String}
    {bytes : List UInt8} (hbytes : fs.read (Path.ofText path).render = .ok bytes) :
    ((∃ s, RuleSet.loadBy read fs path = .ok s) ↔
      ∃ text, documentText? bytes = some text ∧ FitsDocument read text) ∧
    ((∃ b, RuleSet.loadBy read fs path = .error (.breakdown b)) ↔ BreaksOff read bytes) ∧
    (¬ BreaksOff read bytes → (∃ s, RuleSet.loadBy read fs path = .ok s) ∨
      ∃ e, RuleSet.loadBy read fs path = .error (.configuration e)) ∧
    ∀ (config : Option String) (settings : Settings) (run : RuleSet → Outcome),
      (config <|> settings.rulesFile.map (·.render)) = some path →
        let o := Outcome.ofSetup fs run (RuleSet.inForce read fs settings config)
        (∃ s, RuleSet.loadBy read fs path = .ok s ∧ o = run s) ∨
        (∃ e, RuleSet.loadBy read fs path = .error (.configuration e) ∧
          o = .refusal fs (.other e.message) ∧ o.ending.code = 2) ∨
        BreaksOff read bytes ∧ ∃ b, o = .broken fs b := by
  have hreads := readsIf_loadBy hread hbytes
  refine ⟨hreads.ok_iff, hreads.breakdown_iff, ?_, ?_⟩
  · intro hfits
    cases hload : RuleSet.loadBy read fs path with
    | ok s => exact .inl ⟨s, rfl⟩
    | error e =>
      cases e with
      | configuration e => exact .inr ⟨e, rfl⟩
      | breakdown b => exact absurd (hreads.breakdown_iff.mp ⟨b, hload⟩) hfits
  · intro config settings run hpath o
    have hforce : RuleSet.inForce read fs settings config = RuleSet.loadBy read fs path := by
      simp only [RuleSet.inForce, hpath]
    have ho : o = Outcome.ofSetup fs run (RuleSet.loadBy read fs path) :=
      congrArg (Outcome.ofSetup fs run) hforce
    rw [ho]
    -- the three outcomes of loading are the three of the run
    cases hload : RuleSet.loadBy read fs path with
    | ok s => exact .inl ⟨s, rfl, rfl⟩
    | error e =>
      cases e with
      | configuration e => exact .inr (.inl ⟨e, rfl, rfl, rfl⟩)
      | breakdown b => exact .inr (.inr ⟨hreads.breakdown_iff.mp ⟨b, hload⟩, b, rfl⟩)

/-- The documents of this library, all faults of which count as being malformed. -/
def plainReader : DocumentReader :=
  fun text => (Yaml.load text).mapError fun _ => .malformed

theorem plain_plainReader : plainReader.Plain := by
  intro text f h
  unfold plainReader at h
  cases hload : Yaml.load text with
  | error e =>
    rw [hload] at h
    exact (Except.error.inj h).symm
  | ok v =>
    rw [hload] at h
    cases h

/-- A directory with one file in it, whose only byte is that of no character. -/
def undecodableFiles : FileSystem :=
  { root := .directory [("r.yaml", .file [0xff])] }

/-- Listing the rules with that file in force. -/
def undecodableListing : Outcome :=
  Outcome.ofSetup undecodableFiles (fun s => listWith s undecodableFiles none [])
    (RuleSet.inForce plainReader undecodableFiles { directory := ⟨1, []⟩ } (some "r.yaml"))

/-- **A byte that is no text** breaks off the run. -/
theorem broken_undecodable :
    plainReader.Plain ∧ undecodableFiles.read (Path.ofText "r.yaml").render = .ok [0xff] ∧
    (∃ b, RuleSet.loadBy plainReader undecodableFiles "r.yaml" = .error (.breakdown b)) ∧
    ∃ b, undecodableListing = .broken undecodableFiles b := by
  have hbytes : undecodableFiles.read (Path.ofText "r.yaml").render = .ok [0xff] := by
    rfl
  have hbreaks : BreaksOff plainReader [0xff] := .inl (by decide +kernel)
  obtain ⟨-, hbreakdown, -, hrun⟩ := load_exact plain_plainReader hbytes
  obtain ⟨b, hb⟩ := hbreakdown.mpr hbreaks
  refine ⟨plain_plainReader, hbytes, ⟨b, hb⟩, ?_⟩
  obtain ⟨s, hs, -⟩ | ⟨e, he, -⟩ | ⟨-, b, hb⟩ :=
    hrun (some "r.yaml") { directory := ⟨1, []⟩ } (fun s => listWith s undecodableFiles none []) rfl
  · cases hb.symm.trans hs
  · cases hb.symm.trans he
  · exact ⟨b, hb⟩

end KlarAudit

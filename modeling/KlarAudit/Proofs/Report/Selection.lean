import KlarAudit.Audit.Run
import KlarAudit.Proofs.Report.Merge

/-!
# Selecting rules is selecting findings

Rules do not know of each other, so a run with the rules that a rule set enables reports what a run
with all rules reports, less the findings of the other rules. That a file could not be read, or not
as a program, is reported by no rule and stays. For the same reason a rule that fails leaves the
findings of the others as they are.

## Main definitions

* `RuleSet.keeps`: the findings of rules that a rule set enables, and those of no rule

## Main results

* `findings_auditFile_enabledRules`: selecting rules selects findings, file by file
* `findings_insert_of_failure`: a rule that fails adds one finding
* `Report.findings_enabledRules`: selecting rules selects findings of the report
-/

namespace KlarAudit

/-- **The finding is kept**: it is of a built-in rule that the rule set enables, or of none. -/
def RuleSet.keeps (c : RuleSet) (f : Finding) : Bool :=
  builtinRules.any (fun r => r.id == f.rule && c.enables r) || f.rule == parseErrorRule ||
    f.rule == ioErrorRule

/-- No built-in rule bears the name of what is reported by no rule. -/
theorem id_ne_of_mem_builtinRules :
    ∀ r ∈ builtinRules, r.id ≠ parseErrorRule ∧ r.id ≠ ioErrorRule := by
  decide

/-- What is kept of the findings of a built-in rule is all or nothing. -/
theorem RuleSet.keeps_of_mem_run {c : RuleSet} {r : Rule} (hr : r ∈ builtinRules) {s : Subject}
    {f : Finding} (hf : f ∈ r.run s) : c.keeps f = c.enables r := by
  obtain ⟨hparse, hio⟩ := id_ne_of_mem_builtinRules r hr
  rw [keeps, r.rule_of_mem_run hf, beq_false_of_ne hparse, beq_false_of_ne hio, Bool.or_false,
    Bool.or_false, Bool.eq_iff_iff, List.any_eq_true]
  constructor
  · rintro ⟨r', hr', hkept⟩
    obtain ⟨hid, henabled⟩ := Bool.and_eq_true_iff.mp hkept
    rwa [← List.inj_on_of_nodup_map nodup_builtinRules_ids hr' hr (eq_of_beq hid)]
  · intro henabled
    exact ⟨r, hr, Bool.and_eq_true_iff.mpr ⟨beq_self_eq_true _, henabled⟩⟩

/-- **Selecting rules is selecting findings**, rule by rule. -/
theorem runRules_enabledRules (c : RuleSet) (s : Subject) :
    runRules (c.enabledRules builtinRules) s = (runRules builtinRules s).filter c.keeps := by
  rw [filter_runRules (q := c.enables) fun r hr hoff f hf => (c.keeps_of_mem_run hr hf).trans hoff]
  refine (List.filter_eq_self.mpr fun f hf => ?_).symm
  obtain ⟨r, hr, hf⟩ := List.mem_flatMap.mp hf
  obtain ⟨hr, henabled⟩ := List.mem_filter.mp hr
  exact (c.keeps_of_mem_run hr hf).trans henabled

/-- **Selecting rules is selecting findings**, file by file. -/
theorem findings_auditFile_enabledRules (c : RuleSet) (fs : FileSystem) (path display : String) :
    (auditFile fs (c.enabledRules builtinRules) path display).findings =
      (auditFile fs builtinRules path display).findings.filter c.keeps := by
  unfold auditFile
  split
  -- that the file cannot be read is reported by no rule, and stays
  · exact (List.filter_eq_self.mpr fun f hf => by
      rw [List.mem_singleton.mp hf]
      simp [RuleSet.keeps]).symm
  · rename_i bytes _
    rw [findings_auditText, findings_auditText, List.filter_append, runRules_enabledRules]
    -- what the rules find is settled, and parse errors stay
    refine congrArg (· ++ _) (List.filter_eq_self.mpr fun f hf => ?_).symm
    obtain ⟨i, -, rfl⟩ := List.mem_map.mp hf
    simp [RuleSet.keeps, ParseIssue.finding]

/-- The outline of a file does not depend on the rules, whether it can be read or not. -/
theorem outline_auditFile (fs : FileSystem) (rules rules' : List Rule) (path display : String) :
    (auditFile fs rules path display).outline = (auditFile fs rules' path display).outline := by
  unfold auditFile
  split
  · rfl
  · exact outline_auditText ..

theorem path_auditFile (fs : FileSystem) (rules : List Rule) (path display : String) :
    (auditFile fs rules path display).path = display := by
  unfold auditFile
  split
  · rfl
  · exact path_auditText ..

theorem counted_auditFile (fs : FileSystem) (rules : List Rule) (path display : String) :
    (auditFile fs rules path display).Counted := by
  unfold auditFile
  split
  · exact counted_unreadable ..
  · exact counted_auditText ..

/-- **A rule that fails adds one finding**, whatever it has emitted before. -/
theorem findings_insert_of_failure {path text : String} {rule : Rule} {e : CheckFailure}
    (h : (rule.check (Subject.ofText path text)).failure = some e) (before after : List Rule) :
    ∃ front back, (auditText path text (before ++ after)).findings = front ++ back ∧
      (auditText path text (before ++ rule :: after)).findings =
        front ++ rule.failure path e :: back := by
  have hrun : rule.run (Subject.ofText path text) = [rule.failure path e] := by
    rw [Rule.run, h]
    rfl
  refine ⟨(parse (TokenStream.ofText text).tokens).issues.map (·.finding path) ++
    runRules before (Subject.ofText path text), runRules after (Subject.ofText path text), ?_, ?_⟩
  · rw [findings_auditText, runRules, List.flatMap_append, List.append_assoc]
    rfl
  · rw [findings_auditText, runRules, List.flatMap_append, List.flatMap_cons, hrun,
      List.append_assoc]
    rfl

/-- **Selecting rules is selecting findings.** The report with the rules that a rule set enables has
the findings of the report with all rules that the rule set keeps, in their order, and says the same
of the files and of documentation; and a rule that fails on a file adds one finding to those of the
other rules. -/
theorem Report.findings_enabledRules {c : RuleSet} {fs : FileSystem}
    {files : List (String × String)} {results results' : List FileResult}
    (hdistinct : (files.map (·.2)).Nodup)
    (hresults : results.Perm
      (files.map fun file => auditFile fs (c.enabledRules builtinRules) file.1 file.2))
    (hresults' : results'.Perm (files.map fun file => auditFile fs builtinRules file.1 file.2)) :
    (∃ r r', ofFiles? results = some r ∧ ofFiles? results' = some r' ∧
      r.findings = r'.findings.filter c.keeps ∧
      r.files.map (·.outline) = r'.files.map (·.outline) ∧ r.coverage = r'.coverage) ∧
    ∀ (path text : String) (before after : List Rule) (rule : Rule) (e : CheckFailure),
      (rule.check (Subject.ofText path text)).failure = some e →
      ∃ front back, (auditText path text (before ++ after)).findings = front ++ back ∧
        (auditText path text (before ++ rule :: after)).findings =
          front ++ rule.failure path e :: back := by
  constructor
  · obtain ⟨v, hv, hr⟩ := exists_ofFiles?_of_perm hresults hdistinct
      (fun file => path_auditFile fs (c.enabledRules builtinRules) file.1 file.2)
      (fun file => counted_auditFile fs (c.enabledRules builtinRules) file.1 file.2)
    obtain ⟨v', hv', hr'⟩ := exists_ofFiles?_of_perm hresults' hdistinct
      (fun file => path_auditFile fs builtinRules file.1 file.2)
      (fun file => counted_auditFile fs builtinRules file.1 file.2)
    -- rules change neither paths nor outlines, so both reports list the same files in one order
    have houtline := fun sorted : List (String × String) =>
      (List.map_congr_left fun file (_ : file ∈ sorted) =>
        outline_auditFile fs (c.enabledRules builtinRules) builtinRules file.1 file.2)
    refine ⟨_, _, hr, hr', ?_, ?_, ?_⟩
    · simp only [assembled, merged]
      rw [filter_mergeSort Finding.le_trans Finding.le_total, List.flatMap_map, List.flatMap_map,
        List.filter_flatMap]
      exact congrArg (List.mergeSort · Finding.le) (List.flatMap_congr fun file _ =>
        findings_auditFile_enabledRules c fs file.1 file.2)
    · simp only [assembled, List.map_map]
      exact houtline _
    · refine coverage_unique ?_ hv hv'
      simp only [List.map_map]
      exact houtline _
  · intro path text before after rule e h
    exact findings_insert_of_failure h before after

/-- The rules against dangers but one, on a file and a path that leads nowhere; and a rule that
fails. -/
theorem Report.findings_security_rules :
    let c : RuleSet := { selector := .security, toggles := [("unsafe.unchecked-index", false)] }
    let fs : FileSystem := { root := .directory [("a.kl", .file "pub fn F( \x7b".toUTF8.toList)] }
    let files := [("/a.kl", "a.kl"), ("/gone.kl", "gone.kl")]
    (files.map (·.2)).Nodup ∧
    (∃ r r',
      ofFiles? (files.map fun file =>
        auditFile fs (c.enabledRules builtinRules) file.1 file.2).reverse = some r ∧
      ofFiles? (files.map fun file => auditFile fs builtinRules file.1 file.2) = some r' ∧
      r.findings = r'.findings.filter c.keeps ∧
      r.files.map (·.outline) = r'.files.map (·.outline) ∧ r.coverage = r'.coverage) ∧
    ∃ front back, (auditText "a.kl" "fn f();" builtinRules).findings = front ++ back ∧
      (auditText "a.kl" "fn f();" (Rule.faltering "faltering" :: builtinRules)).findings =
        front ++ (Rule.faltering "faltering").failure "a.kl" (.outOfRange "list") :: back := by
  intro c fs files
  have hdistinct : (files.map (·.2)).Nodup := by decide
  have h := @findings_enabledRules c fs files _ _ hdistinct (List.reverse_perm _) (List.Perm.refl _)
  exact ⟨hdistinct, h.1, h.2 "a.kl" "fn f();" [] builtinRules _ _ rfl⟩

end KlarAudit

import KlarAudit.Command.Auditing
import KlarAudit.Proofs.Report.Accounting
import KlarAudit.Proofs.Report.Selection

/-!
# Completed audits

An audit is completed if it is neither refused nor broken off. It has then given out the report on
all files that its paths stand for, and its exit code says whether a finding of that report reaches
the threshold. With the default threshold this is what the verdict of the report says.

## Main definitions

* `Outcome.Completed`: the command ended by itself
* `AuditRequest.Reports`: the outcome is that of the audit with the given report

## Main results

* `nodup_discover`, `own_auditFile`: the results of an audit are of distinct files, and their
  findings name their file
* `AuditRequest.reports_of_completed`: a completed audit has given out a report
* `accounts_completed`: reports account for their findings, and exit codes tell of them
-/

namespace KlarAudit

/-! ## The results of an audit -/

/-- A file stands for itself once, whatever paths lead to it. -/
theorem nodup_discover {s : RuleSet} {fs : FileSystem} {paths files : List String}
    (h : discover s fs paths = .ok files) : files.Nodup := by
  rw [discover] at h
  cases hfound : paths.mapM (filesOf s fs) with
  | error e =>
    rw [hfound] at h
    cases h
  | ok found =>
    rw [hfound] at h
    cases h
    exact Text.nodup_sortedSet _

/-- The findings on a file name the file. -/
theorem own_auditFile (fs : FileSystem) (rules : List Rule) (path display : String) :
    ∀ f ∈ (auditFile fs rules path display).findings, f.file = display := by
  intro f hf
  unfold auditFile at hf
  split at hf
  · rw [List.mem_singleton.mp hf]
  · rw [findings_auditText] at hf
    rcases List.mem_append.mp hf with hf | hf
    · obtain ⟨i, -, rfl⟩ := List.mem_map.mp hf
      rfl
    · obtain ⟨rule, -, hf⟩ := List.mem_flatMap.mp hf
      exact Rule.file_of_mem_run hf

/-- The results of an audit are those for the files that the paths stand for. -/
theorem exists_files_of_auditAll {s : RuleSet} {rules : List Rule} {fs : FileSystem}
    {paths : List String} {results : List FileResult}
    (h : auditAll s rules fs paths = .ok results) :
    ∃ files, discover s fs paths = .ok files ∧
      results = files.map fun file => auditFile fs (s.enabledRules rules) file file := by
  rw [auditAll] at h
  cases hfiles : discover s fs paths with
  | error e =>
    rw [hfiles] at h
    cases h
  | ok files =>
    rw [hfiles] at h
    exact ⟨files, rfl, (Except.ok.inj h).symm⟩

/-- **The report on the results of an audit** accounts for them. -/
theorem accounts_auditAll {s : RuleSet} {rules : List Rule} {fs : FileSystem}
    {paths : List String} {results : List FileResult}
    (h : auditAll s rules fs paths = .ok results) :
    Report.ofFiles? results = some (reportOn results) ∧ (reportOn results).Accounts results := by
  obtain ⟨files, hfiles, hresults⟩ := exists_files_of_auditAll h
  -- a result has the path of its file, and discovery gives each file once
  have hpaths : results.map (·.path) = files := by
    rw [hresults, List.map_map]
    refine (List.map_congr_left fun file _ => ?_).trans (List.map_id files)
    exact path_auditFile fs (s.enabledRules rules) file file
  have haudited (r : FileResult) (hr : r ∈ results) :
      ∃ file, auditFile fs (s.enabledRules rules) file file = r := by
    rw [hresults] at hr
    obtain ⟨file, -, hfile⟩ := List.mem_map.mp hr
    exact ⟨file, hfile⟩
  have hcounted (r : FileResult) (hr : r ∈ results) : r.Counted := by
    obtain ⟨file, rfl⟩ := haudited r hr
    exact counted_auditFile fs (s.enabledRules rules) file file
  have hreport : Report.ofFiles? results = some (reportOn results) := by
    obtain ⟨c, -, hc⟩ := Report.exists_ofFiles? hcounted
    rw [reportOn, hc]
    rfl
  refine ⟨hreport, Report.accounts_of_ofFiles? ?_ ?_ hreport⟩
  · rw [hpaths]
    exact nodup_discover hfiles
  · intro r hr f hf
    obtain ⟨file, rfl⟩ := haudited r hr
    rw [own_auditFile _ _ _ _ f hf, path_auditFile]

/-! ## Completed audits -/

/-- **The command ended by itself**: it was neither refused, nor broken, nor interrupted. -/
def Outcome.Completed (o : Outcome) : Prop :=
  ∃ code, o.ending = .exit code ∧ code ≠ 130

namespace AuditRequest

variable {escape : String → String} {q : AuditRequest} {base : RuleSet} {fs : FileSystem}
  {interrupted : Bool}

/-- **The outcome is that of the audit with the given report**, on the given file results. -/
structure Reports (escape : String → String) (q : AuditRequest) (base : RuleSet) (fs : FileSystem)
    (results : List FileResult) (r : Report) (o : Outcome) : Prop where
  /-- The results are those for all files that the paths stand for. -/
  audited : auditAll (base.override q) builtinRules fs q.paths = .ok results
  /-- The report is on the results. -/
  report : Report.ofFiles? results = some r
  /-- It is given out, in the form and at the place asked for. -/
  published : o = { q.publish escape fs r o.ending with
    prints := q.announcement escape (base.override q) ++
      (q.publish escape fs r o.ending).prints }
  /-- The exit code is zero or one. -/
  code : o.ending = .exit 0 ∨ o.ending = .exit 1
  /-- It is one if a finding of the report reaches the threshold. -/
  reached : o.ending = .exit 1 ↔ ∃ f ∈ r.findings, f.severity.AtLeast (base.override q).threshold

/-- A report is given out with the ending it was to have, unless it is refused. -/
theorem ending_publish (r : Report) (ending : Ending) :
    (q.publish escape fs r ending).ending = ending ∨
      ∃ e, (q.publish escape fs r ending).ending = .usage e := by
  unfold publish
  split
  · split <;> exact .inl rfl
  · dsimp only
    split
    · exact .inl rfl
    · exact .inr ⟨_, rfl⟩

/-- **The exit code** is one if a finding reaches the threshold. -/
theorem ending_eq_exit_one_iff (s : RuleSet) (r : Report) :
    ending s r = .exit 1 ↔ ∃ f ∈ r.findings, f.severity.AtLeast s.threshold := by
  rw [ending]
  cases hreached : (r.atLeast s.threshold).isEmpty with
  | true =>
    have hnone : r.atLeast s.threshold = [] := List.isEmpty_iff.mp hreached
    rw [Report.atLeast, List.filter_eq_nil_iff] at hnone
    simpa using hnone
  | false =>
    have hsome : r.atLeast s.threshold ≠ [] := by simpa using hreached
    obtain ⟨f, hf⟩ := List.exists_mem_of_ne_nil _ hsome
    obtain ⟨hf, hsevere⟩ := List.mem_filter.mp hf
    exact iff_of_true rfl ⟨f, hf, of_decide_eq_true hsevere⟩

variable (escape) in
/-- An audit that is not interrupted publishes its report. -/
theorem perform_eq {results : List FileResult}
    (hresults : auditAll (base.override q) builtinRules fs q.paths = .ok results)
    (hgoes : ¬ (interrupted && !results.isEmpty) = true) :
    q.perform escape base fs interrupted =
      { q.publish escape fs (reportOn results) (ending (base.override q) (reportOn results)) with
        prints := q.announcement escape (base.override q) ++
          (q.publish escape fs (reportOn results)
            (ending (base.override q) (reportOn results))).prints } := by
  simp only [perform, hresults]
  rw [if_neg hgoes]

/-- **A completed audit has given out a report.** -/
theorem reports_of_completed (h : (q.perform escape base fs interrupted).Completed) :
    ∃ results r, q.Reports escape base fs results r (q.perform escape base fs interrupted) ∧
      r.Accounts results := by
  obtain ⟨code, hcode, hnot⟩ := h
  cases hresults : auditAll (base.override q) builtinRules fs q.paths with
  | error e => cases e <;> simp [perform, hresults, Outcome.broken, Outcome.refusal] at hcode
  | ok results =>
    obtain ⟨hreport, haccounts⟩ := accounts_auditAll hresults
    by_cases hgoes : (interrupted && !results.isEmpty) = true
    · -- it has been interrupted, which is an ending of its own
      simp [perform, hresults, hgoes] at hcode
      exact absurd hcode.symm hnot
    · have hperform := perform_eq escape hresults hgoes
      have hending : (q.perform escape base fs interrupted).ending =
          ending (base.override q) (reportOn results) := by
        -- a report that is refused does not end with a code
        rw [hperform] at hcode ⊢
        rcases ending_publish (reportOn results)
          (ending (base.override q) (reportOn results)) with heq | ⟨e, heq⟩
        · exact heq
        · cases heq.symm.trans hcode
      refine ⟨results, reportOn results, ⟨hresults, hreport, ?_, ?_, ?_⟩, haccounts⟩
      · rw [hending]
        exact hperform
      · rw [hending, ending]
        split
        · exact .inl rfl
        · exact .inr rfl
      · rw [hending]
        exact ending_eq_exit_one_iff _ _

end AuditRequest

/-- **Reports account for their findings, and exit codes tell of them.** For file results of
distinct paths whose findings name their file there is a report unless documentation coverage is too
large to be written, and the report accounts for the findings. An audit that is completed has given
out such a report, and its exit code is one if a finding reaches the threshold; with the default
threshold, if the verdict is a failure. -/
theorem accounts_completed :
    (∀ results : List FileResult, (results.map (·.path)).Nodup →
      (∀ r ∈ results, ∀ f ∈ r.findings, f.file = r.path) →
        ((Report.ofFiles? results).isSome ↔ (Report.coverage? results).isSome) ∧
        ((∀ r ∈ results, r.Counted) → (Report.ofFiles? results).isSome) ∧
        ∀ r, Report.ofFiles? results = some r → r.Accounts results) ∧
    (∀ (escape : String → String) (q : AuditRequest) (base : RuleSet) (fs : FileSystem)
      (interrupted : Bool), (q.perform escape base fs interrupted).Completed →
        ∃ results r, q.Reports escape base fs results r (q.perform escape base fs interrupted) ∧
          r.Accounts results ∧
          ((base.override q).threshold = ({} : RuleSet).threshold →
            ((q.perform escape base fs interrupted).ending = .exit 1 ↔ r.status = .fail))) ∧
    ({} : RuleSet).threshold = .high := by
  refine ⟨fun results hdistinct hown => ⟨?_, fun hcounted => ?_, fun r hr => ?_⟩,
    fun escape q base fs interrupted h => ?_, rfl⟩
  · rw [Report.ofFiles?_eq, Option.isSome_map, Report.coverage?_sortFiles]
  · obtain ⟨c, -, hreport⟩ := Report.exists_ofFiles? hcounted
    rw [hreport]
    rfl
  · exact Report.accounts_of_ofFiles? hdistinct hown hr
  · obtain ⟨results, r, hreports, haccounts⟩ := AuditRequest.reports_of_completed h
    refine ⟨results, r, hreports, haccounts, fun hdefault => ?_⟩
    rw [hreports.reached, haccounts.failed, hdefault]
    exact exists_congr fun f => and_congr_right fun _ => Report.atLeast_high_iff f.severity

/-- Results of two files, the later one first; one finding is made twice, and a file has none. -/
def twoResults : List FileResult :=
  let flaw : Finding :=
    { rule := "naming.case", severity := .low, file := "b.kl", line := 2, column := 1
      message := "bad name" }
  [{ path := "b.kl", findings := [flaw, { flaw with line := 1, severity := .critical }, flaw]
     publicCount := 2, documentedCount := 1 },
   { path := "a.kl" }]

/-- A directory with a file that cannot be read as a program. -/
def oneFile : FileSystem :=
  { root := .directory [("a.kl", .file "fn".toUTF8.toList)] }

/-- The request to audit that file. -/
def oneRequest : AuditRequest :=
  { paths := ["a.kl"] }

/-- The report on two results, and an audit that fails. -/
theorem accounts_completed_oneFile :
    (∃ r, Report.ofFiles? twoResults = some r ∧ r.Accounts twoResults) ∧
    (oneRequest.perform Markup.escape {} oneFile false).ending = .exit 1 ∧
    ∃ results r,
      oneRequest.Reports Markup.escape {} oneFile results r
        (oneRequest.perform Markup.escape {} oneFile false) ∧
      r.Accounts results ∧ r.status = .fail := by
  have hdistinct : (twoResults.map (·.path)).Nodup := by decide
  have hown : ∀ r ∈ twoResults, ∀ f ∈ r.findings, f.file = r.path := by decide
  have hcounted : ∀ r ∈ twoResults, r.Counted := by
    simp [twoResults, FileResult.Counted]
  have hending : (oneRequest.perform Markup.escape {} oneFile false).ending = .exit 1 := by
    decide +kernel
  obtain ⟨haccounts, hcompleted, -⟩ := accounts_completed
  obtain ⟨-, hsome, hall⟩ := haccounts twoResults hdistinct hown
  obtain ⟨r, hr⟩ := Option.isSome_iff_exists.mp (hsome hcounted)
  obtain ⟨results, r', hreports, haccounts', hverdict⟩ :=
    hcompleted Markup.escape oneRequest {} oneFile false ⟨1, hending, by decide⟩
  exact ⟨⟨r, hr, hall r hr⟩, hending, results, r', hreports, haccounts',
    (hverdict rfl).mp hending⟩

end KlarAudit

import KlarAudit.Proofs.Report.Merge
import KlarAudit.Rule.Catalogue

/-!
# The report depends on no order

Files are audited side by side and come in as they are finished, and rules may be run in any order.
Findings that are tied in the order of the report are by the same rule on the same file, so they
come from one run of one rule, which puts them in an order of its own. Neither order shows in the
report.

## Main results

* `filter_tied_runRules`: the rules settle the order of a class of ties one by one
* `Report.forms_eq_of_perm`: both forms of the report are the same whatever the order of files and
  of rules
-/

namespace KlarAudit

/-- Of things with distinct keys, those with one key stand alike in every order. -/
theorem filter_key_eq_of_perm {α : Type} {key : α → String} {xs ys : List α} (h : xs.Perm ys)
    (hdistinct : (xs.map key).Nodup) (k : String) :
    xs.filter (key · == k) = ys.filter (key · == k) := by
  have hkeys : (xs.filter (key · == k)).Pairwise fun x y => key x ≠ key y :=
    (List.pairwise_map.mp hdistinct).filter _
  have hkeys' : (ys.filter (key · == k)).Pairwise fun x y => key x ≠ key y :=
    (List.pairwise_map.mp ((h.map key).nodup_iff.mp hdistinct)).filter _
  refine List.Perm.eq_of_pairwise (fun x y hx hy hxy _ => absurd ?_ hxy) hkeys hkeys' (h.filter _)
  rw [eq_of_beq (List.mem_filter.mp hx).2, eq_of_beq (List.mem_filter.mp hy).2]

/-- **Tied findings are by one rule**, so the order of the rules does not matter to them. -/
theorem filter_tied_runRules {rules rules' : List Rule} (hrules : rules.Perm rules')
    (hids : (rules.map (·.id)).Nodup) (s : Subject) (a : Finding) :
    (runRules rules s).filter (Tied Finding.le a) =
      (runRules rules' s).filter (Tied Finding.le a) := by
  -- A finding of another rule than that of `a` is not tied with `a`.
  have hother (r : Rule) (hr : (r.id == a.rule) = false) (f : Finding) (hf : f ∈ r.run s) :
      Tied Finding.le a f = false := by
    refine Bool.eq_false_iff.mpr fun htied => ?_
    obtain ⟨-, -, -, hrule, -⟩ := Finding.eq_of_tied htied
    rw [hrule, r.rule_of_mem_run hf, beq_self_eq_true] at hr
    exact Bool.noConfusion hr
  rw [filter_runRules fun r _ => hother r, filter_key_eq_of_perm hrules hids,
    ← filter_runRules fun r _ => hother r]

/-- The findings of one file are tied in one order, whatever the order of the rules. -/
theorem filter_tied_findings {rules rules' : List Rule} (hrules : rules.Perm rules')
    (hids : (rules.map (·.id)).Nodup) (path text : String) (a : Finding) :
    (auditText path text rules).findings.filter (Tied Finding.le a) =
      (auditText path text rules').findings.filter (Tied Finding.le a) := by
  rw [findings_auditText, findings_auditText, List.filter_append, List.filter_append,
    filter_tied_runRules hrules hids]

namespace Report

/-- **The report depends on no order**: neither on the order in which the results for some files,
all of different paths, come in, nor on the order in which the rules are run. -/
theorem forms_eq_of_perm {files : List (String × String)} {rules rules' : List Rule}
    {results results' : List FileResult} (hpaths : (files.map (·.1)).Nodup)
    (hids : (rules.map (·.id)).Nodup) (hrules : rules.Perm rules')
    (hresults : results.Perm (files.map fun file => auditText file.1 file.2 rules))
    (hresults' : results'.Perm (files.map fun file => auditText file.1 file.2 rules')) :
    ∃ r r', ofFiles? results = some r ∧ ofFiles? results' = some r' ∧
      r.renderJson = r'.renderJson ∧ ∀ escape, r.printsBy escape = r'.printsBy escape := by
  obtain ⟨c, hc, hr⟩ := exists_ofFiles?_of_perm hresults hpaths
    (fun file => path_auditText file.1 file.2 rules)
    (fun file => counted_auditText file.1 file.2 rules)
  obtain ⟨c', hc', hr'⟩ := exists_ofFiles?_of_perm hresults' hpaths
    (fun file => path_auditText file.1 file.2 rules')
    (fun file => counted_auditText file.1 file.2 rules')
  refine ⟨_, _, hr, hr', ?_⟩
  generalize sortedBy (·.1) files = sorted at hc hc'
  -- The results of both runs are of the same files in the same order, and differ in findings only.
  have houtline : (sorted.map fun file => auditText file.1 file.2 rules).map (·.outline) =
      (sorted.map fun file => auditText file.1 file.2 rules').map (·.outline) := by
    rw [List.map_map, List.map_map]
    exact List.map_congr_left fun file _ => outline_auditText file.1 file.2 rules rules'
  -- The findings differ in their order only, and tied ones not even in that.
  have hmerged : merged (sorted.map fun file => auditText file.1 file.2 rules) =
      merged (sorted.map fun file => auditText file.1 file.2 rules') := by
    refine mergeSort_eq_of_filter_tied Finding.le_trans Finding.le_total fun a => ?_
    rw [List.flatMap_map, List.flatMap_map, List.filter_flatMap, List.filter_flatMap]
    exact List.flatMap_congr fun file _ => filter_tied_findings hrules hids file.1 file.2 a
  have houtlined :
      (assembled (sorted.map fun file => auditText file.1 file.2 rules) c).outlined =
        (assembled (sorted.map fun file => auditText file.1 file.2 rules') c').outlined := by
    rw [coverage_unique houtline hc hc']
    simp only [outlined, assembled, houtline, hmerged]
  constructor
  · rw [← renderJson_outlined, houtlined, renderJson_outlined]
  · intro escape
    rw [← printsBy_outlined, houtlined, printsBy_outlined]

/-- Two files the other way round, and a rule that fails first or last. -/
theorem forms_eq_of_swap :
    (["b.kl", "a.kl"].Nodup ∧ ((Rule.faltering "faltering" :: builtinRules).map (·.id)).Nodup ∧
      (Rule.faltering "faltering" :: builtinRules).Perm
        (builtinRules ++ [Rule.faltering "faltering"])) ∧
    ∃ r r',
      ofFiles? ([("b.kl", "pub fn f( \x7b"), ("a.kl", "fn g();")].map fun file =>
        auditText file.1 file.2 (Rule.faltering "faltering" :: builtinRules)) = some r ∧
      ofFiles? ([("a.kl", "fn g();"), ("b.kl", "pub fn f( \x7b")].map fun file =>
        auditText file.1 file.2 (builtinRules ++ [Rule.faltering "faltering"])) = some r' ∧
      r.renderJson = r'.renderJson ∧ ∀ escape, r.printsBy escape = r'.printsBy escape := by
  have hrules := List.perm_append_singleton (Rule.faltering "faltering") builtinRules
  refine ⟨⟨by decide, by decide, hrules.symm⟩, ?_⟩
  exact forms_eq_of_perm (by decide) (by decide) hrules.symm (List.Perm.refl _)
    ((List.Perm.swap _ _ _).map _)

end Report

end KlarAudit

import KlarAudit.Audit.Source
import KlarAudit.Proofs.Report.StableSort
import KlarAudit.Report.Render
import Mathlib.Data.List.Nodup
import Mathlib.Data.Nat.Log

/-!
# Merging file results

What the two forms of a report show of a file is its outline: all but its findings, which the report
lists by itself. Two runs over the same files give outlines that agree whatever rules were run, so a
comparison of two reports comes down to a comparison of the findings of each file.

## Main definitions

* `FileResult.outline`, `Report.outlined`: a file result, and a report, without the findings of
  files
* `FileResult.Counted`: at most all public declarations are documented
* `Report.coverage?`: the documentation coverage of file results
* `Report.assembled`: the report on sorted file results
* `Rule.faltering`: a rule that fails

## Main results

* `sortFiles_of_perm`: file results in any order are sorted alike
* `exists_ofFiles?_of_perm`: the report on results in any order
* `renderJson_outlined`, `printsBy_outlined`: both forms show outlines only
* `filter_runRules`: rules whose findings are all left out need not be run
-/

namespace KlarAudit

/-! ## Outlines -/

/-- **What a file result says besides its findings.** -/
def FileResult.outline (r : FileResult) : FileResult :=
  { r with findings := [] }

/-- At most all public declarations are documented. -/
def FileResult.Counted (r : FileResult) : Prop :=
  0 ≤ r.documentedCount ∧ r.documentedCount ≤ r.publicCount

theorem path_auditText (path text : String) (rules : List Rule) :
    (auditText path text rules).path = path :=
  rfl

/-- The outline does not depend on the rules. -/
theorem outline_auditText (path text : String) (rules rules' : List Rule) :
    (auditText path text rules).outline = (auditText path text rules').outline :=
  rfl

theorem counted_auditText (path text : String) (rules : List Rule) :
    (auditText path text rules).Counted :=
  ⟨Int.natCast_nonneg _, Int.ofNat_le.mpr (List.length_filter_le _ _)⟩

theorem counted_unreadable (path reason : String) : (unreadable path reason).Counted :=
  ⟨Int.le_refl _, Int.le_refl _⟩

namespace Report

/-- The report with outlines in place of file results. -/
def outlined (r : Report) : Report :=
  { r with files := r.files.map (·.outline) }

/-- **The structured form** shows outlines only. -/
theorem renderJson_outlined (r : Report) : r.outlined.renderJson = r.renderJson := by
  have hfiles {f : FileResult → Json} (h : ∀ x, f x.outline = f x) :
      (r.files.map (·.outline)).map f = r.files.map f := by
    rw [List.map_map]
    exact List.map_congr_left fun x _ => h x
  rw [renderJson, renderJson, toJson, toJson, outlined, hfiles fun _ => rfl]
  rfl

/-- **The printed form** shows outlines only. -/
theorem printsBy_outlined (escape : String → String) (r : Report) :
    r.outlined.printsBy escape = r.printsBy escape := by
  have hfiles : r.outlined.files.flatMap (r.outlined.filePrints escape) =
      r.files.flatMap (r.filePrints escape) :=
    List.flatMap_map _ _ _
  have hsummary : r.outlined.summaryPrints = r.summaryPrints := by
    simp only [summaryPrints, outlined, List.length_map]
    rfl
  rw [printsBy, printsBy, hfiles, hsummary]

/-! ## Coverage -/

/-- **The documentation coverage of file results**, `none` if it is too large to be written. -/
def coverage? (files : List FileResult) : Option Binary64 :=
  coverageRatio? ((files.map (·.documentedCount)).foldl (· + ·) 0)
    ((files.map (·.publicCount)).foldl (· + ·) 0)

/-- The coverage is told by the outlines. -/
theorem coverage?_outline (files : List FileResult) :
    coverage? (files.map (·.outline)) = coverage? files := by
  rw [coverage?, coverage?, List.map_map, List.map_map]
  rfl

end Report

/-- A ratio that is at most one is between powers of two of which the upper is at most one. -/
theorem Binary64.floorLog2_nonpos {num den : Nat} (h : num ≤ den) : floorLog2 num den ≤ 0 := by
  have hlog : Nat.log2 num ≤ Nat.log2 den := by
    rw [Nat.log2_eq_log_two, Nat.log2_eq_log_two]
    exact Nat.log_mono_right h
  rw [floorLog2]
  dsimp only
  split <;> omega

/-- A ratio that is at most one is no infinity. -/
theorem Binary64.ofRatio_ne_infinite (negative sign : Bool) {num den : Nat} (h : num ≤ den) :
    ofRatio negative num den ≠ .infinite sign := by
  -- Rounding up may add one to the exponent, which still is far from the largest.
  have hexponent (q : Int) (hq : q ≤ max (floorLog2 num den - 52) minExponent + 1) :
      ¬ maxExponent < q := by
    have := floorLog2_nonpos h
    simp only [minExponent, maxExponent] at hq ⊢
    omega
  unfold ofRatio zero
  dsimp only
  split
  · exact Binary64.noConfusion
  · split
    · rw [if_neg (hexponent _ (Int.le_refl _))]
      exact Binary64.noConfusion
    · rw [if_neg (hexponent _ (Int.le_add_one (Int.le_refl _)))]
      exact Binary64.noConfusion

/-- **A ratio that is at most one** can be written. -/
theorem Binary64.isSome_div? {a b : Int} (ha : 0 ≤ a) (hab : a ≤ b) : (div? a b).isSome := by
  have hle : a.natAbs ≤ b.natAbs := by omega
  unfold div?
  split
  · rename_i heq
    exact absurd heq (ofRatio_ne_infinite _ _ hle)
  · rfl

namespace Report

theorem isSome_coverage? {files : List FileResult} (h : ∀ r ∈ files, r.Counted) :
    (coverage? files).isSome := by
  rw [coverage?, ← List.sum_eq_foldl, ← List.sum_eq_foldl, coverageRatio?]
  have hsums : 0 ≤ (files.map (·.documentedCount)).sum ∧
      (files.map (·.documentedCount)).sum ≤ (files.map (·.publicCount)).sum := by
    induction files with
    | nil => exact ⟨Int.le_refl _, Int.le_refl _⟩
    | cons r files ih =>
      obtain ⟨⟨hzero, hle⟩, hfiles⟩ := List.forall_mem_cons.mp h
      have := ih hfiles
      simp only [List.map_cons, List.sum_cons]
      omega
  split
  · rfl
  · exact Binary64.isSome_div? hsums.1 hsums.2

/-! ## Merged results -/

/-- The findings of sorted file results, in their order. -/
def merged (files : List FileResult) : List Finding :=
  (files.flatMap (·.findings)).mergeSort Finding.le

/-- The report on sorted file results with the given coverage. -/
def assembled (files : List FileResult) (coverage : Binary64) : Report :=
  { findings := merged files, files, coverage, status := .ofFindings (merged files) }

/-- There is a report on results that are counted. -/
theorem exists_ofFiles? {results : List FileResult} (h : ∀ r ∈ results, r.Counted) :
    ∃ c, coverage? (sortFiles results) = some c ∧
      ofFiles? results = some (assembled (sortFiles results) c) := by
  obtain ⟨c, hc⟩ := Option.isSome_iff_exists.mp
    (@isSome_coverage? (sortFiles results) fun r hr => h r (List.mem_mergeSort.mp hr))
  refine ⟨c, hc, ?_⟩
  rw [coverage?] at hc
  rw [ofFiles?, hc]
  rfl

/-- Results with the same outlines have the same coverage. -/
theorem coverage_unique {files files' : List FileResult} {c c' : Binary64}
    (houtline : files.map (·.outline) = files'.map (·.outline)) (hc : coverage? files = some c)
    (hc' : coverage? files' = some c') : c = c' := by
  rw [← coverage?_outline, houtline, coverage?_outline, hc'] at hc
  exact (Option.some.inj hc).symm

variable {ι : Type} {xs : List ι} {key : ι → String} {result : ι → FileResult}
  {results : List FileResult}

/-- The members of a list in the order of their keys. -/
def sortedBy (key : ι → String) (xs : List ι) : List ι :=
  xs.mergeSort fun x y => (compare (key x) (key y)).isLE

/-- **File results in any order** are sorted alike, when no two are of the same file. -/
theorem sortFiles_of_perm (hperm : results.Perm (xs.map result)) (hdistinct : (xs.map key).Nodup)
    (hkey : ∀ x, (result x).path = key x) :
    sortFiles results = (sortedBy key xs).map result := by
  let le (r s : FileResult) : Bool := (compare r.path s.path).isLE
  have trans (r s t : FileResult) : le r s → le s t → le r t := Std.TransCmp.isLE_trans
  have total (r s : FileResult) : (le r s || le s r) = true := by
    simp only [le]
    rw [@Std.OrientedCmp.eq_swap _ compare _ s.path]
    cases compare r.path s.path <;> rfl
  have hsorted := @List.pairwise_mergeSort _ le trans total
  -- With distinct paths no two results are tied, so there is one sorted order only.
  have hpaths : (results.map (·.path)).Nodup := by
    rw [(hperm.map (·.path)).nodup_iff, List.map_map]
    exact (List.map_congr_left fun x _ => (hkey x).symm) ▸ hdistinct
  refine Eq.trans ?_ (List.map_mergeSort (s := le) fun x _ y _ => ?_).symm
  · refine List.Perm.eq_of_pairwise (fun r s hr hs hrs hsr => ?_) (hsorted results) (hsorted _)
      ((List.mergeSort_perm _ _).trans (hperm.trans (List.mergeSort_perm _ _).symm))
    have hs : s ∈ results := hperm.mem_iff.mpr (List.mem_mergeSort.mp hs)
    have heq : compare r.path s.path = .eq := Std.OrientedCmp.isLE_antisymm hrs hsr
    exact List.inj_on_of_nodup_map hpaths (List.mem_mergeSort.mp hr) hs
      (Std.LawfulEqCmp.eq_of_compare heq)
  · simp only [le, hkey]

/-- **The report on results in any order**, one for each of some files. -/
theorem exists_ofFiles?_of_perm (hperm : results.Perm (xs.map result))
    (hdistinct : (xs.map key).Nodup) (hkey : ∀ x, (result x).path = key x)
    (hcounted : ∀ x, (result x).Counted) :
    ∃ c, coverage? ((sortedBy key xs).map result) = some c ∧
      ofFiles? results = some (assembled ((sortedBy key xs).map result) c) := by
  rw [← sortFiles_of_perm hperm hdistinct hkey]
  refine exists_ofFiles? fun r hr => ?_
  obtain ⟨x, -, rfl⟩ := List.mem_map.mp (hperm.mem_iff.mp hr)
  exact hcounted x

end Report

/-! ## Rules are run apart from each other -/

/-- Rules whose findings are all left out need not be run. -/
theorem filter_runRules {p : Finding → Bool} {q : Rule → Bool} {rules : List Rule} {s : Subject}
    (h : ∀ r ∈ rules, q r = false → ∀ f ∈ r.run s, p f = false) :
    (runRules rules s).filter p = (runRules (rules.filter q) s).filter p := by
  induction rules with
  | nil => rfl
  | cons r rules ih =>
    obtain ⟨hr, hrules⟩ := List.forall_mem_cons.mp h
    rw [runRules, List.flatMap_cons, List.filter_append, ← runRules, ih hrules]
    cases hq : q r with
    | false =>
      have hnil : (r.run s).filter p = [] :=
        List.filter_eq_nil_iff.mpr fun f hf => Bool.eq_false_iff.mp (hr hq f hf)
      rw [hnil, List.filter_cons_of_neg (by simp [hq]), List.nil_append]
    | true =>
      rw [List.filter_cons_of_pos hq, runRules, runRules, List.flatMap_cons, List.filter_append]

/-- A rule that fails on every file, behind a remark. -/
def Rule.faltering (id : String) : Rule :=
  { id
    family := "faltering"
    severity := .low
    description := "Checks end well."
    check := fun s => ⟨[.at .start ("seen " ++ s.path)], some (.outOfRange "list")⟩ }

end KlarAudit

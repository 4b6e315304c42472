import KlarAudit.Proofs.Report.Merge
import Mathlib.Algebra.GroupWithZero.Nat

/-!
# The report accounts for every finding

The findings of a report are those of the file results, none lost and none merged, in the order of
findings. Whatever the report derives from them counts each of them once: the counts of severities
and of rules, and the printed form, where the findings come in their order, each as one row below
the heading of its own file.

## Main definitions

* `Print.rows`: the rows of a table
* `Report.Shows`, `Report.Heads`, `Report.SectionPrints`: what a row, a heading and the section of a
  file show
* `Report.Sections`: the findings of a report, file by file, as they are printed
* `Report.Accounts`: the report accounts for the findings of some file results

## Main results

* `perm_flatMap_filter`, `flatMap_filter_eq_self`: grouping by a key loses nothing, and keeps the
  order of what is sorted by the key
* `Report.accounts_of_ofFiles?`: a report accounts for the findings of the results it is made of
-/

namespace KlarAudit

/-! ## Grouping by a key -/

section Grouping

variable {α κ : Type} [BEq κ] [LawfulBEq κ] {key : α → κ} {keys : List κ} {xs : List α}

/-- Leaving out what has the key `k` does not change the groups of other keys. -/
theorem flatMap_filter_of_notMem {k : κ} (hk : k ∉ keys) :
    (keys.flatMap fun j => (xs.filter fun x => !(key x == k)).filter (key · == j)) =
      keys.flatMap fun j => xs.filter (key · == j) := by
  refine List.flatMap_congr fun j hj => ?_
  rw [List.filter_filter]
  refine List.filter_congr fun x _ => ?_
  by_cases hx : key x = j
  · have hne : j ≠ k := fun hjk => hk (hjk ▸ hj)
    simp [hx, hne]
  · simp [hx]

/-- What does not have the key `k` has one of the others. -/
theorem mem_of_mem_filter_not {k : κ} (hmem : ∀ x ∈ xs, key x ∈ k :: keys) :
    ∀ x ∈ xs.filter (fun x => !(key x == k)), key x ∈ keys := by
  intro x hx
  obtain ⟨hx, hne⟩ := List.mem_filter.mp hx
  rcases List.mem_cons.mp (hmem x hx) with heq | hmem
  · simp [heq] at hne
  · exact hmem

/-- **Grouping loses nothing** when every key that occurs is listed once. -/
theorem perm_flatMap_filter (hkeys : keys.Nodup) (hmem : ∀ x ∈ xs, key x ∈ keys) :
    (keys.flatMap fun k => xs.filter (key · == k)).Perm xs := by
  induction keys generalizing xs with
  | nil =>
    obtain rfl := List.eq_nil_iff_forall_not_mem.mpr fun x hx => List.not_mem_nil (hmem x hx)
    exact .refl _
  | cons k keys ih =>
    -- the other keys group what is left when the first group is taken out
    obtain ⟨hk, hkeys⟩ := List.nodup_cons.mp hkeys
    rw [List.flatMap_cons, ← flatMap_filter_of_notMem hk]
    refine List.Perm.trans ?_ (List.filter_append_perm (key · == k) xs)
    exact (ih hkeys (mem_of_mem_filter_not hmem)).append_left _

/-- The sizes of the groups add up. -/
theorem sum_countP_eq_length (hkeys : keys.Nodup) (hmem : ∀ x ∈ xs, key x ∈ keys) :
    (keys.map fun k => xs.countP (key · == k)).sum = xs.length := by
  rw [← (perm_flatMap_filter hkeys hmem).length_eq, List.length_flatMap]
  simp only [List.countP_eq_length_filter]

/-- **Grouping keeps the order** of what is sorted by the key, when the keys are sorted. -/
theorem flatMap_filter_eq_self {lt : κ → κ → Prop} (hirrefl : ∀ k, ¬ lt k k)
    (hkeys : keys.Pairwise lt) (hmem : ∀ x ∈ xs, key x ∈ keys)
    (hsorted : xs.Pairwise fun x y => ¬ lt (key y) (key x)) :
    (keys.flatMap fun k => xs.filter (key · == k)) = xs := by
  induction keys generalizing xs with
  | nil =>
    obtain rfl := List.eq_nil_iff_forall_not_mem.mpr fun x hx => List.not_mem_nil (hmem x hx)
    rfl
  | cons k keys ih =>
    obtain ⟨hk, hkeys⟩ := List.pairwise_cons.mp hkeys
    have hnot : k ∉ keys := fun h => hirrefl k (hk k h)
    -- the keys are sorted, so the group of the first one stands in front
    have hfront : xs.Pairwise fun x y => key y == k → key x == k := by
      refine hsorted.imp_of_mem fun hx _ hxy hy => ?_
      rcases List.mem_cons.mp (hmem _ hx) with heq | hlater
      · exact beq_iff_eq.mpr heq
      · exact absurd (eq_of_beq hy ▸ hk _ hlater) hxy
    rw [List.flatMap_cons, ← flatMap_filter_of_notMem hnot,
      ih hkeys (mem_of_mem_filter_not hmem) (hsorted.filter _)]
    exact Search.filter_append_filter_not hfront

end Grouping

/-! ## What is printed -/

/-- The rows of a table; a line has none. -/
def Print.rows : Print → List (List String)
  | line _ => []
  | table _ _ rows => rows

namespace Report

/-- **The row shows the finding**: its place, its severity in some style, its rule, and its message
with the fix, if there is one, on a line of its own. -/
structure Shows (escape : String → String) (f : Finding) (row : List String) : Prop where
  /-- Four cells. -/
  cells : row.length = 4
  /-- The line and the column. -/
  place : row[0]? = some (toString f.line ++ ":" ++ toString f.column)
  /-- The severity. -/
  severity : ∃ style, row[1]? = some (Markup.styled style f.severity.label)
  /-- The rule. -/
  rule : row[2]? = some f.rule
  /-- The message alone. -/
  message : f.fix = none → row[3]? = some (escape f.message)
  /-- The message and the fix below it. -/
  fix : ∀ fix, f.fix = some fix → ∃ style,
    row[3]? = some (escape f.message ++ "\n" ++ Markup.styled style ("fix: " ++ escape fix))

/-- **The line is the heading** of a file with `count` findings: it shows the path, how much of the
file was audited, and the count. -/
def Heads (escape : String → String) (file : FileResult) (count : Nat) (line : String) : Prop :=
  ∃ style style', line = Markup.styled style (escape file.path) ++ " " ++
    Markup.styled style' (escape file.describe ++ ", " ++ toString count ++ " finding(s)")

/-- **What is printed for a file and some findings**: its heading and, if there are findings, a
table with one row for each, in their order, and an empty line. -/
inductive SectionPrints (escape : String → String) (file : FileResult) :
    List Finding → List Print → Prop where
  /-- There are no findings. -/
  | clean {line : String} : Heads escape file 0 line → SectionPrints escape file [] [.line line]
  /-- There are some. -/
  | listed {line : String} {findings : List Finding} {rows : List (List String)} :
    findings ≠ [] → Heads escape file findings.length line →
      List.Forall₂ (Shows escape) findings rows →
        SectionPrints escape file findings
          [.line line, .table none ["Location", "Severity", "Rule", "Message"] rows, .line ""]

/-- **The sections of the printed report**: the files in their order, each with its findings. -/
structure Sections (escape : String → String) (r : Report)
    (sections : List (FileResult × List Finding)) : Prop where
  /-- Every file has one section. -/
  files : sections.map (·.1) = r.files
  /-- Every finding stands in one section, and they come in the order of the report. -/
  findings : sections.flatMap (·.2) = r.findings
  /-- A finding stands in the section of its file. -/
  own : ∀ s ∈ sections, ∀ f ∈ s.2, f.file = s.1.path
  /-- The sections are printed one after another, and then the summary. -/
  prints : ∃ parts,
    List.Forall₂ (fun s part => SectionPrints escape s.1 s.2 part) sections parts ∧
      r.printsBy escape = parts.flatten ++ r.summaryPrints
  /-- The rows of all tables show the findings, in the order of the report. -/
  rows : List.Forall₂ (Shows escape) r.findings ((r.printsBy escape).flatMap Print.rows)
  /-- The numbers in the headings add up to the number of findings. -/
  total : (sections.map (·.2.length)).sum = r.findings.length

/-- **The report accounts for the findings** of the file results. -/
structure Accounts (results : List FileResult) (r : Report) : Prop where
  /-- No finding is lost, and none is merged with another. -/
  perm : r.findings.Perm (results.flatMap (·.findings))
  /-- They are in order. -/
  sorted : r.findings.Pairwise fun f g => Finding.le f g
  /-- The counts of the five severities add up. -/
  severities : (Severity.all.map r.count).sum = r.findings.length
  /-- The counts of the rules add up. -/
  rules : (r.ruleCounts.map (·.2)).sum = r.findings.length
  /-- Every finding is printed in the section of its file. -/
  sections : ∃ sections, ∀ escape, r.Sections escape sections
  /-- The verdict is a failure if there is a finding of the two worst severities. -/
  failed : r.status = .fail ↔ ∃ f ∈ r.findings, f.severity = .critical ∨ f.severity = .high

/-! ## The report of some file results -/

theorem severities_sum (r : Report) : (Severity.all.map r.count).sum = r.findings.length := by
  have hnodup : Severity.all.Nodup := by decide
  have hmem (f : Finding) (_ : f ∈ r.findings) : f.severity ∈ Severity.all := by
    cases f.severity <;> decide
  exact sum_countP_eq_length hnodup hmem

theorem ruleCounts_sum (r : Report) : (r.ruleCounts.map (·.2)).sum = r.findings.length := by
  have hmem (f : Finding) (hf : f ∈ r.findings) :
      f.rule ∈ Text.sortedSet (r.findings.map (·.rule)) :=
    Text.mem_sortedSet_iff.mpr (List.mem_map_of_mem hf)
  rw [ruleCounts, List.map_map]
  exact sum_countP_eq_length (Text.nodup_sortedSet _) hmem

/-- The two worst severities are those from high upwards. -/
theorem atLeast_high_iff (s : Severity) : s.AtLeast .high ↔ s = .critical ∨ s = .high := by
  cases s <;> decide

/-- **The verdict is a failure** if there is a finding of the two worst severities. -/
theorem ofFindings_eq_fail_iff (fs : List Finding) :
    ReportStatus.ofFindings fs = .fail ↔ ∃ f ∈ fs, f.severity.AtLeast .high := by
  unfold ReportStatus.ofFindings
  split
  · rename_i h
    simpa using h
  · rename_i h
    have hnone : ¬ ∃ f ∈ fs, f.severity.AtLeast .high := by simpa using h
    split <;> simp [hnone]

/-- The findings of a file stand before those of files with later paths. -/
theorem not_lt_file_of_le {f g : Finding} (h : Finding.le f g) :
    ¬ compare g.file f.file = .lt := by
  intro hlt
  have hgt : compare f.file g.file = .gt := Std.OrientedCmp.gt_iff_lt.mpr hlt
  have horder : Finding.order f g = .gt := by
    simp [Finding.order, compareLex, compareOn, hgt]
  simp [Finding.le, horder] at h

/-- Files of different paths stand in the order of their paths. -/
theorem pairwise_path_sortFiles {results : List FileResult}
    (hdistinct : (results.map (·.path)).Nodup) :
    ((sortFiles results).map (·.path)).Pairwise fun a b => compare a b = .lt := by
  have hsorted : (sortFiles results).Pairwise fun r s => (compare r.path s.path).isLE := by
    refine List.pairwise_mergeSort (fun r s t => Std.TransCmp.isLE_trans) (fun r s => ?_) results
    rw [@Std.OrientedCmp.eq_swap _ compare _ s.path]
    cases compare r.path s.path <;> rfl
  have hne : ((sortFiles results).map (·.path)).Nodup :=
    ((List.mergeSort_perm results _).map _).nodup_iff.mpr hdistinct
  -- in order and apart from each other, so strictly in order
  rw [List.Nodup, List.pairwise_map] at hne
  refine List.pairwise_map.mpr ((hsorted.and hne).imp fun {r s} h => ?_)
  obtain ⟨hle, hab⟩ := h
  cases hcmp : compare r.path s.path with
  | lt => rfl
  | eq => exact absurd (Std.LawfulEqCmp.eq_of_compare hcmp) hab
  | gt => simp [hcmp] at hle

/-- **The findings of sorted files** are grouped by file already. -/
theorem flatMap_filter_merged {results : List FileResult}
    (hdistinct : (results.map (·.path)).Nodup)
    (hown : ∀ r ∈ results, ∀ f ∈ r.findings, f.file = r.path) :
    ((sortFiles results).flatMap fun file =>
      (merged (sortFiles results)).filter (·.file == file.path)) = merged (sortFiles results) := by
  have hgroups : ((sortFiles results).map (·.path)).flatMap
      (fun path => (merged (sortFiles results)).filter (·.file == path)) =
        merged (sortFiles results) := by
    refine flatMap_filter_eq_self ?_ (pairwise_path_sortFiles hdistinct) ?_ ?_
    · intro path
      simp
    · intro f hf
      obtain ⟨r, hr, hf⟩ := List.mem_flatMap.mp (List.mem_mergeSort.mp hf)
      rw [hown r (List.mem_mergeSort.mp hr) f hf]
      exact List.mem_map_of_mem hr
    · exact (List.pairwise_mergeSort Finding.le_trans Finding.le_total _).imp not_lt_file_of_le
  rwa [List.flatMap_map] at hgroups

/-- The row of a finding shows it. -/
theorem shows_row (escape : String → String) (f : Finding) : Shows escape f (row escape f) where
  cells := rfl
  place := rfl
  severity := ⟨_, rfl⟩
  rule := rfl
  message := by
    intro hnone
    simp [row, hnone]
  fix := by
    intro fix hfix
    refine ⟨"dim", ?_⟩
    simp [row, hfix, String.append_assoc]

/-- What is printed for a file is a section with the findings on it. -/
theorem sectionPrints_filePrints (escape : String → String) (r : Report) (file : FileResult) :
    SectionPrints escape file (r.findingsOn file.path) (r.filePrints escape file) := by
  unfold filePrints
  dsimp only
  cases hfindings : r.findingsOn file.path with
  | nil => exact .clean ⟨_, _, rfl⟩
  | cons f fs =>
    refine .listed (List.cons_ne_nil f fs) ⟨_, _, rfl⟩ ?_
    exact List.forall₂_map_right_iff.mpr (List.forall₂_same.mpr fun f _ => shows_row escape f)

/-- The rows of a section show its findings. -/
theorem SectionPrints.rows {escape : String → String} {file : FileResult}
    {findings : List Finding} {part : List Print} (h : SectionPrints escape file findings part) :
    List.Forall₂ (Shows escape) findings (part.flatMap Print.rows) := by
  cases h with
  | clean _ => exact .nil
  | listed _ _ hrows => simpa [Print.rows] using hrows

theorem rows_summaryPrints (r : Report) : r.summaryPrints.flatMap Print.rows = [] :=
  rfl

/-- The rows of sections, one after another, show their findings. -/
theorem forall₂_rows {escape : String → String} {sections : List (FileResult × List Finding)}
    {parts : List (List Print)}
    (h : List.Forall₂ (fun s part => SectionPrints escape s.1 s.2 part) sections parts) :
    List.Forall₂ (Shows escape) (sections.flatMap (·.2)) (parts.flatten.flatMap Print.rows) := by
  induction h with
  | nil => exact .nil
  | cons hpart _ ih =>
    rw [List.flatMap_cons, List.flatten_cons, List.flatMap_append]
    exact List.rel_append hpart.rows ih

/-- **A report whose findings are grouped by file** is printed section by section. -/
theorem sections_of_flatMap {r : Report}
    (hgroups : (r.files.flatMap fun file => r.findingsOn file.path) = r.findings)
    (escape : String → String) :
    r.Sections escape (r.files.map fun file => (file, r.findingsOn file.path)) := by
  have hfindings : (r.files.map fun file => (file, r.findingsOn file.path)).flatMap (·.2) =
      r.findings := by
    rwa [List.flatMap_map]
  have hparts : List.Forall₂ (fun s part => SectionPrints escape s.1 s.2 part)
      (r.files.map fun file => (file, r.findingsOn file.path))
      (r.files.map (r.filePrints escape)) := by
    rw [List.forall₂_map_left_iff, List.forall₂_map_right_iff]
    exact List.forall₂_same.mpr fun file _ => sectionPrints_filePrints escape r file
  have hprints : r.printsBy escape =
      (r.files.map (r.filePrints escape)).flatten ++ r.summaryPrints :=
    congrArg (· ++ _) List.flatMap_def
  constructor
  case files =>
    rw [List.map_map]
    exact List.map_id _
  case findings => exact hfindings
  case own =>
    intro s hs f hf
    obtain ⟨file, -, rfl⟩ := List.mem_map.mp hs
    exact eq_of_beq (List.mem_filter.mp hf).2
  case prints => exact ⟨_, hparts, hprints⟩
  case rows =>
    rw [hprints, List.flatMap_append, rows_summaryPrints, List.append_nil, ← hfindings]
    exact forall₂_rows hparts
  case total => rw [← hfindings, List.length_flatMap]

/-- The coverage does not depend on the order of the results. -/
theorem coverage?_sortFiles (results : List FileResult) :
    coverage? (sortFiles results) = coverage? results := by
  have hsum (f : FileResult → Int) :
      ((sortFiles results).map f).foldl (· + ·) 0 = (results.map f).foldl (· + ·) 0 :=
    ((List.mergeSort_perm results _).map f).foldl_eq' (fun x _ y _ z => Int.add_right_comm z x y) 0
  rw [coverage?, coverage?, hsum, hsum]

/-- The report is assembled of the sorted results. -/
theorem ofFiles?_eq (results : List FileResult) :
    ofFiles? results = (coverage? (sortFiles results)).map (assembled (sortFiles results)) :=
  rfl

/-- **A report accounts for the findings** of the results it is made of. -/
theorem accounts_of_ofFiles? {results : List FileResult} {r : Report}
    (hdistinct : (results.map (·.path)).Nodup)
    (hown : ∀ r ∈ results, ∀ f ∈ r.findings, f.file = r.path) (h : ofFiles? results = some r) :
    r.Accounts results := by
  rw [ofFiles?_eq] at h
  obtain ⟨c, -, rfl⟩ := Option.map_eq_some_iff.mp h
  constructor
  case perm =>
    refine (List.mergeSort_perm _ _).trans ?_
    exact (List.mergeSort_perm results _).flatMap_right _
  case sorted => exact List.pairwise_mergeSort Finding.le_trans Finding.le_total _
  case severities => exact severities_sum _
  case rules => exact ruleCounts_sum _
  case sections => exact ⟨_, sections_of_flatMap (flatMap_filter_merged hdistinct hown)⟩
  case failed =>
    refine (ofFindings_eq_fail_iff _).trans ?_
    exact exists_congr fun f => and_congr_right fun _ => atLeast_high_iff f.severity

end Report

end KlarAudit

import KlarAudit.Audit.Selection
import KlarAudit.Proofs.Report.StableSort
import Mathlib.Data.List.Sort

/-!
# Which files are audited

A path to a file stands for that file, whatever it is called. A path to a directory stands for the
files below it that have one of the extensions and are not ruled out, unless they are in a
directory that is not entered. Several paths stand for all that each of them stands for, each file
once, in the order of their texts. So neither the order of the paths nor a repetition matters, and
more patterns for what is to be left out never add a file.

A path that leads nowhere is an error of the caller. The only exception is a path that is too long
to be looked up: it leads nowhere either, but the error is that of looking it up.

## Main definitions

* `Below`: what is below a directory, by the names on the way
* `RuleSet.RulesOut`: the patterns rule out a path below a directory
* `Selected`: a file below a directory that is to be audited
* `FileSystem.LeadsSomewhere`: something is where a path leads
* `Discovered`: what is to be said of the files found for some paths

## Main results

* `mem_selectedIn`: a walk finds the selected files
* `stat_of_long`: a name that is too long leads nowhere
* `discover_exact`: what some paths stand for, and the error if one of them leads nowhere
-/

namespace KlarAudit

/-! ## Patterns -/

namespace RuleSet

/-- **A path below a directory is ruled out**: a pattern stands for it, or for its last name. The
directories on the way are `outer`. -/
def RulesOut (s : RuleSet) (outer : List String) (name : String) : Prop :=
  ∃ pattern ∈ s.exclude,
    Glob.Matches (Glob.parse pattern) (Text.joinWith "/" (outer ++ [name])).toList ∨
      Glob.Matches (Glob.parse pattern) name.toList

variable {s : RuleSet} {outer : List String} {name : String}

theorem excludes_iff : s.excludes ⟨0, outer ++ [name]⟩ = true ↔ s.RulesOut outer name := by
  have hrender : Path.render ⟨0, outer ++ [name]⟩ = Text.joinWith "/" (outer ++ [name]) := by
    simp [Path.render]
  have hname : Path.name ⟨0, outer ++ [name]⟩ = name := by
    simp [Path.name]
  simp only [excludes, hrender, hname, globMatches, List.any_eq_true, Bool.or_eq_true,
    Glob.accepts_iff, RulesOut]

theorem takes_iff : s.takes ⟨0, outer ++ [name]⟩ = true ↔
    Path.extension name ∈ s.extensions ∧ ¬ s.RulesOut outer name := by
  rw [← excludes_iff]
  simp [takes, Path.suffix, Path.name]

theorem enters_iff : s.enters ⟨0, outer ++ [name]⟩ = true ↔
    name ∉ idleDirectories ∧ ¬ s.RulesOut outer name := by
  rw [← excludes_iff]
  simp [enters, Path.name]

/-- More patterns rule out more. -/
theorem RulesOut.mono {patterns : List String} (h : s.RulesOut outer name)
    (hsub : s.exclude ⊆ patterns) : { s with exclude := patterns }.RulesOut outer name := by
  obtain ⟨pattern, hpattern, hmatches⟩ := h
  exact ⟨pattern, hsub hpattern, hmatches⟩

end RuleSet

/-! ## A walk -/

/-- **What is below a directory** with the given entries: the directories on the way to it, and its
name. -/
inductive Below : List (String × FileNode) → List String → String → FileNode → Prop where
  /-- An entry is below the directory. -/
  | entry {entries : List (String × FileNode)} {name : String} {node : FileNode} :
      (name, node) ∈ entries → Below entries [] name node
  /-- So is what is below a directory among the entries. -/
  | inner {entries inner : List (String × FileNode)} {directory name : String}
      {names : List String} {node : FileNode} :
      (directory, .directory inner) ∈ entries → Below inner names name node →
        Below entries (directory :: names) name node

/-- **A node of the directory `place` counts as a file**: it is one, or a link that leads to no
directory. -/
def FileSystem.CountsAsFile (fs : FileSystem) (place : List String) (name : String) :
    FileNode → Prop
  | .file _ => True
  | .link _ => fs.linksToDirectory place name = false
  | .directory _ => False

/-- **A file that is to be audited** is below the directory `place` with the given entries; the
directories on the way to it are `names`, and it is called `name`. The directory is `outer` away
from the one that patterns are about. -/
structure Selected (s : RuleSet) (fs : FileSystem) (place outer : List String)
    (entries : List (String × FileNode)) (names : List String) (name : String) : Prop where
  /-- It is there, and counts as a file. -/
  found : ∃ node, Below entries names name node ∧ fs.CountsAsFile (place ++ names) name node
  /-- It has one of the extensions. -/
  extension : Path.extension name ∈ s.extensions
  /-- It is not ruled out. -/
  kept : ¬ s.RulesOut (outer ++ names) name
  /-- No directory on the way to it is idle or ruled out. -/
  entered : ∀ front directory back, names = front ++ directory :: back →
    directory ∉ idleDirectories ∧ ¬ s.RulesOut (outer ++ front) directory

theorem below_cons_iff {entry : String × FileNode} {entries : List (String × FileNode)}
    {names : List String} {name : String} {node : FileNode} :
    Below (entry :: entries) names name node ↔
      Below [entry] names name node ∨ Below entries names name node := by
  constructor
  · intro h
    cases h with
    | entry hmem =>
      rcases List.mem_cons.mp hmem with rfl | hmem
      · exact .inl (.entry List.mem_cons_self)
      · exact .inr (.entry hmem)
    | inner hmem hbelow =>
      rcases List.mem_cons.mp hmem with rfl | hmem
      · exact .inl (.inner List.mem_cons_self hbelow)
      · exact .inr (.inner hmem hbelow)
  · rintro (h | h)
    · cases h with
      | entry hmem => exact .entry (List.mem_cons.mpr (.inl (List.mem_singleton.mp hmem)))
      | inner hmem hbelow =>
        exact .inner (List.mem_cons.mpr (.inl (List.mem_singleton.mp hmem))) hbelow
    · cases h with
      | entry hmem => exact .entry (List.mem_cons_of_mem _ hmem)
      | inner hmem hbelow => exact .inner (List.mem_cons_of_mem _ hmem) hbelow

section

variable {s : RuleSet} {fs : FileSystem} {place outer names : List String} {name last : String}

theorem not_selected_nil : ¬ Selected s fs place outer [] names last := by
  intro h
  obtain ⟨node, hbelow, -⟩ := h.found
  cases hbelow with
  | entry hmem => cases hmem
  | inner hmem => cases hmem

/-- A walk goes through the entries of a directory one by one. -/
theorem selected_cons_iff (entry : String × FileNode) (entries : List (String × FileNode)) :
    Selected s fs place outer (entry :: entries) names last ↔
      Selected s fs place outer [entry] names last ∨
        Selected s fs place outer entries names last := by
  constructor
  · rintro ⟨⟨node, hbelow, hfile⟩, hext, hkept, hentered⟩
    rcases below_cons_iff.mp hbelow with hbelow | hbelow
    · exact .inl ⟨⟨node, hbelow, hfile⟩, hext, hkept, hentered⟩
    · exact .inr ⟨⟨node, hbelow, hfile⟩, hext, hkept, hentered⟩
  · rintro (⟨⟨node, hbelow, hfile⟩, hext, hkept, hentered⟩ |
      ⟨⟨node, hbelow, hfile⟩, hext, hkept, hentered⟩)
    · exact ⟨⟨node, below_cons_iff.mpr (.inl hbelow), hfile⟩, hext, hkept, hentered⟩
    · exact ⟨⟨node, below_cons_iff.mpr (.inr hbelow), hfile⟩, hext, hkept, hentered⟩

/-- A node that is no directory is selected itself, or nothing is. -/
theorem selected_leaf_iff {node : FileNode} (hnode : node.isDirectory = false) :
    Selected s fs place outer [(name, node)] names last ↔
      (names = [] ∧ last = name) ∧ fs.CountsAsFile place name node ∧
        s.takes ⟨0, outer ++ [name]⟩ = true := by
  rw [RuleSet.takes_iff]
  constructor
  · rintro ⟨⟨found, hbelow, hfile⟩, hext, hkept, -⟩
    cases hbelow with
    | entry hmem =>
      obtain ⟨rfl, rfl⟩ := Prod.mk.inj (List.mem_singleton.mp hmem)
      rw [List.append_nil] at hfile hkept
      exact ⟨⟨rfl, rfl⟩, hfile, hext, hkept⟩
    | inner hmem hbelow =>
      obtain ⟨-, rfl⟩ := Prod.mk.inj (List.mem_singleton.mp hmem)
      cases hnode
  · rintro ⟨⟨rfl, rfl⟩, hfile, hext, hkept⟩
    refine ⟨⟨node, .entry List.mem_cons_self, ?_⟩, hext, ?_, fun front directory back h => ?_⟩
    · rwa [List.append_nil]
    · rwa [List.append_nil]
    · exact absurd h.symm (by simp)

/-- What is selected below a directory among the entries, which has to be entered. -/
theorem selected_directory_iff {inner : List (String × FileNode)} :
    Selected s fs place outer [(name, .directory inner)] names last ↔
      s.enters ⟨0, outer ++ [name]⟩ = true ∧
        ∃ rest, names = name :: rest ∧
          Selected s fs (place ++ [name]) (outer ++ [name]) inner rest last := by
  rw [RuleSet.enters_iff]
  constructor
  · rintro ⟨⟨found, hbelow, hfile⟩, hext, hkept, hentered⟩
    cases hbelow with
    | entry hmem =>
      -- The directory itself does not count as a file.
      obtain ⟨-, rfl⟩ := Prod.mk.inj (List.mem_singleton.mp hmem)
      exact hfile.elim
    | @inner _ entries directory _ rest _ hmem hbelow =>
      obtain ⟨rfl, hinner⟩ := Prod.mk.inj (List.mem_singleton.mp hmem)
      cases hinner
      have hhere := hentered [] directory rest rfl
      rw [List.append_nil] at hhere
      refine ⟨hhere, rest, rfl, ⟨found, hbelow, ?_⟩, hext, ?_, fun front dir back h => ?_⟩
      · rwa [List.append_assoc]
      · rwa [List.append_assoc]
      · rw [List.append_assoc]
        exact hentered (directory :: front) dir back (by rw [h]; rfl)
  · rintro ⟨hhere, rest, rfl, ⟨node, hbelow, hfile⟩, hext, hkept, hentered⟩
    refine ⟨⟨node, .inner List.mem_cons_self hbelow, ?_⟩, hext, ?_, fun front dir back h => ?_⟩
    · rwa [List.append_assoc] at hfile
    · rwa [List.append_assoc] at hkept
    · cases front with
      | nil =>
        obtain ⟨rfl, -⟩ := List.cons.inj h
        rwa [List.append_nil]
      | cons directory front =>
        obtain ⟨rfl, hrest⟩ := List.cons.inj h
        have := hentered front dir back hrest
        rwa [List.append_assoc] at this

/-- More patterns leave fewer files. -/
theorem Selected.of_subset {entries : List (String × FileNode)} {patterns : List String}
    (hsub : s.exclude ⊆ patterns)
    (h : Selected { s with exclude := patterns } fs place outer entries names last) :
    Selected s fs place outer entries names last where
  found := h.found
  extension := h.extension
  kept hout := h.kept (hout.mono hsub)
  entered front directory back hnames :=
    ⟨(h.entered front directory back hnames).1,
      fun hout => (h.entered front directory back hnames).2 (hout.mono hsub)⟩

end

section

variable {s : RuleSet} {fs : FileSystem}

/-- A node that is no directory is found if it counts as a file and is taken. -/
theorem mem_leaf_iff {place outer : List String} {name : String} {node : FileNode} {p : Path}
    (hnode : node.isDirectory = false) :
    (fs.CountsAsFile place name node ∧ p ∈ [⟨0, outer ++ [name]⟩].filter s.takes) ↔
      ∃ names last, Selected s fs place outer [(name, node)] names last ∧
        p = ⟨0, outer ++ names ++ [last]⟩ := by
  rw [List.mem_filter, List.mem_singleton]
  simp only [selected_leaf_iff hnode]
  constructor
  · rintro ⟨hfile, rfl, htakes⟩
    exact ⟨[], name, ⟨⟨rfl, rfl⟩, hfile, htakes⟩, by rw [List.append_nil]⟩
  · rintro ⟨_, _, ⟨⟨rfl, rfl⟩, hfile, htakes⟩, rfl⟩
    rw [List.append_nil]
    exact ⟨hfile, rfl, htakes⟩

mutual

/-- A walk finds at a node what is selected there. -/
theorem mem_selectedAt (place outer : List String) (name : String) (p : Path) :
    ∀ node : FileNode, p ∈ selectedAt s fs place outer name node ↔
      ∃ names last, Selected s fs place outer [(name, node)] names last ∧
        p = ⟨0, outer ++ names ++ [last]⟩
  | .file bytes => by
    rw [selectedAt, ← mem_leaf_iff rfl]
    exact (and_iff_right trivial).symm
  | .link target => by
    rw [selectedAt, ← mem_leaf_iff rfl, FileSystem.CountsAsFile]
    cases fs.linksToDirectory place name <;> simp
  | .directory inner => by
    simp only [selectedAt, selected_directory_iff]
    cases hentered : s.enters ⟨0, outer ++ [name]⟩ with
    | false => simp
    | true =>
      rw [if_pos rfl, mem_selectedIn (place ++ [name]) (outer ++ [name]) p inner]
      constructor
      · rintro ⟨rest, last, h, rfl⟩
        exact ⟨name :: rest, last, ⟨rfl, rest, rfl, h⟩, by simp⟩
      · rintro ⟨_, last, ⟨-, rest, rfl, h⟩, rfl⟩
        exact ⟨rest, last, h, by simp⟩

/-- **A walk finds the selected files.** -/
theorem mem_selectedIn (place outer : List String) (p : Path) :
    ∀ entries : List (String × FileNode), p ∈ selectedIn s fs place outer entries ↔
      ∃ names last, Selected s fs place outer entries names last ∧
        p = ⟨0, outer ++ names ++ [last]⟩
  | [] => by
    simp [selectedIn, not_selected_nil]
  | (name, node) :: entries => by
    rw [selectedIn, List.mem_append, mem_selectedAt place outer name p node,
      mem_selectedIn place outer p entries]
    simp only [selected_cons_iff (name, node) entries, or_and_right, exists_or]

end

end

/-! ## Names that are too long -/

section

variable {name : String} (hslash : '/' ∉ name.toList)
  (hlong : FileSystem.maxNameBytes < name.utf8ByteSize)

include hslash in
theorem divide_of_no_slash : Text.divide '/' name = [name] := by
  have hpieces (cs : List Char) (h : '/' ∉ cs) : Text.pieces '/' cs = [cs] := by
    induction cs with
    | nil => rfl
    | cons c cs ih =>
      obtain ⟨hc, hcs⟩ := not_or.mp (List.mem_cons.not.mp h)
      rw [Text.pieces, if_neg (Ne.symm hc), ih hcs]
  rw [Text.divide, hpieces _ hslash, List.map_singleton, String.ofList_toList]

include hlong in
/-- A name that is too long says something, and it is not the name of the directory above. -/
theorem ne_of_long : name ≠ "" ∧ name ≠ "." ∧ name ≠ ".." := by
  refine ⟨?_, ?_, ?_⟩ <;> rintro rfl <;> exact absurd hlong (by decide)

include hslash hlong in
/-- **A name that is too long leads nowhere.** -/
theorem stat_of_long {fs : FileSystem} {entries : List (String × FileNode)}
    (hworking : fs.root.at? fs.working = some (.directory entries)) :
    fs.stat (Path.ofText name).render = .error .nameTooLong := by
  obtain ⟨hempty, hpoint, hpoints⟩ := ne_of_long hlong
  have hidle : Path.isIdle name = false := by
    simp [Path.isIdle, hempty, hpoint]
  have hslashes (c : Char) (hc : c ∈ name.toList) : (c == '/') = false := by
    rw [beq_eq_false_iff_ne]
    exact fun h => hslash (h ▸ hc)
  have hroot : startsAtRoot name = false := by
    rw [startsAtRoot, Text.startsWith, ← Bool.not_eq_true, List.isPrefixOf_iff_prefix]
    exact fun h => hslash (h.subset (List.mem_singleton_self '/'))
  have hfront : name.toList.takeWhile (· == '/') = [] := by
    cases hname : name.toList with
    | nil => rfl
    | cons c cs => rw [List.takeWhile_cons_of_neg]; simp [hslashes c (hname ▸ List.mem_cons_self)]
  -- the name is one step of its own, so rendering and walking leave it as it is
  have hrender : (Path.ofText name).render = name := by
    simp [Path.ofText, Path.render, divide_of_no_slash hslash, hidle, hfront, Text.joinWith]
  have hsteps : pathSteps name = [name] := by
    simp [pathSteps, divide_of_no_slash hslash, hempty]
  have hresolve : fs.resolve false name = .error .nameTooLong := by
    rw [FileSystem.resolve, if_neg hempty, hroot, hsteps]
    split
    · rfl
    · simp [FileSystem.follow, FileSystem.maxLinks, FileSystem.followWith, hworking, hidle,
        hpoints, hlong]
  rw [hrender, FileSystem.stat, hresolve]

end

/-! ## The files for some paths -/

/-- Texts in order, each once, are determined by which texts they are. -/
theorem Text.sortedSet_eq {texts others : List String}
    (h : ∀ text, text ∈ texts ↔ text ∈ others) : sortedSet texts = sortedSet others := by
  refine (pairwise_lt_sortedSet texts).eq_of_mem_iff (pairwise_lt_sortedSet others) fun text => ?_
  exact mem_sortedSet_iff.trans ((h text).trans mem_sortedSet_iff.symm)

theorem Text.sortedSet_singleton (text : String) : sortedSet [text] = [text] := by
  rw [sortedSet, List.eraseDups_cons, List.filter_nil, List.eraseDups_nil, List.mergeSort_singleton]

/-- **Something is where a path leads.** -/
def FileSystem.LeadsSomewhere (fs : FileSystem) (path : String) : Prop :=
  ∃ found, fs.stat (Path.ofText path).render = .ok found

section

variable {s : RuleSet} {fs : FileSystem} {path : String}

/-- **The files that a path stands for** alone; there are none if it leads nowhere. -/
def alone (s : RuleSet) (fs : FileSystem) (path : String) : List String :=
  (filesOf s fs path).toOption.getD []

/-- A path that leads somewhere stands for some files. -/
theorem filesOf_eq_ok (h : fs.LeadsSomewhere path) :
    filesOf s fs path = .ok (alone s fs path) := by
  obtain ⟨⟨place, node⟩, hstat⟩ := h
  cases node <;> simp [alone, filesOf, hstat, Except.toOption]

/-- A path to a file stands for it. -/
theorem alone_of_file {place : List String} {bytes : List UInt8}
    (h : fs.stat (Path.ofText path).render = .ok (place, .file bytes)) :
    alone s fs path = [(Path.ofText path).render] := by
  simp [alone, filesOf, h, Except.toOption]

/-- A path to a directory stands for the files that are selected below it. -/
theorem mem_alone_of_directory {place : List String} {entries : List (String × FileNode)}
    (h : fs.stat (Path.ofText path).render = .ok (place, .directory entries)) {text : String} :
    text ∈ alone s fs path ↔ ∃ names name, Selected s fs place [] entries names name ∧
      text = ((Path.ofText path).join ⟨0, names ++ [name]⟩).render := by
  have halone : alone s fs path = (selectedIn s fs place [] entries).map
      fun p => ((Path.ofText path).join p).render := by
    simp [alone, filesOf, h, Except.toOption, FileNode.entries]
  rw [halone, List.mem_map]
  constructor
  · rintro ⟨p, hp, rfl⟩
    obtain ⟨names, name, hselected, rfl⟩ := (mem_selectedIn place [] p entries).mp hp
    exact ⟨names, name, hselected, rfl⟩
  · rintro ⟨names, name, hselected, rfl⟩
    exact ⟨_, (mem_selectedIn place [] _ entries).mpr ⟨names, name, hselected, rfl⟩, rfl⟩

/-- A path that leads nowhere stands for no files. -/
theorem filesOf_error {e : FileError} (h : fs.stat (Path.ofText path).render = .error e) :
    filesOf s fs path = .error (if e = .nameTooLong then .tooLong (Path.ofText path).render
      else .missing path) := by
  cases e <;> simp [filesOf, h]

/-- More patterns leave fewer files. -/
theorem alone_subset {patterns : List String} (hsub : s.exclude ⊆ patterns) :
    alone { s with exclude := patterns } fs path ⊆ alone s fs path := by
  intro text htext
  cases hstat : fs.stat (Path.ofText path).render with
  | error e => simp [alone, filesOf_error hstat, Except.toOption] at htext
  | ok found =>
    obtain ⟨place, node⟩ := found
    cases node with
    | file bytes =>
      rw [alone_of_file hstat] at htext ⊢
      exact htext
    | link target =>
      simp [alone, filesOf, hstat, Except.toOption, FileNode.entries, selectedIn] at htext
    | directory entries =>
      obtain ⟨names, name, hselected, rfl⟩ := (mem_alone_of_directory hstat).mp htext
      exact (mem_alone_of_directory hstat).mpr ⟨names, name, hselected.of_subset hsub, rfl⟩

end

section

variable {s : RuleSet} {fs : FileSystem} {paths : List String}

theorem mapM_filesOf (h : ∀ path ∈ paths, fs.LeadsSomewhere path) :
    paths.mapM (filesOf s fs) = .ok (paths.map (alone s fs)) := by
  induction paths with
  | nil => rfl
  | cons path paths ih =>
    rw [List.mapM_cons, filesOf_eq_ok (h path List.mem_cons_self),
      ih fun path hpath => h path (List.mem_cons_of_mem _ hpath)]
    rfl

/-- Paths that lead somewhere stand for what each of them stands for. -/
theorem discover_eq_ok (h : ∀ path ∈ paths, fs.LeadsSomewhere path) :
    discover s fs paths = .ok (Text.sortedSet (paths.flatMap (alone s fs))) := by
  rw [discover, mapM_filesOf h, List.flatMap_def]
  rfl

/-- The first path that leads nowhere is the error. -/
theorem discover_eq_error {before after : List String} {path : String} {e : FileError}
    (hbefore : ∀ earlier ∈ before, fs.LeadsSomewhere earlier)
    (hpath : fs.stat (Path.ofText path).render = .error e) :
    discover s fs (before ++ path :: after) =
      .error (if e = .nameTooLong then .tooLong (Path.ofText path).render else .missing path) := by
  rw [discover, List.mapM_append, mapM_filesOf hbefore, List.mapM_cons, filesOf_error hpath]
  rfl

/-- Among paths one of which leads nowhere there is a first one. -/
theorem exists_first_nowhere (h : ∃ path ∈ paths, ¬ fs.LeadsSomewhere path) :
    ∃ before path after e, paths = before ++ path :: after ∧
      (∀ earlier ∈ before, fs.LeadsSomewhere earlier) ∧
      fs.stat (Path.ofText path).render = .error e := by
  induction paths with
  | nil =>
    obtain ⟨path, hpath, -⟩ := h
    cases hpath
  | cons first paths ih =>
    cases hstat : fs.stat (Path.ofText first).render with
    | error e => exact ⟨[], first, paths, e, rfl, List.forall_mem_nil _, hstat⟩
    | ok found =>
      have hfirst : fs.LeadsSomewhere first := ⟨found, hstat⟩
      obtain ⟨path, hpath, hnowhere⟩ := h
      rcases List.mem_cons.mp hpath with rfl | hpath
      · exact absurd hfirst hnowhere
      · obtain ⟨before, path, after, e, rfl, hbefore, he⟩ := ih ⟨path, hpath, hnowhere⟩
        refine ⟨first :: before, path, after, e, rfl, fun earlier hearlier => ?_, he⟩
        rcases List.mem_cons.mp hearlier with rfl | hearlier
        · exact hfirst
        · exact hbefore earlier hearlier

end

/-- **What is to be said of the files found** for some paths. -/
structure Discovered (s : RuleSet) (fs : FileSystem) (paths files : List String) : Prop where
  /-- Each file is found once, in the order of the texts. -/
  ascending : files.Pairwise (· < ·)
  /-- What is found is what is found for each path alone. -/
  union : ∀ text, text ∈ files ↔
    ∃ path ∈ paths, ∃ found, discover s fs [path] = .ok found ∧ text ∈ found
  /-- The order of the paths and repetitions do not matter. -/
  regrouped : ∀ others, (∀ path, path ∈ others ↔ path ∈ paths) →
    discover s fs others = .ok files
  /-- A path to a file stands for that file. -/
  ofFile : ∀ path ∈ paths, ∀ place bytes,
    fs.stat (Path.ofText path).render = .ok (place, .file bytes) →
      discover s fs [path] = .ok [(Path.ofText path).render]
  /-- A path to a directory stands for the files that are selected below it. -/
  ofDirectory : ∀ path ∈ paths, ∀ place entries,
    fs.stat (Path.ofText path).render = .ok (place, .directory entries) →
      ∃ found, discover s fs [path] = .ok found ∧ ∀ text, text ∈ found ↔
        ∃ names name, Selected s fs place [] entries names name ∧
          text = ((Path.ofText path).join ⟨0, names ++ [name]⟩).render
  /-- More patterns leave fewer files. -/
  pruned : ∀ patterns, s.exclude ⊆ patterns →
    ∃ fewer, discover { s with exclude := patterns } fs paths = .ok fewer ∧ fewer ⊆ files

/-- **The files that some paths stand for** are found if every path leads somewhere. Otherwise the
first path that does not is the error: it is missing, unless it is too long to be looked up. -/
theorem discover_exact (s : RuleSet) (fs : FileSystem) (paths : List String) :
    ((∀ path ∈ paths, fs.LeadsSomewhere path) →
      ∃ files, discover s fs paths = .ok files ∧ Discovered s fs paths files) ∧
    ((∃ path ∈ paths, ¬ fs.LeadsSomewhere path) →
      ∃ before path after e, paths = before ++ path :: after ∧
        (∀ earlier ∈ before, fs.LeadsSomewhere earlier) ∧
        fs.stat (Path.ofText path).render = .error e ∧
        discover s fs paths = .error
          (if e = .nameTooLong then .tooLong (Path.ofText path).render else .missing path)) := by
  constructor
  · intro h
    -- each path leads somewhere, so it can be given alone as well
    have hsingle (path : String) (hpath : path ∈ paths) :
        discover s fs [path] = .ok (Text.sortedSet (alone s fs path)) := by
      have hlead : ∀ other ∈ [path], fs.LeadsSomewhere other := fun other hother =>
        h other (List.mem_singleton.mp hother ▸ hpath)
      rw [discover_eq_ok hlead, List.flatMap_singleton]
    refine ⟨_, discover_eq_ok h, ?_⟩
    constructor
    case ascending => exact Text.pairwise_lt_sortedSet _
    case union =>
      intro text
      rw [Text.mem_sortedSet_iff, List.mem_flatMap]
      refine exists_congr fun path => and_congr_right fun hpath => ?_
      simp only [hsingle path hpath, Except.ok.injEq, exists_eq_left', Text.mem_sortedSet_iff]
    case regrouped =>
      intro others hothers
      rw [discover_eq_ok fun path hpath => h path ((hothers path).mp hpath)]
      refine congrArg Except.ok (Text.sortedSet_eq fun text => ?_)
      simp only [List.mem_flatMap, hothers]
    case ofFile =>
      intro path hpath place bytes hstat
      rw [hsingle path hpath, alone_of_file hstat, Text.sortedSet_singleton]
    case ofDirectory =>
      intro path hpath place entries hstat
      refine ⟨_, hsingle path hpath, fun text => ?_⟩
      rw [Text.mem_sortedSet_iff, mem_alone_of_directory hstat]
    case pruned =>
      intro patterns hsub
      refine ⟨_, discover_eq_ok h, fun text htext => ?_⟩
      rw [Text.mem_sortedSet_iff, List.mem_flatMap] at htext ⊢
      obtain ⟨path, hpath, htext⟩ := htext
      exact ⟨path, hpath, alone_subset hsub htext⟩
  · intro h
    obtain ⟨before, path, after, e, rfl, hbefore, he⟩ := exists_first_nowhere h
    exact ⟨before, path, after, e, rfl, hbefore, he, discover_eq_error hbefore he⟩

/-- **A name of 256 letters** leads nowhere, and the error is not that the path is missing. -/
theorem discover_long_name :
    (∃ path ∈ [String.ofList (List.replicate 256 'a')],
      ¬ ({} : FileSystem).LeadsSomewhere path) ∧
    ∃ text, discover {} {} [String.ofList (List.replicate 256 'a')] = .error (.tooLong text) := by
  have hstat : ({} : FileSystem).stat
      (Path.ofText (String.ofList (List.replicate 256 'a'))).render = .error .nameTooLong := by
    refine stat_of_long ?_ ?_ rfl
    · rw [String.toList_ofList]
      decide
    · decide +kernel
  generalize String.ofList (List.replicate 256 'a') = path at hstat ⊢
  have hnowhere : ∃ path' ∈ [path], ¬ ({} : FileSystem).LeadsSomewhere path' := by
    refine ⟨path, List.mem_singleton_self path, ?_⟩
    rintro ⟨found, hfound⟩
    cases hfound.symm.trans hstat
  obtain ⟨before, path', after, e, hpaths, -, he, hdiscover⟩ :=
    (discover_exact {} {} [path]).2 hnowhere
  obtain rfl : path' = path := by
    have hmem : path' ∈ before ++ path' :: after := List.mem_append_right _ List.mem_cons_self
    exact List.mem_singleton.mp (hpaths ▸ hmem)
  cases he.symm.trans hstat
  exact ⟨hnowhere, _, hdiscover⟩

end KlarAudit

import KlarAudit.Proofs.Grammar.DeclarationStart
import Mathlib.Data.List.Forall2

/-!
# Where the declarations of a file start

The declarations of a file start on stretches of it, one after another. Reading steps back to skip a
member that cannot be read, but only after dropping what was read from there, so no lexeme belongs
to the starts of two declarations.

## Main definitions

* `DeclTree.declarationsIn ts`: the declarations of a forest, each before its members
* `DeclStart.Opens all s d`: the declaration `d` starts with `s` somewhere in `all`
* `StartedIn all ds ls`: the declarations `ds` start on stretches of `ls`, one after another

## Main results

* `DeclTree.map_decl_flattenForest`: the entries of a forest are its declarations
* `startedIn_topLevel`: the declarations of a file start on stretches of it
-/

namespace KlarAudit

/-! ## The declarations of a forest -/

namespace DeclTree

mutual

/-- The declarations of a tree, each before its members. -/
def declarations : DeclTree → List Declaration
  | node d ts => d :: declarationsIn ts

/-- The declarations of a forest. -/
def declarationsIn : List DeclTree → List Declaration
  | [] => []
  | t :: ts => t.declarations ++ declarationsIn ts

end

theorem declarationsIn_append (ts us : List DeclTree) :
    declarationsIn (ts ++ us) = declarationsIn ts ++ declarationsIn us := by
  induction ts with
  | nil => rfl
  | cons t ts ih => rw [List.cons_append, declarationsIn, declarationsIn, ih, List.append_assoc]

mutual

theorem map_decl_flattenTree (index : Nat) (parent : Option Nat) (t : DeclTree) :
    (flattenTree index parent t).map (·.decl) = t.declarations :=
  match t with
  | node d ts => by
    rw [flattenTree, declarations, List.map_cons, map_decl_flattenForest]

/-- The entries of a forest are its declarations. -/
theorem map_decl_flattenForest (index : Nat) (parent : Option Nat) (ts : List DeclTree) :
    (flattenForest index parent ts).map (·.decl) = declarationsIn ts :=
  match ts with
  | [] => rfl
  | t :: ts => by
    rw [flattenForest, declarationsIn, List.map_append, map_decl_flattenTree,
      map_decl_flattenForest]

end

end DeclTree

open DeclTree (declarationsIn)

/-! ## Declarations start one after another -/

/-- **The declaration starts in `all`**, with the attributes and the lexeme of `s`. -/
structure DeclStart.Opens (all : List Lexeme) (s : DeclStart) (d : Declaration) : Prop where
  /-- The lexemes stand next to each other. -/
  located : s.lexemes <:+: all
  /-- The declaration begins with the first of them. -/
  begins : d.Begins s.first.token s.doc?

/-- **Declarations that start in `all`**, on stretches of `ls` one after another. -/
def StartedIn (all : List Lexeme) (ds : List Declaration) (ls : List Lexeme) : Prop :=
  ∃ starts : List DeclStart, List.Forall₂ (DeclStart.Opens all) starts ds ∧
    (starts.flatMap DeclStart.lexemes).Sublist ls

namespace StartedIn

variable {all ls ms : List Lexeme} {ds es : List Declaration}

theorem nil (all ls : List Lexeme) : StartedIn all [] ls :=
  ⟨[], .nil, List.nil_sublist ls⟩

theorem append (h : StartedIn all ds ls) (k : StartedIn all es ms) :
    StartedIn all (ds ++ es) (ls ++ ms) := by
  obtain ⟨starts, hds, hls⟩ := h
  obtain ⟨more, hes, hms⟩ := k
  refine ⟨starts ++ more, List.rel_append hds hes, ?_⟩
  rw [List.flatMap_append]
  exact hls.append hms

theorem prepend (h : StartedIn all ds ls) (ms : List Lexeme) : StartedIn all ds (ms ++ ls) :=
  (nil all ms).append h

theorem extend (h : StartedIn all ds ls) (ms : List Lexeme) : StartedIn all ds (ls ++ ms) := by
  simpa using h.append (nil all ms)

theorem single {s : DeclStart} {d : Declaration} (h : s.Opens all d) :
    StartedIn all [d] s.lexemes :=
  ⟨[s], .cons h .nil, by simp⟩

end StartedIn

section Started

variable {all : List Lexeme} (hg : ∀ l ∈ all, l.token.Genuine)

include hg

/-- A declaration that has been opened, and how it starts. -/
theorem exists_started {byPlace : Bool} {ls rest : List Lexeme} {o : Opening} (hls : ls <:+ all)
    (h : (opening byPlace ls).outcome = .ok (o, rest)) :
    ∃ (s : DeclStart) (more : List Lexeme), ls = s.lexemes ++ (more ++ rest) ∧
      s.lexemes <:+: all ∧ o.Begins s.first.token s.doc? := by
  have hgenuine : ∀ l ∈ ls, l.token.Genuine := fun l hl => hg l (hls.subset hl)
  obtain ⟨s, tail, rfl, ⟨more, rfl⟩, hbegins⟩ := exists_start_of_opening hgenuine h
  refine ⟨s, more, rfl, ?_, hbegins⟩
  exact (List.prefix_append s.lexemes _).isInfix.trans hls.isInfix

/-- What is read starts on stretches of the lexemes that are taken. -/
theorem startedIn_item :
    (∀ byPlace ls (r : ItemResult ls), (item byPlace ls).outcome = .ok r → ls <:+ all →
      ∃ taken, ls = taken ++ r.rest ∧ StartedIn all (declarationsIn r.tree.toList) taken) ∧
    ∀ first byPlace ls (m : BodyResult ls), (members first byPlace ls).outcome = .ok m →
      ls <:+ all →
      ∃ taken, ls = taken ++ m.rest ∧ StartedIn all (declarationsIn m.trees) taken := by
  refine reading_induction ?complete ?block ?close ?member ?skipped
  case complete =>
    intro byPlace ls d rest h hls
    obtain ⟨s, more, hsplit, hlocated, hbegins⟩ := exists_started hg hls h
    refine ⟨s.lexemes ++ more, hsplit.trans (List.append_assoc ..).symm, ?_⟩
    cases d with
    | none => exact .nil all _
    | some d => exact (StartedIn.single ⟨hlocated, hbegins d rfl⟩).extend more
  case block =>
    intro byPlace ls b rest m h hm ih hls
    obtain ⟨s, more, hsplit, hlocated, hbegins⟩ := exists_started hg hls h
    obtain ⟨taken, hrest, hmembers⟩ := ih ((opening_of_block h).1.suffix.trans hls)
    refine ⟨s.lexemes ++ (more ++ taken), hsplit.trans (by simp [← hrest]), ?_⟩
    -- the members come after their block in the list of declarations and in the text
    have hroot := StartedIn.single ⟨hlocated, hbegins m.close⟩
    simpa [declarationsIn, DeclTree.declarations] using hroot.append (hmembers.prepend more)
  case close =>
    intro first byPlace l tail _ _ _
    exact ⟨[l], rfl, .nil all _⟩
  case member =>
    intro first byPlace l tail r m hl hr hm ihItem ihBody hls
    obtain ⟨taken, hitem, hdeclared⟩ := ihItem hls
    obtain ⟨more, hbody, hmembers⟩ := ihBody ((suffix_of_item hr).trans hls)
    refine ⟨taken ++ more, ?_, ?_⟩
    · rw [List.append_assoc, ← hbody]
      exact hitem
    · rw [DeclTree.declarationsIn_append]
      exact hdeclared.append hmembers
  case skipped =>
    -- what recovery skips stands before the members that are kept
    intro first byPlace l tail e rest m _ hl he hs hm ih hls
    have hskipped := (counts_skipped byPlace hl hs).suffix
    obtain ⟨taken, hrest, hmembers⟩ := ih (hskipped.trans hls)
    obtain ⟨skipped, hskipped⟩ := hskipped
    exact ⟨skipped ++ taken, hskipped.symm.trans (by simp [← hrest]), hmembers.prepend skipped⟩

/-- **The declarations of a file** start on stretches of it, one after another. -/
theorem startedIn_topLevel (ls : List Lexeme) (hls : ls <:+ all) :
    StartedIn all (declarationsIn (topLevel ls).2) ls := by
  induction ls using topLevel_induction with
  | nil =>
    rw [topLevel_nil]
    exact .nil all []
  | @read l tail r h ih =>
    rw [topLevel_of_item h, DeclTree.declarationsIn_append]
    obtain ⟨taken, htaken, hdeclared⟩ := (startedIn_item hg).1 _ _ _ h hls
    have hboth := hdeclared.append (ih ((suffix_of_item h).trans hls))
    rw [← htaken] at hboth
    exact hboth
  | @skipped l tail e h ih =>
    rw [topLevel_of_error h]
    have hskipped : resync tail <:+ l :: tail :=
      (List.dropWhile_suffix _).trans (List.suffix_cons l tail)
    have hmore := ih (hskipped.trans hls)
    obtain ⟨skipped, hskipped⟩ := hskipped
    rw [← hskipped]
    exact hmore.prepend skipped

end Started

end KlarAudit

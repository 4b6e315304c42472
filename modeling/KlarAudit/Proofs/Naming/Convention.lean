import Mathlib.Data.List.Basic
import KlarAudit.Proofs.Naming.Word
import KlarAudit.Rule.Identifier

/-!
# Respelling names

A name is respelled by changing the case of its words and, where the convention divides words,
putting single underscores between them. No letter or digit is lost or added. Whether the outcome
follows the convention is up to the first of them alone: a digit in front stays in front, and no
convention allows that.

## Main definitions

* `Convention.recase`: what becomes of a word
* `IsLedByLetter n`: the first character of the name that is no underscore is a letter
* `Respells n`: what respelling does to the name

## Main results

* `words_respell`: where words are divided, the words of the respelled name are the words of the
  name in the case of the convention
* `respells_of_isName`: what respelling does to a name
-/

namespace KlarAudit

/-! ## Texts with a text between them -/

theorem toList_joinWith_cons (sep w : String) (ws : List String) :
    (Text.joinWith sep (w :: ws)).toList =
      w.toList ++ ws.flatMap fun v => sep.toList ++ v.toList := by
  induction ws generalizing w with
  | nil => simp [Text.joinWith]
  | cons v ws ih =>
    rw [Text.joinWith, String.toList_append, String.toList_append, ih, List.flatMap_cons]
    simp only [List.append_assoc]

namespace Naming

variable {c : Char} {front : List Char} {n w : String} {ws : List String}

/-! ## Names with divided words -/

section Divided

variable {first body : Char → Bool}

theorem isSegmented_cons (hc : c ≠ '_') (cs : List Char) :
    isSegmented body (c :: cs) = (body c && isSegmented body cs) := by
  rw [isSegmented]
  exact fun d ds h => absurd h hc

theorem isSegmented_append {cs : List Char} (hcs : ∀ c ∈ cs, body c ∧ c ≠ '_')
    (rest : List Char) : isSegmented body (cs ++ rest) = isSegmented body rest := by
  induction cs with
  | nil => rfl
  | cons c cs ih =>
    obtain ⟨⟨hc, hne⟩, hcs⟩ := List.forall_mem_cons.mp hcs
    rw [List.cons_append, isSegmented_cons hne, hc, Bool.true_and, ih hcs]

theorem isSegmented_flatMap
    (hws : ∀ v ∈ ws, v.toList ≠ [] ∧ ∀ c ∈ v.toList, body c ∧ c ≠ '_') :
    isSegmented body (ws.flatMap fun v => '_' :: v.toList) := by
  induction ws with
  | nil => simp [isSegmented]
  | cons v ws ih =>
    obtain ⟨⟨hne, hv⟩, hws⟩ := List.forall_mem_cons.mp hws
    obtain ⟨c, cs, hcs⟩ := List.exists_cons_of_ne_nil hne
    rw [hcs] at hv
    obtain ⟨⟨hc, -⟩, hrest⟩ := List.forall_mem_cons.mp hv
    rw [List.flatMap_cons, hcs, List.cons_append, List.cons_append, isSegmented, hc,
      isSegmented_append hrest, ih hws]
    rfl

theorem of_isSegmented {cs : List Char} (h : isSegmented body cs) :
    ∀ c ∈ cs, body c ∨ c = '_' := by
  fun_induction isSegmented body cs with
  | case1 => simp
  | case2 c cs ih =>
    obtain ⟨hc, hcs⟩ := Bool.and_eq_true_iff.mp h
    simpa [hc] using ih hcs
  | case3 c cs _ ih =>
    obtain ⟨hc, hcs⟩ := Bool.and_eq_true_iff.mp h
    simpa [hc] using ih hcs

/-- Whether divided words follow a convention is up to the first character of the first. -/
theorem isDivided_eq (hfront : ∀ c ∈ front, c = '_')
    (hws : ∀ v ∈ w :: ws, v.toList ≠ [] ∧ ∀ c ∈ v.toList, body c ∧ c ≠ '_')
    (hn : n.toList = front ++ (w.toList ++ ws.flatMap fun v => '_' :: v.toList)) :
    isDivided first body n = w.toList.head?.any first := by
  obtain ⟨⟨hne, hw⟩, hws⟩ := List.forall_mem_cons.mp hws
  obtain ⟨c, cs, hcs⟩ := List.exists_cons_of_ne_nil hne
  rw [hcs] at hw
  obtain ⟨⟨-, hc⟩, hrest⟩ := List.forall_mem_cons.mp hw
  have hdrop : n.toList.dropWhile (· == '_') =
      c :: (cs ++ ws.flatMap fun v => '_' :: v.toList) := by
    rw [hn, List.dropWhile_append_of_pos fun d hd => beq_iff_eq.mpr (hfront d hd), hcs,
      List.cons_append, List.dropWhile_cons_of_neg (by simpa using hc)]
  rw [isDivided, hdrop, hcs]
  simp [isSegmented_append hrest, isSegmented_flatMap hws]

end Divided

/-! ## Changing the case of a word -/

theorem lower_lower (w : String) : lower (lower w) = lower w := by
  simp [lower, Function.comp_def, lowerChar_lowerChar]

theorem lower_upper (w : String) : lower (upper w) = lower w := by
  simp [lower, upper, Function.comp_def, lowerChar_upperChar]

theorem upper_upper (w : String) : upper (upper w) = upper w := by
  simp [upper, Function.comp_def, upperChar_upperChar]

theorem toList_capitalize {cs : List Char} (h : w.toList = c :: cs) :
    (capitalize w).toList = upperChar c :: cs.map lowerChar := by
  simp [capitalize, h]

theorem lower_capitalize (w : String) : lower (capitalize w) = lower w := by
  cases h : w.toList with
  | nil => simp [lower, capitalize, h]
  | cons c cs =>
    simp [lower, toList_capitalize h, h, Function.comp_def, lowerChar_upperChar,
      lowerChar_lowerChar]

theorem written_lower (h : Written isLetter w) : Written isLower (lower w) :=
  h.map (fun c hc => (isLower_lowerChar c).trans hc) fun _ => lowerChar_of_isNumeral

theorem written_upper (h : Written isLetter w) : Written isUpper (upper w) :=
  h.map (fun c hc => (isUpper_upperChar c).trans hc) fun _ => upperChar_of_isNumeral

theorem written_capitalize (h : Written isLetter w) : Written isLetter (capitalize w) := by
  obtain ⟨letters, digits, hw, hletters, hdigits⟩ := h.split
  have hsame : digits.map lowerChar = digits :=
    (List.map_congr_left fun c hc => lowerChar_of_isNumeral (hdigits c hc)).trans (List.map_id' _)
  -- a word may start with a digit, which has no capital
  cases letters with
  | nil =>
    obtain ⟨d, ds, rfl⟩ := List.exists_cons_of_ne_nil (hw ▸ h.ne_nil)
    obtain ⟨hd, hds⟩ := List.cons.inj hsame
    refine ⟨?_, [], d :: ds, ?_, by simp, hdigits⟩
    · simp [toList_capitalize hw]
    · rw [toList_capitalize hw, upperChar_of_isNumeral (hdigits d List.mem_cons_self), hds]
      rfl
  | cons l ls =>
    obtain ⟨hl, hls⟩ := List.forall_mem_cons.mp hletters
    rw [List.cons_append] at hw
    refine ⟨?_, upperChar l :: ls.map lowerChar, digits, ?_, ?_, hdigits⟩
    · simp [toList_capitalize hw]
    · rw [toList_capitalize hw, List.map_append, hsame]
      rfl
    · refine List.forall_mem_cons.mpr ⟨isLetter_of_isUpper ((isUpper_upperChar l).trans hl), ?_⟩
      rintro _ hmem
      obtain ⟨c, hc, rfl⟩ := List.mem_map.mp hmem
      exact isLetter_of_isLower ((isLower_lowerChar c).trans (hls c hc))

end Naming

namespace Convention

open Naming

/-- What becomes of a word when a name is respelled. -/
def recase : Convention → String → String
  | snake => lower
  | upperSnake => upper
  | pascal => capitalize

/-- The letters that a name in the convention may begin with. -/
def letter : Convention → Char → Bool
  | snake => isLower
  | upperSnake => isUpper
  | pascal => isUpper

variable {c : Convention} {n w : String} {ws : List String}

theorem recase_recase (hc : c ≠ .pascal) (w : String) : c.recase (c.recase w) = c.recase w := by
  cases c with
  | snake => exact lower_lower w
  | upperSnake => exact upper_upper w
  | pascal => exact absurd rfl hc

theorem lower_recase (c : Convention) (w : String) : lower (c.recase w) = lower w := by
  cases c with
  | snake => exact lower_lower w
  | upperSnake => exact lower_upper w
  | pascal => exact lower_capitalize w

theorem written_recase (c : Convention) (h : Written isLetter w) :
    Written isLetter (c.recase w) := by
  cases c with
  | snake => exact (written_lower h).mono fun _ => isLetter_of_isLower
  | upperSnake => exact (written_upper h).mono fun _ => isLetter_of_isUpper
  | pascal => exact written_capitalize h

/-- The first letter of a word is brought into the case of the convention, and a digit remains. -/
theorem letter_head?_recase (c : Convention) (w : String) :
    (c.recase w).toList.head?.any c.letter = w.toList.head?.any isLetter := by
  cases h : w.toList with
  | nil => cases c <;> simp [recase, lower, upper, capitalize, h]
  | cons d ds =>
    cases c with
    | snake => simp [recase, letter, lower, h, isLower_lowerChar]
    | upperSnake => simp [recase, letter, upper, h, isUpper_upperChar]
    | pascal => simp [recase, letter, toList_capitalize h, isUpper_upperChar]

/-! ## Respelled names -/

theorem respell_of_words_eq_nil (c : Convention) (h : words n = []) : c.respell n = n := by
  rw [respell, h]

theorem toList_respell (hc : c ≠ .pascal) (h : words n = w :: ws) :
    (c.respell n).toList = n.toList.takeWhile (· == '_') ++
      ((c.recase w).toList ++ (ws.map c.recase).flatMap fun v => '_' :: v.toList) := by
  have hdivided (f : String → String) : (String.ofList (n.toList.takeWhile (· == '_')) ++
      Text.joinWith "_" ((w :: ws).map f)).toList = n.toList.takeWhile (· == '_') ++
        ((f w).toList ++ (ws.map f).flatMap fun v => '_' :: v.toList) := by
    rw [String.toList_append, String.toList_ofList, List.map_cons, toList_joinWith_cons]
    rfl
  rw [respell, h]
  cases c with
  | snake => exact hdivided lower
  | upperSnake => exact hdivided upper
  | pascal => exact absurd rfl hc

theorem toList_respell_pascal (h : words n = w :: ws) :
    (pascal.respell n).toList = ((w :: ws).map pascal.recase).flatMap String.toList := by
  rw [respell, h]
  exact String.toList_join

theorem eq_underscore_of_mem_takeWhile {d : Char} (h : d ∈ n.toList.takeWhile (· == '_')) :
    d = '_' := by
  simpa using List.mem_takeWhile_imp h

theorem written_of_mem_map_recase (c : Convention) (hn : IsName n) :
    ∀ v ∈ (words n).map c.recase, Written isLetter v := by
  rintro _ hmem
  obtain ⟨v, hv, rfl⟩ := List.mem_map.mp hmem
  exact written_recase c ((segments_words hn).written v hv)

/-- Underscores aside, a respelled name is made of the words of the name. -/
theorem filter_respell (c : Convention) (hn : IsName n) :
    (c.respell n).toList.filter (· != '_') = ((words n).map c.recase).flatMap String.toList := by
  have hwritten := written_of_mem_map_recase c hn
  cases h : words n with
  | nil =>
    have hlost := (segments_words hn).filter_eq
    rw [h] at hlost
    rw [respell_of_words_eq_nil c h]
    exact hlost
  | cons w ws =>
    rw [h] at hwritten
    by_cases hc : c = .pascal
    · subst hc
      rw [toList_respell_pascal h, List.filter_flatMap]
      exact List.flatMap_congr fun v hv => (hwritten v hv).filter_eq
    · have hfront : (n.toList.takeWhile (· == '_')).filter (· != '_') = [] :=
        List.filter_eq_nil_iff.mpr fun d hd => by simp [eq_underscore_of_mem_takeWhile hd]
      obtain ⟨hw, hws⟩ := List.forall_mem_cons.mp hwritten
      rw [toList_respell hc h, List.filter_append, List.filter_append, hfront, hw.filter_eq,
        List.filter_flatMap, List.map_cons, List.flatMap_cons, List.nil_append]
      refine congrArg _ (List.flatMap_congr fun v hv => ?_)
      rw [List.filter_cons_of_neg (by simp), (hws v hv).filter_eq]

/-- **Respelling changes nothing but the case of letters and underscores.** -/
theorem lower_withoutUnderscores_respell (c : Convention) (hn : IsName n) :
    lower (withoutUnderscores (c.respell n)) = lower (withoutUnderscores n) := by
  have hwords : ∀ ws : List String, ((ws.map c.recase).flatMap String.toList).map lowerChar =
      (ws.flatMap String.toList).map lowerChar := by
    intro ws
    induction ws with
    | nil => rfl
    | cons w ws ih =>
      have hw := String.ofList_inj.mp (lower_recase c w)
      rw [List.map_cons, List.flatMap_cons, List.map_append, ih, hw, List.flatMap_cons,
        List.map_append]
  rw [lower, lower, withoutUnderscores, withoutUnderscores, String.toList_ofList,
    String.toList_ofList, filter_respell c hn, hwords, (segments_words hn).filter_eq]

end Convention

namespace Naming

/-- The first character of the name that is no underscore is a letter. -/
def IsLedByLetter (n : String) : Prop :=
  ∃ c, n.toList.find? (· != '_') = some c ∧ isLetter c

end Naming

namespace Convention

open Naming

variable {c : Convention} {n w : String} {ws : List String}

theorem isLedByLetter_iff_of_words (hn : IsName n) :
    IsLedByLetter n ↔ ∃ w ws, words n = w :: ws ∧ w.toList.head?.any isLetter := by
  have hhead : n.toList.find? (· != '_') = ((words n).flatMap String.toList).head? := by
    rw [← (segments_words hn).filter_eq, List.head?_filter]
  rw [IsLedByLetter, hhead]
  cases h : words n with
  | nil => simp
  | cons w ws =>
    have hne := ((segments_words hn).written w (h ▸ List.mem_cons_self)).ne_nil
    obtain ⟨d, ds, hd⟩ := List.exists_cons_of_ne_nil hne
    simp [hd]

theorem accepts_eq_isDivided (hc : c ≠ .pascal) (n : String) :
    c.accepts n = isDivided c.letter (fun d => c.letter d || isNumeral d) n := by
  cases c with
  | snake => rfl
  | upperSnake => rfl
  | pascal => exact absurd rfl hc

theorem accepts_of_words_eq_nil (c : Convention) (hn : IsName n) (h : words n = []) :
    c.accepts n = false := by
  have hall := (words_eq_nil_iff hn).mp h
  by_cases hc : c = .pascal
  · subst hc
    rw [accepts, isUndivided]
    cases hlist : n.toList with
    | nil => rfl
    | cons d ds =>
      rw [hall d (by simp [hlist])]
      rfl
  · have hdrop : n.toList.dropWhile (· == '_') = [] :=
      List.dropWhile_eq_nil_iff.mpr fun d hd => beq_iff_eq.mpr (hall d hd)
    rw [accepts_eq_isDivided hc, isDivided, hdrop]

theorem isLetter_of_letter {d : Char} (h : c.letter d) : isLetter d := by
  cases c with
  | snake => exact isLetter_of_isLower h
  | upperSnake => exact isLetter_of_isUpper h
  | pascal => exact isLetter_of_isUpper h

theorem written_letter_of_mem (hc : c ≠ .pascal) (hn : IsName n) :
    ∀ v ∈ (words n).map c.recase, Written c.letter v := by
  rintro _ hmem
  obtain ⟨v, hv, rfl⟩ := List.mem_map.mp hmem
  have hwritten := (segments_words hn).written v hv
  cases c with
  | snake => exact written_lower hwritten
  | upperSnake => exact written_upper hwritten
  | pascal => exact absurd rfl hc

theorem isWhole_of_written (hc : c ≠ .pascal) (h : Written c.letter w) : IsWhole w := by
  cases c with
  | snake => exact isWhole_of_isLower h
  | upperSnake => exact isWhole_of_isUpper h
  | pascal => exact absurd rfl hc

/-- Divided words follow their convention if the first of them is led by one of its letters. -/
theorem accepts_of_written (hc : c ≠ .pascal) {front : List Char} (hfront : ∀ d ∈ front, d = '_')
    (hws : ∀ v ∈ w :: ws, Written c.letter v)
    (hn : n.toList = front ++ (w.toList ++ ws.flatMap fun v => '_' :: v.toList)) :
    c.accepts n = w.toList.head?.any c.letter := by
  rw [accepts_eq_isDivided hc]
  refine isDivided_eq hfront (fun v hv => ⟨(hws v hv).ne_nil, fun d hd => ?_⟩) hn
  exact ⟨Bool.or_eq_true_iff.mpr ((hws v hv).of_mem hd),
    ((hws v hv).mono fun _ => isLetter_of_letter).ne_underscore hd⟩

/-- Capitalized words follow their convention if the first of them is led by a capital letter. -/
theorem accepts_pascal_of_flatMap (hws : ∀ v ∈ w :: ws, Written isLetter v)
    (hn : n.toList = (w :: ws).flatMap String.toList) :
    pascal.accepts n = w.toList.head?.any isUpper := by
  have halphanumeric : ∀ d ∈ n.toList, isAlphanumeric d := by
    intro d hd
    rw [hn] at hd
    obtain ⟨v, hv, hd⟩ := List.mem_flatMap.mp hd
    rw [isAlphanumeric, isUpperBody, ← Bool.or_assoc, Bool.or_eq_true]
    exact (hws v hv).of_mem hd
  obtain ⟨d, ds, hd⟩ := List.exists_cons_of_ne_nil (hws w List.mem_cons_self).ne_nil
  rw [List.flatMap_cons, hd, List.cons_append] at hn
  rw [hn] at halphanumeric
  have hrest := List.all_eq_true.mpr fun e he => halphanumeric e (List.mem_cons_of_mem _ he)
  rw [accepts, isUndivided, hn, hd]
  simp only [hrest, Bool.and_true, List.head?_cons, Option.any_some]

/-- **A respelled name follows the convention** if the name is led by a letter, and only then. -/
theorem accepts_respell_iff (c : Convention) (hn : IsName n) :
    c.accepts (c.respell n) ↔ IsLedByLetter n := by
  rw [isLedByLetter_iff_of_words hn]
  cases h : words n with
  | nil => simp [respell_of_words_eq_nil c h, accepts_of_words_eq_nil c hn h]
  | cons w ws =>
    have haccepts : c.accepts (c.respell n) = (c.recase w).toList.head?.any c.letter := by
      by_cases hc : c = .pascal
      · subst hc
        have hwritten := written_of_mem_map_recase pascal hn
        rw [h] at hwritten
        exact accepts_pascal_of_flatMap hwritten (toList_respell_pascal h)
      · have hwritten := written_letter_of_mem hc hn
        rw [h] at hwritten
        exact accepts_of_written hc (fun d => eq_underscore_of_mem_takeWhile) hwritten
          (toList_respell hc h)
    rw [haccepts, letter_head?_recase]
    simp

/-- The words of a respelled name are the words of the name in the case of the convention, if this
divides words. -/
theorem words_respell (hc : c ≠ .pascal) (hn : IsName n) :
    words (c.respell n) = (words n).map c.recase := by
  have hwritten := written_letter_of_mem hc hn
  cases h : words n with
  | nil => rw [respell_of_words_eq_nil c h, h, List.map_nil]
  | cons w ws =>
    rw [h] at hwritten
    rw [words, toList_respell hc h, List.map_cons]
    exact wordsFrom_append (fun d => eq_underscore_of_mem_takeWhile) fun v hv =>
      ⟨(hwritten v hv).ne_nil, isWhole_of_written hc (hwritten v hv)⟩

/-- The underscores in front of a name are kept where words are divided. -/
theorem takeWhile_respell (hc : c ≠ .pascal) (hn : IsName n) :
    (c.respell n).toList.takeWhile (· == '_') = n.toList.takeWhile (· == '_') := by
  have hwritten := written_of_mem_map_recase c hn
  cases h : words n with
  | nil => rw [respell_of_words_eq_nil c h]
  | cons w ws =>
    rw [h] at hwritten
    have hw := hwritten _ List.mem_cons_self
    obtain ⟨d, ds, hd⟩ := List.exists_cons_of_ne_nil hw.ne_nil
    have hne : d ≠ '_' := hw.ne_underscore (by simp [hd])
    rw [toList_respell hc h, hd, List.cons_append]
    exact takeWhile_append_of_head? (fun e => List.mem_takeWhile_imp) (by simpa using hne)

/-- **Respelling again changes nothing** where words are divided. -/
theorem respell_respell (hc : c ≠ .pascal) (hn : IsName n) :
    c.respell (c.respell n) = c.respell n := by
  have hwords := words_respell hc hn
  cases h : words n with
  | nil =>
    have hsame := respell_of_words_eq_nil c h
    rw [hsame, hsame]
  | cons w ws =>
    rw [h, List.map_cons] at hwords
    refine String.toList_inj.mp ?_
    have hsame : (ws.map c.recase).map c.recase = ws.map c.recase := by
      rw [List.map_map]
      exact List.map_congr_left fun v _ => recase_recase hc v
    rw [toList_respell hc hwords, takeWhile_respell hc hn, toList_respell hc h, recase_recase hc,
      hsame]

end Convention

/-! ## Remarks on the case of a name -/

open Naming

theorem isEmpty_stripUnderscores_iff {n : String} :
    (stripUnderscores n).isEmpty ↔ ∀ c ∈ n.toList, c = '_' := by
  rw [stripUnderscores, List.isEmpty_iff, List.reverse_eq_nil_iff, List.dropWhile_eq_nil_iff]
  constructor
  · intro h c hc
    rw [← List.takeWhile_append_dropWhile (p := (· == '_')) (l := n.toList)] at hc
    rcases List.mem_append.mp hc with hc | hc
    · exact Convention.eq_underscore_of_mem_takeWhile hc
    · exact beq_iff_eq.mp (h c (List.mem_reverse.mpr hc))
  · intro h c hc
    exact beq_iff_eq.mpr (h c (List.dropWhile_subset _ (List.mem_reverse.mp hc)))

section Remarks

variable {t : NamedThing} {r : Remark}

theorem caseRemark?_of_accepts (h : t.convention.accepts t.name) : caseRemark? t = none := by
  rw [caseRemark?, h]
  simp

theorem exists_caseRemark? (h : ¬t.convention.accepts t.name)
    (hname : ∃ c ∈ t.name.toList, c ≠ '_') : ∃ r, caseRemark? t = some r := by
  have hstrip : ¬(stripUnderscores t.name).isEmpty := by
    rw [isEmpty_stripUnderscores_iff]
    simpa using hname
  rw [caseRemark?]
  simp only [h, hstrip, Bool.false_or]
  exact ⟨_, rfl⟩

/-- What is said on a name is said at the name, and proposes the respelled name. -/
theorem of_caseRemark? (h : caseRemark? t = some r) : r.line = t.pos.line ∧
    r.column = t.pos.column ∧ r.fix = some (t.convention.respell t.name) := by
  rw [caseRemark?] at h
  split at h
  · cases h
  · cases h
    exact ⟨rfl, rfl, rfl⟩

/-- Nothing is remarked on a name just if it follows the convention. -/
theorem forall_caseRemark?_eq_none_iff {n : String} {c : Convention}
    (hname : ∃ d ∈ n.toList, d ≠ '_') :
    (∀ t : NamedThing, t.name = n → t.convention = c → caseRemark? t = none) ↔ c.accepts n := by
  constructor
  · intro hnone
    by_contra hno
    obtain ⟨r, hr⟩ := exists_caseRemark? (t := ⟨"", n, default, c⟩) hno hname
    rw [hnone _ rfl rfl] at hr
    cases hr
  · rintro hyes t rfl rfl
    exact caseRemark?_of_accepts hyes

end Remarks

/-! ## What respelling does to a name -/

/-- **What respelling does to a name.** -/
structure Respells (n : String) : Prop where
  /-- The words of the name make up the name without its underscores. -/
  join_words : String.join (words n) = withoutUnderscores n
  /-- Respelling changes nothing but the case of letters and underscores. -/
  lower_respell : ∀ c : Convention,
    lower (withoutUnderscores (c.respell n)) = lower (withoutUnderscores n)
  /-- The respelled name follows the convention just if the name is led by a letter. -/
  accepts_respell : ∀ c : Convention, c.accepts (c.respell n) ↔ IsLedByLetter n
  /-- What is proposed for something of such a name is not remarked on again. -/
  proposal : IsLedByLetter n → ∀ (t : NamedThing) (r : Remark), t.name = n →
    caseRemark? t = some r → ∃ fix, r.fix = some fix ∧ t.convention.accepts fix ∧
      ∀ u : NamedThing, u.name = fix → u.convention = t.convention → caseRemark? u = none
  /-- Respelling again changes nothing, where words are divided. -/
  respell_respell : ∀ c : Convention, c ≠ .pascal → c.respell (c.respell n) = c.respell n

/-- **What respelling does to a name** of Latin letters, digits and underscores. -/
theorem respells_of_isName {n : String} (hn : IsName n) : Respells n := by
  constructor
  case join_words => exact Naming.join_words hn
  case lower_respell => exact fun c => c.lower_withoutUnderscores_respell hn
  case accepts_respell => exact fun c => c.accepts_respell_iff hn
  case proposal =>
    rintro hled t r rfl hr
    have haccepts := (t.convention.accepts_respell_iff hn).mpr hled
    refine ⟨_, (of_caseRemark? hr).2.2, haccepts, fun u hname hconvention => ?_⟩
    exact caseRemark?_of_accepts (by rwa [hname, hconvention])
  case respell_respell => exact fun c hc => c.respell_respell hc hn

/-- A name with a run of capitals, digits, and underscores at hard places. -/
theorem respells_mixed : IsName "__parseHTTPHeader2__9_X" ∧ Respells "__parseHTTPHeader2__9_X" := by
  have hn : IsName "__parseHTTPHeader2__9_X" := by decide +kernel
  exact ⟨hn, respells_of_isName hn⟩

/-- Where words are not divided, respelling again may change the name once more. -/
example : Convention.pascal.respell "a_b" = "AB" ∧ Convention.pascal.respell "AB" = "Ab" := by
  decide +kernel

end KlarAudit

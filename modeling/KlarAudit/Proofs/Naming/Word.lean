import Mathlib.Data.List.TakeWhile
import KlarAudit.Naming.Word
import KlarAudit.Token.Scan

/-!
# The words of a name, and what is between them

A name of Latin letters, digits and underscores falls into words, each of which is a run of letters
with digits behind it, and underscores. Nothing else is lost when it is taken apart, whatever the
case of its letters: where a run of capitals ends depends on what follows it, but every character
other than an underscore starts or continues a word.

## Main definitions

* `IsName n`: the name is made of Latin letters, digits and underscores
* `Written p w`: `w` is a word with letters that satisfy `p`
* `Segments cs ws`: the characters `cs` are the words `ws` and underscores
* `withoutUnderscores n`: the name without its underscores

## Main results

* `segments_words`: the words of a name and underscores make up the name
* `join_words`: the words of a name make up the name without its underscores
* `wordsFrom_append`: words in letters of one case that are divided by underscores are found
-/

namespace KlarAudit.Naming

variable {c : Char} {cs rest : List Char}

/-! ## Characters -/

/-- A letter of the Latin script. -/
def isLetter (c : Char) : Bool :=
  isLower c || isUpper c

/-- A digit of the Latin script. -/
def isNumeral (c : Char) : Bool :=
  '0' ≤ c && c ≤ '9'

/-- The name is made of Latin letters, digits and underscores. Identifiers are such names. -/
def IsName (n : String) : Prop :=
  ∀ c ∈ n.toList, Munch.isWordBody c

instance (n : String) : Decidable (IsName n) :=
  decidable_of_iff (n.toList.all Munch.isWordBody) List.all_eq_true

theorem isWordBody_iff : Munch.isWordBody c ↔ isLetter c ∨ isNumeral c ∨ c = '_' := by
  simp only [Munch.isWordBody, Munch.isWordStart, isLetter, isLower, isUpper, isNumeral,
    Bool.or_eq_true, beq_iff_eq, or_assoc, or_comm (a := c = '_')]

/-- What holds of all the characters of names may be found out by trying them. -/
theorem of_isWordBody {P : Char → Prop}
    (h : ∀ n < 123, Munch.isWordBody (Char.ofNat n) → P (Char.ofNat n))
    (hc : Munch.isWordBody c) : P c := by
  have hlt : c.toNat < 123 := by
    simp only [Munch.isWordBody, Munch.isWordStart, Bool.or_eq_true, Bool.and_eq_true,
      decide_eq_true_eq, beq_iff_eq, Char.le_def, UInt32.le_iff_toNat_le] at hc
    rcases hc with ((⟨-, hc⟩ | ⟨-, hc⟩) | rfl) | ⟨-, hc⟩
    · exact Nat.lt_of_le_of_lt hc (by decide)
    · exact Nat.lt_of_le_of_lt hc (by decide)
    · decide
    · exact Nat.lt_of_le_of_lt hc (by decide)
  have hn := h c.toNat hlt
  rw [Char.ofNat_toNat] at hn
  exact hn hc

theorem isDigit_eq_isNumeral : Munch.isWordBody c → Text.isDigit c = isNumeral c :=
  of_isWordBody (P := fun c => Text.isDigit c = isNumeral c) (by decide +kernel)

theorem isWordBody_of_isLetter (h : isLetter c) : Munch.isWordBody c :=
  isWordBody_iff.mpr (.inl h)

theorem isWordBody_of_isNumeral (h : isNumeral c) : Munch.isWordBody c :=
  isWordBody_iff.mpr (.inr (.inl h))

theorem isLetter_of_isLower (h : isLower c) : isLetter c := by
  simp [isLetter, h]

theorem isLetter_of_isUpper (h : isUpper c) : isLetter c := by
  simp [isLetter, h]

theorem isLetter_eq_false_iff : isLetter c = false ↔ isLower c = false ∧ isUpper c = false :=
  Bool.or_eq_false_iff

theorem isUpper_of_isLower (h : isLower c) : isUpper c = false :=
  of_isWordBody (P := fun c => isLower c → isUpper c = false) (by decide +kernel)
    (isWordBody_of_isLetter (isLetter_of_isLower h)) h

theorem isLetter_of_isNumeral (h : isNumeral c) : isLetter c = false :=
  of_isWordBody (P := fun c => isNumeral c → isLetter c = false) (by decide +kernel)
    (isWordBody_of_isNumeral h) h

theorem isDigit_of_isNumeral (h : isNumeral c) : Text.isDigit c := by
  rw [isDigit_eq_isNumeral (isWordBody_of_isNumeral h), h]

theorem ne_underscore_of_isLetter (h : isLetter c) : c ≠ '_' := by
  rintro rfl
  exact absurd h (by decide)

theorem ne_underscore_of_isNumeral (h : isNumeral c) : c ≠ '_' := by
  rintro rfl
  exact absurd h (by decide)

/-- What is neither a letter nor a digit is an underscore. -/
theorem eq_underscore (hc : Munch.isWordBody c) (hlower : isLower c = false)
    (hupper : isUpper c = false) (hdigit : Text.isDigit c = false) : c = '_' := by
  rcases isWordBody_iff.mp hc with hletter | hnumeral | hunderscore
  · rw [isLetter_eq_false_iff.mpr ⟨hlower, hupper⟩] at hletter
    cases hletter
  · rw [isDigit_of_isNumeral hnumeral] at hdigit
    cases hdigit
  · exact hunderscore

/-! ## Changing the case of a character -/

theorem isLower_lowerChar (c : Char) : isLower (lowerChar c) = isLetter c := by
  by_cases hc : isUpper c
  · have hletter := isLetter_of_isUpper hc
    rw [hletter]
    exact of_isWordBody (P := fun c => isUpper c → isLower (lowerChar c)) (by decide +kernel)
      (isWordBody_of_isLetter hletter) hc
  · simp [lowerChar, isLetter, hc]

theorem isUpper_upperChar (c : Char) : isUpper (upperChar c) = isLetter c := by
  by_cases hc : isLower c
  · have hletter := isLetter_of_isLower hc
    rw [hletter]
    exact of_isWordBody (P := fun c => isLower c → isUpper (upperChar c)) (by decide +kernel)
      (isWordBody_of_isLetter hletter) hc
  · simp [upperChar, isLetter, hc]

theorem lowerChar_of_isNumeral (h : isNumeral c) : lowerChar c = c := by
  simp [lowerChar, (isLetter_eq_false_iff.mp (isLetter_of_isNumeral h)).2]

theorem upperChar_of_isNumeral (h : isNumeral c) : upperChar c = c := by
  simp [upperChar, (isLetter_eq_false_iff.mp (isLetter_of_isNumeral h)).1]

theorem lowerChar_lowerChar (c : Char) : lowerChar (lowerChar c) = lowerChar c := by
  by_cases hc : isUpper c
  · exact of_isWordBody (P := fun c => lowerChar (lowerChar c) = lowerChar c) (by decide +kernel)
      (isWordBody_of_isLetter (isLetter_of_isUpper hc))
  · simp [lowerChar, hc]

theorem upperChar_upperChar (c : Char) : upperChar (upperChar c) = upperChar c := by
  by_cases hc : isLower c
  · exact of_isWordBody (P := fun c => upperChar (upperChar c) = upperChar c) (by decide +kernel)
      (isWordBody_of_isLetter (isLetter_of_isLower hc))
  · simp [upperChar, hc]

theorem lowerChar_upperChar (c : Char) : lowerChar (upperChar c) = lowerChar c := by
  by_cases hc : isLower c
  · exact of_isWordBody (P := fun c => lowerChar (upperChar c) = lowerChar c) (by decide +kernel)
      (isWordBody_of_isLetter (isLetter_of_isLower hc))
  · simp [upperChar, hc]

/-! ## Written words -/

/-- **A written word**: letters that satisfy `p`, and digits behind them. -/
structure Written (p : Char → Bool) (w : String) : Prop where
  /-- It is not empty. -/
  ne_nil : w.toList ≠ []
  /-- It is made of letters and digits. -/
  split : ∃ letters digits, w.toList = letters ++ digits ∧ (∀ c ∈ letters, p c) ∧
    ∀ c ∈ digits, isNumeral c

namespace Written

variable {p q : Char → Bool} {w : String}

theorem of_mem (h : Written p w) (hc : c ∈ w.toList) : p c ∨ isNumeral c := by
  obtain ⟨letters, digits, hw, hletters, hdigits⟩ := h.split
  rw [hw, List.mem_append] at hc
  exact hc.imp (hletters c) (hdigits c)

theorem map {f : Char → Char} (h : Written p w) (hf : ∀ c, p c → q (f c))
    (hdigit : ∀ c, isNumeral c → f c = c) : Written q (String.ofList (w.toList.map f)) := by
  obtain ⟨letters, digits, hw, hletters, hdigits⟩ := h.split
  refine ⟨by simpa using h.ne_nil, letters.map f, digits, ?_, ?_, hdigits⟩
  · have hsame : digits.map f = digits :=
      (List.map_congr_left fun c hc => hdigit c (hdigits c hc)).trans (List.map_id' _)
    rw [String.toList_ofList, hw, List.map_append, hsame]
  · rintro _ hmem
    obtain ⟨c, hc, rfl⟩ := List.mem_map.mp hmem
    exact hf c (hletters c hc)

theorem mono (h : Written p w) (hpq : ∀ c, p c → q c) : Written q w := by
  obtain ⟨letters, digits, hw, hletters, hdigits⟩ := h.split
  exact ⟨h.ne_nil, letters, digits, hw, fun c hc => hpq c (hletters c hc), hdigits⟩

/-- There are no underscores in a word. -/
theorem ne_underscore (h : Written isLetter w) (hc : c ∈ w.toList) : c ≠ '_' := by
  rcases h.of_mem hc with hc | hc
  · exact ne_underscore_of_isLetter hc
  · exact ne_underscore_of_isNumeral hc

theorem filter_eq (h : Written isLetter w) : w.toList.filter (· != '_') = w.toList :=
  List.filter_eq_self.mpr fun _ hc => bne_iff_ne.mpr (h.ne_underscore hc)

end Written

/-! ## Runs of characters -/

theorem mem_head?_append (h : c ∈ (cs ++ rest).head?) : c ∈ cs ∨ c ∈ rest.head? := by
  cases cs with
  | nil => exact .inr h
  | cons d cs => exact .inl (List.mem_of_mem_head? h)

theorem takeWhile_append_of_head? {p : Char → Bool} (hcs : ∀ c ∈ cs, p c)
    (hrest : ∀ c ∈ rest.head?, p c = false) : (cs ++ rest).takeWhile p = cs := by
  rw [List.takeWhile_append_of_pos hcs]
  cases rest with
  | nil => simp
  | cons c rest => simp [hrest c rfl]

/-- What stands in front of the first underscore is determined. -/
theorem append_underscore_inj {cs' rest' : List Char} (h : cs ++ rest = cs' ++ rest')
    (hcs : ∀ c ∈ cs, c ≠ '_') (hcs' : ∀ c ∈ cs', c ≠ '_') (hrest : ∀ c ∈ rest.head?, c = '_')
    (hrest' : ∀ c ∈ rest'.head?, c = '_') : cs = cs' := by
  have hfirst {ds more : List Char} (hds : ∀ c ∈ ds, c ≠ '_') (hmore : ∀ c ∈ more.head?, c = '_') :
      (ds ++ more).takeWhile (· != '_') = ds :=
    takeWhile_append_of_head? (fun c hc => bne_iff_ne.mpr (hds c hc)) fun c hc => by
      simp [hmore c hc]
  rw [← hfirst hcs hrest, h, hfirst hcs' hrest']

/-! ## The word at the front -/

/-- **The front of a name**: capitals, small letters and digits, of each as many as there are. -/
structure Front (U L D rest : List Char) : Prop where
  /-- There are capitals first. -/
  capitals : ∀ c ∈ U, isUpper c
  /-- Small letters follow. -/
  smalls : ∀ c ∈ L, isLower c
  /-- Digits follow. -/
  digits : ∀ c ∈ D, Text.isDigit c
  /-- There are no more capitals. -/
  capitals_end : ∀ c ∈ (L ++ (D ++ rest)).head?, isUpper c = false
  /-- There are no more small letters. -/
  smalls_end : ∀ c ∈ (D ++ rest).head?, isLower c = false
  /-- There are no more digits. -/
  digits_end : ∀ c ∈ rest.head?, Text.isDigit c = false

theorem exists_front (cs : List Char) :
    ∃ U L D rest, cs = U ++ (L ++ (D ++ rest)) ∧ Front U L D rest := by
  -- what is left behind a run does not begin as the run goes on
  have hend (p : Char → Bool) (ds : List Char) : ∀ c ∈ (ds.dropWhile p).head?, p c = false := by
    intro c hc
    have := List.head?_dropWhile_not p ds
    rw [Option.mem_def.mp hc] at this
    simpa using this
  refine ⟨cs.takeWhile isUpper, (cs.dropWhile isUpper).takeWhile isLower,
    ((cs.dropWhile isUpper).dropWhile isLower).takeWhile Text.isDigit,
    ((cs.dropWhile isUpper).dropWhile isLower).dropWhile Text.isDigit, ?_, ?_⟩
  · simp only [List.takeWhile_append_dropWhile]
  · constructor
    case capitals => exact fun c hc => List.mem_takeWhile_imp hc
    case smalls => exact fun c hc => List.mem_takeWhile_imp hc
    case digits => exact fun c hc => List.mem_takeWhile_imp hc
    case capitals_end => simpa only [List.takeWhile_append_dropWhile] using hend isUpper cs
    case smalls_end => simpa only [List.takeWhile_append_dropWhile] using hend isLower _
    case digits_end => exact hend Text.isDigit _

namespace Front

variable {U L D : List Char}

theorem wordLength (h : Front U L D rest) : wordLength (U ++ (L ++ (D ++ rest))) =
    if L.length = 0 then U.length + D.length
    else if 2 ≤ U.length then U.length - 1
    else U.length + L.length + D.length := by
  have hcapitals := takeWhile_append_of_head? h.capitals h.capitals_end
  have hsmalls := takeWhile_append_of_head? h.smalls h.smalls_end
  have hdigits : digitRun (D ++ rest) = D.length := by
    rw [digitRun, takeWhile_append_of_head? h.digits h.digits_end]
  have hdrop : (U ++ (L ++ (D ++ rest))).drop (U.length + L.length) = D ++ rest := by
    rw [← List.append_assoc, ← List.length_append, List.drop_left]
  rw [Naming.wordLength, hcapitals, List.drop_left, hsmalls, hdrop, hdigits]
  split
  case isTrue hnil => rw [List.length_eq_zero_iff.mp hnil, List.nil_append, hdigits]
  case isFalse => rfl

/-- The word at the front is a run of capitals with digits behind it, or all of the capitals but the
last, or small letters with a capital in front and digits behind them. -/
theorem take_wordLength (h : Front U L D rest) :
    (U ++ (L ++ (D ++ rest))).take (Naming.wordLength (U ++ (L ++ (D ++ rest)))) =
      if L.length = 0 then U ++ D
      else if 2 ≤ U.length then U.dropLast
      else U ++ (L ++ D) := by
  rw [h.wordLength]
  split
  case isTrue hnil =>
    rw [List.length_eq_zero_iff.mp hnil, List.nil_append, ← List.append_assoc,
      ← List.length_append, List.take_left]
  case isFalse =>
    split
    case isTrue =>
      rw [List.take_append_of_le_length (Nat.sub_le _ _), List.dropLast_eq_take]
    case isFalse =>
      rw [← List.append_assoc L, ← List.append_assoc U, Nat.add_assoc, ← List.length_append,
        ← List.length_append, List.take_left]

end Front

/-- The word at the front of the characters of a name is a written word. -/
theorem exists_take_wordLength (h : ∀ c ∈ cs, Munch.isWordBody c) :
    ∃ letters digits, cs.take (wordLength cs) = letters ++ digits ∧ (∀ c ∈ letters, isLetter c) ∧
      ∀ c ∈ digits, isNumeral c := by
  obtain ⟨U, L, D, rest, rfl, hfront⟩ := exists_front cs
  have hcapitals : ∀ c ∈ U, isLetter c := fun c hc => isLetter_of_isUpper (hfront.capitals c hc)
  have hsmalls : ∀ c ∈ L, isLetter c := fun c hc => isLetter_of_isLower (hfront.smalls c hc)
  have hdigits : ∀ c ∈ D, isNumeral c := by
    intro c hc
    rw [← isDigit_eq_isNumeral (h c (by simp [hc]))]
    exact hfront.digits c hc
  rw [hfront.take_wordLength]
  split
  case isTrue => exact ⟨U, D, rfl, hcapitals, hdigits⟩
  case isFalse =>
    split
    case isTrue =>
      exact ⟨U.dropLast, [], by simp, fun c hc => hcapitals c (List.dropLast_subset _ hc), by simp⟩
    case isFalse =>
      exact ⟨U ++ L, D, by simp, by simpa [or_imp, forall_and] using ⟨hcapitals, hsmalls⟩, hdigits⟩

/-- Only an underscore begins no word. -/
theorem eq_underscore_of_wordLength (hc : Munch.isWordBody c) (h : wordLength (c :: cs) = 0) :
    c = '_' := by
  obtain ⟨U, L, D, rest, hcs, hfront⟩ := exists_front (c :: cs)
  rw [hcs, hfront.wordLength] at h
  obtain ⟨hU, hL, hD⟩ : U = [] ∧ L = [] ∧ D = [] := by
    simp only [← List.length_eq_zero_iff]
    split at h
    · omega
    · split at h <;> omega
  subst hU hL hD
  have hhead : c ∈ rest.head? := by
    rw [show rest = c :: cs from hcs.symm]
    rfl
  exact eq_underscore hc (hfront.smalls_end c hhead) (hfront.capitals_end c hhead)
    (hfront.digits_end c hhead)

/-! ## The words of a name -/

/-- **The segments of a name**: words, and underscores around them. -/
inductive Segments : List Char → List String → Prop
  | nil : Segments [] []
  | skip {cs : List Char} {ws : List String} : Segments cs ws → Segments ('_' :: cs) ws
  | word {cs : List Char} {w : String} {ws : List String} :
    Written isLetter w → Segments cs ws → Segments (w.toList ++ cs) (w :: ws)

theorem segments_wordsFrom (n : Nat) (cs : List Char) (h : ∀ c ∈ cs, Munch.isWordBody c) :
    Segments (cs.drop n) (wordsFrom n cs) := by
  fun_induction wordsFrom n cs with
  | case1 n => simpa using Segments.nil
  | case2 c cs n ih => exact ih fun d hd => h d (List.mem_cons_of_mem _ hd)
  | case3 c cs hzero ih =>
    rw [eq_underscore_of_wordLength (h c List.mem_cons_self) hzero, List.drop_zero]
    exact .skip (ih fun d hd => h d (List.mem_cons_of_mem _ hd))
  | case4 c cs k hk ih =>
    have hword : Written isLetter (String.ofList (c :: cs.take k)) := by
      refine ⟨by simp, ?_⟩
      have := exists_take_wordLength h
      rw [hk] at this
      simpa using this
    have hcs : c :: cs = (String.ofList (c :: cs.take k)).toList ++ cs.drop k := by
      simp
    rw [List.drop_zero, hcs]
    exact .word hword (ih fun d hd => h d (List.mem_cons_of_mem _ hd))

/-- **The words of a name and underscores make up the name.** -/
theorem segments_words {n : String} (h : IsName n) : Segments n.toList (words n) :=
  segments_wordsFrom 0 n.toList h

namespace Segments

variable {ws : List String}

theorem written (h : Segments cs ws) : ∀ w ∈ ws, Written isLetter w := by
  induction h with
  | nil => simp
  | skip _ ih => exact ih
  | word hw _ ih => exact List.forall_mem_cons.mpr ⟨hw, ih⟩

theorem filter_eq (h : Segments cs ws) : cs.filter (· != '_') = ws.flatMap String.toList := by
  induction h with
  | nil => rfl
  | skip _ ih => simpa using ih
  | word hw _ ih =>
    rw [List.filter_append, hw.filter_eq, ih, List.flatMap_cons]

theorem mem_of_mem_word (h : Segments cs ws) {w : String} (hw : w ∈ ws) (hc : c ∈ w.toList) :
    c ∈ cs := by
  have hmem : c ∈ ws.flatMap String.toList := List.mem_flatMap.mpr ⟨w, hw, hc⟩
  rw [← h.filter_eq] at hmem
  exact (List.mem_filter.mp hmem).1

/-- A name that does not begin with an underscore begins with its first word. -/
theorem exists_append {w : String} (h : Segments cs (w :: ws)) (hstart : ∀ c ∈ cs.head?, c ≠ '_') :
    ∃ rest, cs = w.toList ++ rest ∧ Segments rest ws := by
  cases h with
  | skip => exact absurd rfl (hstart '_' rfl)
  | word _ hrest => exact ⟨_, rfl, hrest⟩

/-- There are no words just if there are only underscores. -/
theorem eq_nil_iff (h : Segments cs ws) : ws = [] ↔ ∀ c ∈ cs, c = '_' := by
  have hparts := h.filter_eq
  constructor
  · intro hnil
    rw [hnil, List.flatMap_nil, List.filter_eq_nil_iff] at hparts
    simpa using hparts
  · intro hall
    rw [List.filter_eq_nil_iff.mpr (by simpa using hall)] at hparts
    refine List.eq_nil_iff_forall_not_mem.mpr fun w hw => ?_
    exact (h.written w hw).ne_nil (List.flatMap_eq_nil_iff.mp hparts.symm w hw)

end Segments

/-- The name without its underscores. -/
def withoutUnderscores (n : String) : String :=
  String.ofList (n.toList.filter (· != '_'))

/-- A name without words is made of underscores. -/
theorem words_eq_nil_iff {n : String} (h : IsName n) :
    words n = [] ↔ ∀ c ∈ n.toList, c = '_' :=
  (segments_words h).eq_nil_iff

/-- The first word is taken as long as it can be. -/
theorem take_of_words {n w : String} {ws : List String} (h : words n = w :: ws)
    (hn : IsName n) (hstart : ∀ c ∈ n.toList.head?, c ≠ '_') :
    w.toList = n.toList.take (wordLength n.toList) := by
  rw [words] at h
  cases hlist : n.toList with
  | nil => simp [hlist, wordsFrom] at h
  | cons c cs =>
    rw [hlist, wordsFrom] at h
    split at h
    case h_1 hzero =>
      have hc := eq_underscore_of_wordLength (hn c (by simp [hlist])) hzero
      exact absurd hc (hstart c (by simp [hlist]))
    case h_2 k hk =>
      obtain ⟨rfl, -⟩ := List.cons.inj h
      rw [hk, String.toList_ofList, List.take_succ_cons]

/-- Behind a first word in small letters, a name without capitals goes on with an underscore. -/
theorem eq_underscore_of_words {n w : String} {ws : List String} {d : Char}
    (h : words n = w :: ws) (hn : IsName n) (hsmall : ∀ c ∈ n.toList, isUpper c = false)
    (hne : w.toList ≠ []) (hw : ∀ c ∈ w.toList, isLower c)
    (hlist : n.toList = w.toList ++ d :: cs) : d = '_' := by
  obtain ⟨c, more, hc⟩ := List.exists_cons_of_ne_nil hne
  have hstart : ∀ e ∈ n.toList.head?, e ≠ '_' := by
    intro e he
    rw [hlist, hc] at he
    obtain rfl := Option.some.inj he
    exact ne_underscore_of_isLetter (isLetter_of_isLower (hw c (by simp [hc])))
  have htake := take_of_words h hn hstart
  obtain ⟨U, L, D, rest, hfront, hmaximal⟩ := exists_front n.toList
  obtain rfl : U = [] := by
    refine List.eq_nil_iff_forall_not_mem.mpr fun e he => ?_
    have := hmaximal.capitals e he
    rw [hsmall e (by simp [hfront, he])] at this
    cases this
  have hword : w.toList = L ++ D := by
    rw [htake, hfront, hmaximal.take_wordLength]
    split
    case isTrue hnil => simp [List.length_eq_zero_iff.mp hnil]
    case isFalse => simp
  obtain rfl : D = [] := by
    refine List.eq_nil_iff_forall_not_mem.mpr fun e he => ?_
    have hletter := isLetter_of_isLower (hw e (by simp [hword, he]))
    have hdigit := hmaximal.digits e he
    rw [isDigit_eq_isNumeral (isWordBody_of_isLetter hletter)] at hdigit
    rw [isLetter_of_isNumeral hdigit] at hletter
    cases hletter
  obtain rfl : rest = d :: cs := by
    rw [hlist, hword] at hfront
    simpa using hfront.symm
  -- neither a small letter nor a digit is left out, and there are no capitals
  have hmem : d ∈ n.toList := by simp [hlist]
  exact eq_underscore (hn d hmem) (hmaximal.smalls_end d rfl) (hsmall d hmem)
    (hmaximal.digits_end d rfl)

/-- **The words of a name make up the name without its underscores.** -/
theorem join_words {n : String} (h : IsName n) : String.join (words n) = withoutUnderscores n := by
  rw [withoutUnderscores, (segments_words h).filter_eq, ← String.toList_join, String.ofList_toList]

/-! ## Divided words -/

/-- **A whole word**: nothing of it is left over, and it takes nothing from behind an underscore. -/
def IsWhole (w : String) : Prop :=
  ∀ rest : List Char, (∀ c ∈ rest.head?, c = '_') →
    wordLength (w.toList ++ rest) = w.toList.length

section Divided

variable {w : String} {ws : List String} {letters digits : List Char}

/-- Neither digits nor an underscore go on as a word in letters does. -/
theorem isLetter_of_mem_head? (hdigits : ∀ c ∈ digits, isNumeral c)
    (hrest : ∀ c ∈ rest.head?, c = '_') : ∀ c ∈ (digits ++ rest).head?, isLetter c = false := by
  intro c hc
  rcases mem_head?_append hc with hc | hc
  · exact isLetter_of_isNumeral (hdigits c hc)
  · rw [hrest c hc]
    rfl

theorem isDigit_of_mem_head? (hrest : ∀ c ∈ rest.head?, c = '_') :
    ∀ c ∈ rest.head?, Text.isDigit c = false := by
  intro c hc
  rw [hrest c hc]
  decide

theorem isWhole_of_isLower (h : Written isLower w) : IsWhole w := by
  intro rest hrest
  obtain ⟨letters, digits, hw, hletters, hdigits⟩ := h.split
  have hend := isLetter_of_mem_head? hdigits hrest
  -- its letters are the small letters at the front, with no capital before them
  have hfront : Front [] letters digits rest := by
    constructor
    case capitals => simp
    case smalls => exact hletters
    case digits => exact fun c hc => isDigit_of_isNumeral (hdigits c hc)
    case capitals_end =>
      intro c hc
      rcases mem_head?_append hc with hc | hc
      · exact isUpper_of_isLower (hletters c hc)
      · exact (isLetter_eq_false_iff.mp (hend c hc)).2
    case smalls_end => exact fun c hc => (isLetter_eq_false_iff.mp (hend c hc)).1
    case digits_end => exact isDigit_of_mem_head? hrest
  have hlength := hfront.wordLength
  rw [List.length_nil, Nat.zero_add, Nat.zero_add, if_neg (by decide : ¬2 ≤ 0)] at hlength
  rw [hw, List.append_assoc, ← List.nil_append (letters ++ _), hlength, List.length_append]
  split
  case isTrue hnil => rw [hnil, Nat.zero_add]
  case isFalse => rfl

theorem isWhole_of_isUpper (h : Written isUpper w) : IsWhole w := by
  intro rest hrest
  obtain ⟨letters, digits, hw, hletters, hdigits⟩ := h.split
  have hend := isLetter_of_mem_head? hdigits hrest
  -- its letters are the capitals at the front, and no small letter claims the last of them
  have hfront : Front letters [] digits rest := by
    constructor
    case capitals => exact hletters
    case smalls => simp
    case digits => exact fun c hc => isDigit_of_isNumeral (hdigits c hc)
    case capitals_end => exact fun c hc => (isLetter_eq_false_iff.mp (hend c hc)).2
    case smalls_end => exact fun c hc => (isLetter_eq_false_iff.mp (hend c hc)).1
    case digits_end => exact isDigit_of_mem_head? hrest
  have hlength := hfront.wordLength
  rw [List.nil_append, List.length_nil, if_pos rfl] at hlength
  rw [hw, List.append_assoc, hlength, List.length_append]

theorem wordsFrom_eq_drop (n : Nat) (cs : List Char) :
    wordsFrom n cs = wordsFrom 0 (cs.drop n) := by
  induction cs generalizing n with
  | nil => simp [wordsFrom]
  | cons c cs ih =>
    cases n with
    | zero => rfl
    | succ n => simpa [wordsFrom] using ih n

theorem wordsFrom_underscore (cs : List Char) : wordsFrom 0 ('_' :: cs) = wordsFrom 0 cs := by
  have hzero : wordLength ('_' :: cs) = 0 := by
    have hupper : isUpper '_' = false := by decide
    have hlower : isLower '_' = false := by decide
    have hdigit : Text.isDigit '_' = false := by decide
    simp [wordLength, digitRun, hupper, hlower, hdigit]
  rw [wordsFrom, hzero]

theorem wordsFrom_isWhole (h : IsWhole w) (hne : w.toList ≠ [])
    (hrest : ∀ c ∈ rest.head?, c = '_') :
    wordsFrom 0 (w.toList ++ rest) = w :: wordsFrom 0 rest := by
  obtain ⟨c, cs, hw⟩ := List.exists_cons_of_ne_nil hne
  have hlength := h rest hrest
  rw [hw, List.length_cons] at hlength
  have hof : String.ofList (c :: cs) = w := by rw [← hw, String.ofList_toList]
  rw [hw, List.cons_append, wordsFrom]
  rw [List.cons_append] at hlength
  rw [hlength]
  simp only [List.take_left, hof]
  rw [wordsFrom_eq_drop, List.drop_left]

/-- **Words that are divided by underscores are found.** -/
theorem wordsFrom_append {front : List Char} (hfront : ∀ c ∈ front, c = '_')
    (hws : ∀ v ∈ w :: ws, v.toList ≠ [] ∧ IsWhole v) :
    wordsFrom 0 (front ++ (w.toList ++ ws.flatMap fun v => '_' :: v.toList)) = w :: ws := by
  induction front with
  | cons c front ih =>
    rw [hfront c List.mem_cons_self, List.cons_append, wordsFrom_underscore]
    exact ih fun d hd => hfront d (List.mem_cons_of_mem _ hd)
  | nil =>
    rw [List.nil_append]
    induction ws generalizing w with
    | nil =>
      obtain ⟨hne, hwhole⟩ := hws w List.mem_cons_self
      rw [List.flatMap_nil, wordsFrom_isWhole hwhole hne (by simp), wordsFrom]
    | cons v ws ih =>
      obtain ⟨hne, hwhole⟩ := hws w List.mem_cons_self
      have hbehind := ih fun u hu => hws u (List.mem_cons_of_mem _ hu)
      rw [List.flatMap_cons, wordsFrom_isWhole hwhole hne (by simp), List.cons_append,
        wordsFrom_underscore, hbehind]

end Divided

end KlarAudit.Naming

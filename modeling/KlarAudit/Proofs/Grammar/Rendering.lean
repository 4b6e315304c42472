import Mathlib.Data.List.DropRight
import KlarAudit.Grammar.Run
import KlarAudit.Proofs.Grammar.Taken
import KlarAudit.Proofs.Token.Lossless
import KlarAudit.Proofs.Token.Word

/-!
# Rendered runs

A run is rendered as the texts of its tokens, with blanks that depend on what stands next to each
other. How a rendered run begins is decided by its first tokens, because the tokens of a text are
legible: each begins with a character that is no blank, and this character tells references and
words from everything else.

## Main definitions

* `Token.Legible`: what the text of a scanned token tells about it
* `Token.isSetOff`: the token is rendered with a blank between a word and itself
* `solid s`: the characters that are no blanks

## Main results

* `legible_of_mem_scan`: the tokens of a text are legible
* `solid_render`: rendering a run changes nothing but blanks
* `trimChars_append_cons`: trimming around a character that is no blank
* `head?_render`: a rendered run begins with the first character of its first token
* `exists_pieces_of_isSetOff`, `exists_pieces_of_not_isSetOff`: what is rendered behind a word
-/

namespace KlarAudit

/-! ## What tokens begin with -/

/-- **A legible token**: its first character is no blank, and tells references and words from
everything else. -/
structure Token.Legible (t : Token) : Prop where
  /-- The text begins with a character that is no blank. -/
  exists_cons : ∃ c cs, t.text.toList = c :: cs ∧ Text.isBlank c = false
  /-- Only two operators begin with the mark of a reference. -/
  ampersand : ∀ cs, t.text.toList = '&' :: cs →
    t.kind = .operator ∧ (t.text = "&" ∨ t.text = "&&")
  /-- What begins like a word is a word. -/
  word : ∀ c cs, t.text.toList = c :: cs → Munch.isWordStart c →
    t.kind.isWordlike ∧ ∀ d ∈ t.text.toList, Munch.isWordBody d
  /-- Names and keywords begin like words. -/
  name : t.kind = .identifier ∨ t.kind = .keyword →
    ∃ c cs, t.text.toList = c :: cs ∧ Munch.isWordStart c

namespace Munch

theorem isPlain_of_isWordStart {c : Char} (h : isWordStart c) : isPlain c := by
  have hrange : 65 ≤ c.toNat ∧ c.toNat ≤ 122 := by
    simp only [isWordStart, Bool.or_eq_true, Bool.and_eq_true, decide_eq_true_eq, beq_iff_eq,
      Char.le_def, UInt32.le_iff_toNat_le] at h
    rcases h with (h | h) | rfl
    · change 97 ≤ c.toNat ∧ c.toNat ≤ 122 at h
      omega
    · change 65 ≤ c.toNat ∧ c.toNat ≤ 90 at h
      omega
    · decide
  have hdigit : Text.isDigit c = false := by
    have hzeros : ∀ z ∈ Text.zeros, z + 10 ≤ 65 ∨ 122 < z := by decide
    have hnone : Text.zeroOf? c.toNat = none := by
      refine List.find?_eq_none.mpr fun z hz => ?_
      have hz := hzeros z hz
      simp only [Bool.and_eq_true, decide_eq_true_eq]
      omega
    rw [Text.isDigit, Text.digitValue?, hnone]
    rfl
  have hne (d : Char) (hd : d.toNat < 65) : c ≠ d := by
    rintro rfl
    omega
  simp [isPlain, hdigit, hne '/' (by decide), hne '"' (by decide), hne '\'' (by decide)]

theorem munch_of_isWordStart {c : Char} (h : isWordStart c) (cs : List Char) :
    munch c cs = (wordKind (String.ofList (c :: cs.take (runLength isWordBody cs))),
      runLength isWordBody cs) := by
  have hplain := isPlain_of_isWordStart h
  simp only [isPlain, Bool.and_eq_true, bne_iff_ne, ne_eq, Bool.not_eq_true'] at hplain
  obtain ⟨⟨⟨hslash, hquote⟩, hprime⟩, hdigit⟩ := hplain
  simp [munch, hslash, hquote, hprime, hdigit, h]

theorem isWordlike_wordKind (word : String) : (wordKind word).isWordlike := by
  unfold wordKind
  split
  · rfl
  · split <;> rfl

theorem munch_ampersand (cs : List Char) : munch '&' cs =
    match operatorLength? '&' cs with
    | some n => (.operator, n)
    | none => (.unknown, 0) := by
  have hdigit : Text.isDigit '&' = false := by decide
  have hword : isWordStart '&' = false := by decide
  simp only [munch, hdigit, hword]
  rfl

theorem text_of_ampersand (cs : List Char) : (munch '&' cs).1 = .operator ∧
    (String.ofList ('&' :: cs.take (munch '&' cs).2) = "&" ∨
      String.ofList ('&' :: cs.take (munch '&' cs).2) = "&&") := by
  rw [munch_ampersand, operatorLength?]
  cases hfind : longOperators.find? fun op => op.toList.isPrefixOf ('&' :: cs) with
  | none => exact ⟨rfl, .inl rfl⟩
  | some op =>
    have hmem := List.mem_of_find?_eq_some hfind
    have hprefix : op.toList.isPrefixOf ('&' :: cs) := by simpa using List.find?_some hfind
    -- only one of the long operators begins so
    have hop : op = "&&" := by
      have hlong : ∀ op ∈ longOperators, op.toList.head? = some '&' → op = "&&" := by
        decide +kernel
      obtain ⟨more, hmore⟩ := List.isPrefixOf_iff_prefix.mp hprefix
      refine hlong op hmem ?_
      cases hop : op.toList with
      | nil =>
        rw [String.toList_eq_nil_iff.mp hop] at hmem
        exact absurd hmem (by decide +kernel)
      | cons c more' =>
        rw [hop, List.cons_append] at hmore
        rw [(List.cons.inj hmore).1, List.head?_cons]
    subst hop
    obtain ⟨more, hmore⟩ := List.isPrefixOf_iff_prefix.mp hprefix
    cases hmore
    exact ⟨rfl, .inr rfl⟩

/-- Names and keywords come from words only. -/
theorem isWordStart_of_munch {c : Char} {cs : List Char}
    (h : (munch c cs).1 = .identifier ∨ (munch c cs).1 = .keyword) : isWordStart c := by
  have hcomment {kind : TokenKind} (hk : kind.isComment)
      (h : kind = .identifier ∨ kind = .keyword) : isWordStart c := by
    rcases h with rfl | rfl <;> cases hk
  unfold munch at h
  split at h
  · exact hcomment (isComment_commentKind _ _ _) h
  · split at h
    · exact hcomment (isComment_commentKind _ _ _) h
    · split at h
      · split at h <;> rcases h with h | h <;> cases h
      · split at h
        · split at h <;> rcases h with h | h <;> cases h
        · split at h
          · rcases h with h | h <;> cases h
          · split at h
            · assumption
            · split at h <;> rcases h with h | h <;> cases h

theorem isWordBody_of_mem_word {c d : Char} {cs : List Char} (hc : isWordStart c)
    (hd : d ∈ c :: cs.take (runLength isWordBody cs)) : isWordBody d := by
  rcases List.mem_cons.mp hd with rfl | hd
  · rw [isWordBody, hc]
    rfl
  · rw [runLength, ← List.prefix_iff_eq_take.mp (List.takeWhile_prefix isWordBody)] at hd
    exact List.all_eq_true.mp List.all_takeWhile _ hd

end Munch

/-- **The tokens of a text are legible.** -/
theorem legible_of_mem_scan {s : String} {t : Token} (h : t ∈ scan s) : t.Legible := by
  obtain ⟨before, c, after, -, -, hblank, rfl⟩ := exists_split_of_mem_scanFrom h
  constructor
  case exists_cons => exact ⟨c, _, String.toList_ofList, hblank⟩
  case ampersand =>
    intro cs hcs
    rw [String.toList_ofList] at hcs
    obtain ⟨rfl, -⟩ := List.cons.inj hcs
    exact Munch.text_of_ampersand after
  case word =>
    intro d cs hcs hd
    rw [String.toList_ofList] at hcs
    obtain ⟨rfl, -⟩ := List.cons.inj hcs
    rw [Munch.munch_of_isWordStart hd]
    refine ⟨Munch.isWordlike_wordKind _, fun d hmem => ?_⟩
    rw [String.toList_ofList] at hmem
    exact Munch.isWordBody_of_mem_word hd hmem
  case name => exact fun h => ⟨c, _, String.toList_ofList, Munch.isWordStart_of_munch h⟩

/-- What begins like a word has the category of its text. -/
theorem kind_eq_wordKind {s : String} {t : Token} (h : t ∈ scan s) {c : Char} {cs : List Char}
    (ht : t.text.toList = c :: cs) (hc : Munch.isWordStart c) :
    t.kind = Munch.wordKind t.text := by
  obtain ⟨before, d, after, -, -, -, rfl⟩ := exists_split_of_mem_scanFrom h
  rw [String.toList_ofList] at ht
  obtain ⟨rfl, -⟩ := List.cons.inj ht
  rw [Munch.munch_of_isWordStart hc]

/-! ## Trimming -/

namespace Text

variable {c : Char} {cs pre more : List Char}

theorem trimChars_eq (cs : List Char) : trimChars cs = (dropBlanks cs).rdropWhile isBlank :=
  rfl

theorem dropBlanks_append_cons (hc : isBlank c = false) (pre more : List Char) :
    dropBlanks (pre ++ c :: more) = dropBlanks pre ++ c :: more := by
  induction pre with
  | nil => simp [dropBlanks, hc]
  | cons d pre ih =>
    cases hd : isBlank d with
    | true => simpa [dropBlanks, hd] using ih
    | false => simp [dropBlanks, hd]

theorem rdropBlanks_append_cons (hc : isBlank c = false) (pre more : List Char) :
    (pre ++ c :: more).rdropWhile isBlank = pre ++ c :: more.rdropWhile isBlank := by
  have hdrop := dropBlanks_append_cons hc more.reverse pre.reverse
  rw [dropBlanks, dropBlanks] at hdrop
  rw [List.rdropWhile, List.reverse_append, List.reverse_cons, List.append_assoc,
    List.singleton_append, hdrop, List.rdropWhile]
  simp

/-- **Trimming around a character that is no blank.** -/
theorem trimChars_append_cons (hc : isBlank c = false) (pre more : List Char) :
    trimChars (pre ++ c :: more) = dropBlanks pre ++ c :: more.rdropWhile isBlank := by
  rw [trimChars_eq, dropBlanks_append_cons hc, rdropBlanks_append_cons hc]

end Text

/-! ## What is rendered

Rendering only adds and drops blanks, so the other characters of a run are those of its tokens, and
their number tells it from its proper fronts. -/

/-- The characters that are no blanks. -/
def solid (s : String) : List Char :=
  s.toList.filter (!Text.isBlank ·)

theorem solid_append (s t : String) : solid (s ++ t) = solid s ++ solid t := by
  rw [solid, String.toList_append, List.filter_append, solid, solid]

theorem filter_dropBlanks (cs : List Char) :
    (Text.dropBlanks cs).filter (!Text.isBlank ·) = cs.filter (!Text.isBlank ·) := by
  induction cs with
  | nil => rfl
  | cons c cs ih =>
    cases hc : Text.isBlank c with
    | true =>
      rw [Text.dropBlanks, List.dropWhile_cons_of_pos hc, List.filter_cons_of_neg (by simp [hc])]
      exact ih
    | false => rw [Text.dropBlanks, List.dropWhile_cons_of_neg (by simp [hc])]

theorem solid_trim (s : String) : solid (Text.trim s) = solid s := by
  rw [solid, Text.trim, String.toList_ofList, Text.trimChars, List.filter_reverse,
    filter_dropBlanks, List.filter_reverse, filter_dropBlanks, List.reverse_reverse, solid]

theorem solid_piece (before : Option Token) (t : Token) :
    solid (Run.piece before t) = solid t.text := by
  have hblank : solid " " = [] := by decide
  unfold Run.piece
  split
  · rename_i h
    rw [Token.text_of_is h]
    decide
  · split
    · rw [solid_append, solid_append, hblank, List.nil_append, List.append_nil]
    · split
      · rename_i h
        rw [Token.text_of_is h]
        decide
      · split
        · rw [solid_append, hblank, List.nil_append]
        · rfl

theorem solid_pieces (before : Option Token) (ts : List Token) :
    solid (Run.pieces before ts) = ts.flatMap (solid ·.text) := by
  induction ts generalizing before with
  | nil => rfl
  | cons t ts ih => rw [Run.pieces, solid_append, solid_piece, ih, List.flatMap_cons]

/-- **Rendering a run** changes nothing but blanks. -/
theorem solid_render (ts : List Token) : solid (Run.render ts) = ts.flatMap (solid ·.text) := by
  rw [Run.render, solid_trim, solid_pieces]

/-- A piece has no characters but those of its token and blanks. -/
theorem mem_of_mem_piece {before : Option Token} {t : Token} {c : Char}
    (h : c ∈ (Run.piece before t).toList) (hc : c ≠ ' ') : c ∈ t.text.toList := by
  unfold Run.piece at h
  split at h
  · rename_i his
    rw [Token.text_of_is his]
    simpa [hc] using h
  · split at h
    · simpa [hc] using h
    · split at h
      · rename_i his
        rw [Token.text_of_is his]
        simpa [hc] using h
      · split at h
        · simpa [hc] using h
        · exact h

theorem mem_of_mem_pieces {before : Option Token} {ts : List Token} {c : Char}
    (h : c ∈ (Run.pieces before ts).toList) (hc : c ≠ ' ') : ∃ t ∈ ts, c ∈ t.text.toList := by
  induction ts generalizing before with
  | nil => cases h
  | cons t ts ih =>
    rw [Run.pieces, String.toList_append] at h
    rcases List.mem_append.mp h with h | h
    · exact ⟨t, List.mem_cons_self, mem_of_mem_piece h hc⟩
    · obtain ⟨u, hu, hmem⟩ := ih h
      exact ⟨u, List.mem_cons_of_mem _ hu, hmem⟩

/-- A run is not rendered as a proper front of it. -/
theorem render_append_ne (ts us : List Token) {t : Token} (ht : solid t.text ≠ []) :
    Run.render (ts ++ t :: us) ≠ Run.render ts := by
  intro h
  have hsolid := congrArg solid h
  rw [solid_render, solid_render, List.flatMap_append, List.flatMap_cons] at hsolid
  exact ht (List.append_eq_nil_iff.mp (List.append_right_eq_self.mp hsolid)).1

/-! ## How a piece begins -/

/-- **The token is set off** from a word before it: a blank stands between the two. -/
def Token.isSetOff (t : Token) : Bool :=
  t.kind.isWordlike || (t.kind == .operator && ["+", "=", "->", "=>"].contains t.text)

section Pieces

variable {t w : Token} {before : Option Token}

/-- The string begins as a word does. -/
def startsWord (s : String) : Bool :=
  s.toList.head?.any Munch.isWordStart

theorem startsWord_eq {s : String} {c : Char} {cs : List Char} (h : s.toList = c :: cs) :
    startsWord s = Munch.isWordStart c := by
  rw [startsWord, h]
  rfl

theorem Token.Legible.text_ne_of_isWordlike (ht : t.Legible) (h : t.kind.isWordlike) {s : String}
    (hs : startsWord s = false) : t.is s = false := by
  refine Bool.eq_false_iff.mpr fun his => ?_
  simp only [Token.is, Bool.and_eq_true, beq_iff_eq] at his
  have hkeyword : t.kind = .keyword := by
    cases hk : t.kind <;> rw [hk] at his h <;> simp_all [TokenKind.isStructural, TokenKind.isWordlike]
  obtain ⟨c, cs, htext, hc⟩ := ht.name (.inr hkeyword)
  rw [his.1] at htext
  rw [← startsWord_eq htext, hs] at hc
  cases hc

/-- A word is rendered as it is, behind a blank if a word stands before it. -/
theorem piece_of_isWordlike (ht : t.Legible) (h : t.kind.isWordlike) (before : Option Token) :
    Run.piece before t = if before.any (·.kind.isWordlike) then " " ++ t.text else t.text := by
  have hcomma := ht.text_ne_of_isWordlike h (s := ",") (by decide)
  have hcolon := ht.text_ne_of_isWordlike h (s := ":") (by decide)
  have hkind : (t.kind == .operator) = false := by
    cases hk : t.kind <;> rw [hk] at h <;> simp_all [TokenKind.isWordlike]
  simp [Run.piece, hcomma, hcolon, hkind, h]

/-- What is no word does not depend on what stands before it. -/
theorem piece_of_not_isWordlike (h : t.kind.isWordlike = false) (before : Option Token) :
    Run.piece before t = Run.piece none t := by
  simp [Run.piece, h]

/-- Nothing depends on what is no word before it. -/
theorem piece_some_of_not_isWordlike (h : w.kind.isWordlike = false) (t : Token) :
    Run.piece (some w) t = Run.piece none t := by
  simp [Run.piece, h]

/-- **A piece begins** with the first character of its token, behind a blank or nothing. -/
theorem exists_piece (ht : t.Legible) (before : Option Token) : ∃ lead c cs more,
    (Run.piece before t).toList = lead ++ c :: more ∧ (lead = [] ∨ lead = [' ']) ∧
      t.text.toList = c :: cs ∧ Text.isBlank c = false := by
  obtain ⟨c, cs, htext, hc⟩ := ht.exists_cons
  unfold Run.piece
  split
  · rename_i his
    rw [Token.text_of_is his] at htext
    obtain ⟨rfl, rfl⟩ := List.cons.inj (show ',' :: [] = c :: cs from htext)
    exact ⟨[], ',', [], [' '], rfl, .inl rfl, by rw [Token.text_of_is his]; rfl, hc⟩
  · split
    · exact ⟨[' '], c, cs, cs ++ [' '], by simp [htext], .inr rfl, htext, hc⟩
    · split
      · rename_i his
        rw [Token.text_of_is his] at htext
        obtain ⟨rfl, rfl⟩ := List.cons.inj (show ':' :: [] = c :: cs from htext)
        exact ⟨[], ':', [], [' '], rfl, .inl rfl, by rw [Token.text_of_is his]; rfl, hc⟩
      · split
        · exact ⟨[' '], c, cs, cs, by simp [htext], .inr rfl, htext, hc⟩
        · exact ⟨[], c, cs, cs, htext, .inl rfl, htext, hc⟩

/-- What stands behind no word is rendered as if nothing stood before it. -/
theorem pieces_some_of_not_isWordlike (h : w.kind.isWordlike = false) (ts : List Token) :
    Run.pieces (some w) ts = Run.pieces none ts := by
  cases ts with
  | nil => rfl
  | cons t ts => rw [Run.pieces, Run.pieces, piece_some_of_not_isWordlike h]

/-- A run begins as its first piece does. -/
theorem exists_pieces (ht : t.Legible) (before : Option Token) (ts : List Token) :
    ∃ lead c cs more, (Run.pieces before (t :: ts)).toList = lead ++ c :: more ∧
      (lead = [] ∨ lead = [' ']) ∧ t.text.toList = c :: cs ∧ Text.isBlank c = false := by
  obtain ⟨lead, c, cs, more, hpiece, hlead, htext, hc⟩ := exists_piece ht before
  refine ⟨lead, c, cs, more ++ (Run.pieces (some t) ts).toList, ?_, hlead, htext, hc⟩
  rw [Run.pieces, String.toList_append, hpiece, List.append_assoc, List.cons_append]

theorem toList_render (ts : List Token) :
    (Run.render ts).toList = Text.trimChars (Run.pieces none ts).toList :=
  String.toList_ofList

/-- **A rendered run begins** with the first character of its first token. -/
theorem head?_render (ht : t.Legible) (ts : List Token) :
    (Run.render (t :: ts)).toList.head? = t.text.toList.head? := by
  obtain ⟨lead, c, cs, more, hpieces, hlead, htext, hc⟩ := exists_pieces ht none ts
  have hblank : Text.dropBlanks lead = [] := by rcases hlead with rfl | rfl <;> decide
  rw [toList_render, hpieces, Text.trimChars_append_cons hc, hblank, htext]
  rfl

/-- What stands behind a word does not go on with it. -/
theorem isWordStart_head?_pieces {ts : List Token} (hw : w.kind.isWordlike)
    (hts : ∀ t ∈ ts, t.Legible) :
    ∀ c ∈ (Run.pieces (some w) ts).toList.head?, Munch.isWordStart c = false := by
  cases ts with
  | nil => intro c hc; cases hc
  | cons t ts =>
    have ht := hts t List.mem_cons_self
    obtain ⟨lead, c, cs, more, hpiece, hlead, htext, -⟩ := exists_piece ht (some w)
    intro d hd
    rw [Run.pieces, String.toList_append, hpiece] at hd
    rcases hlead with rfl | rfl
    · obtain rfl : c = d := Option.some.inj hd
      -- a word would stand behind a blank
      refine Bool.eq_false_iff.mpr fun hc => ?_
      have hword := (ht.word c cs htext hc).1
      rw [piece_of_isWordlike ht hword, if_pos (by simpa using hw), String.toList_append] at hpiece
      obtain ⟨rfl, -⟩ := List.cons.inj (show ' ' :: _ = c :: more from hpiece)
      exact absurd hc (by decide)
    · obtain rfl : ' ' = d := Option.some.inj hd
      decide

/-- **What is set off from a word** is rendered behind a blank, and otherwise as it is without the
word. -/
theorem exists_pieces_of_isSetOff (ht : t.Legible) (hw : w.kind.isWordlike) (hs : t.isSetOff)
    (ts : List Token) : ∃ c more, (Run.pieces (some w) (t :: ts)).toList = ' ' :: c :: more ∧
      Text.isBlank c = false ∧ (Run.render (t :: ts)).toList = Text.trimChars (c :: more) := by
  have hblank : Text.dropBlanks [' '] = [] := by decide
  -- a word brings one blank, in front; a spaced operator brings its own on both sides
  cases hk : t.kind.isWordlike with
  | true =>
    obtain ⟨c, cs, htext, hc⟩ := ht.exists_cons
    have hpiece := piece_of_isWordlike ht hk
    refine ⟨c, cs ++ (Run.pieces (some t) ts).toList, ?_, hc, ?_⟩
    · rw [Run.pieces, hpiece, if_pos (by simpa using hw), String.toList_append,
        String.toList_append, htext]
      rfl
    · rw [toList_render, Run.pieces, hpiece, if_neg (by simp), String.toList_append, htext,
        List.cons_append]
  | false =>
    have hoperator : (t.kind == .operator && ["+", "=", "->", "=>"].contains t.text) := by
      rwa [Token.isSetOff, hk, Bool.false_or] at hs
    have hpiece (before : Option Token) : Run.piece before t = " " ++ t.text ++ " " := by
      have hcomma : t.is "," = false := by
        refine Bool.eq_false_iff.mpr fun h => ?_
        rw [Token.text_of_is h] at hoperator
        simp at hoperator
      rw [Run.piece, hcomma, if_neg (by decide), if_pos hoperator]
    obtain ⟨c, cs, htext, hc⟩ := ht.exists_cons
    have hpieces (before : Option Token) : (Run.pieces before (t :: ts)).toList =
        [' '] ++ c :: (cs ++ ' ' :: (Run.pieces (some t) ts).toList) := by
      rw [Run.pieces, hpiece]
      simp [htext]
    refine ⟨c, _, hpieces (some w), hc, ?_⟩
    rw [toList_render, hpieces, Text.trimChars_append_cons hc, hblank,
      ← List.nil_append (c :: (cs ++ _)), Text.trimChars_append_cons hc]
    rfl

/-- **What is not set off** from a word is rendered as it is without the word. -/
theorem exists_pieces_of_not_isSetOff (ht : t.Legible) (hs : t.isSetOff = false)
    (ts : List Token) : Run.pieces (some w) (t :: ts) = Run.pieces none (t :: ts) ∧
      ∃ c more, (Run.pieces none (t :: ts)).toList = c :: more ∧ Text.isBlank c = false := by
  simp only [Token.isSetOff, Bool.or_eq_false_iff] at hs
  have hpiece := piece_of_not_isWordlike hs.1
  refine ⟨by rw [Run.pieces, Run.pieces, hpiece], ?_⟩
  obtain ⟨c, cs, htext, hc⟩ := ht.exists_cons
  have hnone : ∃ more, (Run.piece none t).toList = c :: more := by
    unfold Run.piece
    split
    · rename_i his
      rw [Token.text_of_is his] at htext
      obtain ⟨rfl, -⟩ := List.cons.inj (show ',' :: [] = c :: cs from htext)
      exact ⟨_, rfl⟩
    · rw [if_neg (by rw [hs.2]; decide)]
      split
      · rename_i his
        rw [Token.text_of_is his] at htext
        obtain ⟨rfl, -⟩ := List.cons.inj (show ':' :: [] = c :: cs from htext)
        exact ⟨_, rfl⟩
      · exact ⟨cs, by simpa using htext⟩
  obtain ⟨more, hmore⟩ := hnone
  exact ⟨c, more ++ (Run.pieces (some t) ts).toList,
    by rw [Run.pieces, String.toList_append, hmore, List.cons_append], hc⟩

end Pieces

end KlarAudit

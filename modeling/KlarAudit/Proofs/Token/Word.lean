import KlarAudit.Proofs.Token.Munch
import KlarAudit.Proofs.Token.Scanned

/-!
# Words and how they are laid out

A word is a token that has no place yet. It is known by its category and its text, and scanning
gives it back wherever a blank stands behind it: it neither takes anything from what follows nor
leaves anything of itself. So words that are written down with blanks between them are the tokens of
what is written, and no two of these tokens touch.

## Main definitions

* `Munch.Scans kind text`: the text is one token of the category in front of a blank
* `Word`: a token without a place
* `Mark`: the fixed words of the grammar
* `Word.print lines`: words written down line by line

## Main results

* `scans_of_isAlone`: words and operators are tokens in front of a blank
* `written_scanFrom_spaced`, `apart_scanFrom_spaced`: what is written down has the words for its
  tokens, and no two of them touch
-/

namespace KlarAudit

namespace Munch

variable {c b : Char} {cs ds : List Char}

/-! ## Blanks end words and operators -/

theorem isWordBody_of_isBlank (h : Text.isBlank b) : isWordBody b = false := by
  rw [Bool.eq_false_iff]
  intro hb
  simp only [isWordBody, isWordStart, Bool.or_eq_true, Bool.and_eq_true, decide_eq_true_eq,
    beq_iff_eq, Char.le_def, UInt32.le_iff_toNat_le] at hb
  simp only [Text.isBlank, Bool.or_eq_true, Bool.and_eq_true, decide_eq_true_eq, beq_iff_eq,
    Char.toNat] at h
  rcases hb with ((hb | hb) | rfl) | hb
  · change 97 ≤ b.val.toNat ∧ b.val.toNat ≤ 122 at hb
    omega
  · change 65 ≤ b.val.toNat ∧ b.val.toNat ≤ 90 at hb
    omega
  · revert h
    decide
  · change 48 ≤ b.val.toNat ∧ b.val.toNat ≤ 57 at hb
    omega

theorem notMem_operator_of_isBlank (h : Text.isBlank b) : ∀ op ∈ longOperators, b ∉ op.toList := by
  intro op hop hb
  have hnone : (longOperators.all fun op => !op.toList.any Text.isBlank) = true := by decide +kernel
  have hop := List.all_eq_true.mp hnone op hop
  rw [List.any_eq_true.mpr ⟨b, hb, h⟩] at hop
  cases hop

/-- The token that starts with `c` is no comment and no literal but a word. -/
def isPlain (c : Char) : Bool :=
  c != '/' && c != '"' && c != '\'' && !Text.isDigit c

/-- A blank behind a word or an operator ends it. -/
theorem munch_append_blank (hc : isPlain c) (hb : Text.isBlank b) (cs ds : List Char) :
    munch c (cs ++ b :: ds) = munch c cs := by
  simp only [isPlain, Bool.and_eq_true, bne_iff_ne, ne_eq, Bool.not_eq_true'] at hc
  obtain ⟨⟨⟨hslash, hquote⟩, hprime⟩, hdigit⟩ := hc
  have hword : runLength isWordBody (cs ++ b :: ds) = runLength isWordBody cs :=
    runLength_append (isWordBody_of_isBlank hb)
  have hoperator : operatorLength? c (cs ++ b :: ds) = operatorLength? c cs :=
    operatorLength?_append (notMem_operator_of_isBlank hb)
  simp [munch, hslash, hquote, hprime, hdigit, hword, hoperator,
    List.take_append_of_le_length (runLength_le isWordBody cs)]

/-- **The text scans as one token** of the category, whatever stands behind the blank after it. -/
def Scans (kind : TokenKind) (text : String) : Prop :=
  ∃ c cs, text.toList = c :: cs ∧ Text.isBlank c = false ∧
    ∀ b ds, Text.isBlank b → munch c (cs ++ b :: ds) = (kind, cs.length)

/-- The text is a word or an operator of the category. -/
def isAlone (kind : TokenKind) (text : String) : Bool :=
  match text.toList with
  | [] => false
  | c :: cs => !Text.isBlank c && isPlain c && munch c cs == (kind, cs.length)

theorem scans_of_isAlone {kind : TokenKind} {text : String} (h : isAlone kind text) :
    Scans kind text := by
  unfold isAlone at h
  split at h
  · cases h
  · rename_i c cs htext
    simp only [Bool.and_eq_true, Bool.not_eq_true', beq_iff_eq] at h
    refine ⟨c, cs, htext, h.1.1, fun b ds hb => ?_⟩
    rw [munch_append_blank h.1.2 hb, h.2]

end Munch

/-! ## Words -/

/-- **A word**: a token that has no place yet, and no comment. -/
structure Word where
  /-- The category. -/
  kind : TokenKind
  /-- The characters. -/
  text : String
  /-- It is no comment. -/
  isComment_eq : kind.isComment = false
  /-- The characters are one token of the category. -/
  scans : Munch.Scans kind text

/-- The text of a word decides its category. -/
theorem Word.kind_eq_of_text {v w : Word} (h : v.text = w.text) : v.kind = w.kind := by
  obtain ⟨c, cs, hv, -, hmunch⟩ := v.scans
  obtain ⟨d, ds, hw, -, hsame⟩ := w.scans
  rw [h, hw] at hv
  obtain ⟨rfl, rfl⟩ := List.cons.inj hv
  have hblank : Text.isBlank ' ' := by decide
  exact congrArg Prod.fst ((hmunch ' ' [] hblank).symm.trans (hsame ' ' [] hblank))

/-- The word as a token, at the start of a text. -/
def Word.token (w : Word) : Token :=
  ⟨w.kind, w.text, .start⟩

/-- **The fixed words of the grammar**: its keywords and its punctuation. -/
inductive Mark where
  | kwPub | kwUnsafe | kwFn | kwStruct | kwEnum | kwConst | kwStatic | kwMod | kwTrait | kwImpl
  | kwFor | kwSelf | kwMut | amp | arrow | comma | colon | semicolon | equals
  | openParen | closeParen | openBracket | closeBracket | openBrace | closeBrace
  | openAngle | closeAngle
deriving DecidableEq, Repr

namespace Mark

/-- How a fixed word is written. -/
def text : Mark → String
  | kwPub => "pub"
  | kwUnsafe => "unsafe"
  | kwFn => "fn"
  | kwStruct => "struct"
  | kwEnum => "enum"
  | kwConst => "const"
  | kwStatic => "static"
  | kwMod => "mod"
  | kwTrait => "trait"
  | kwImpl => "impl"
  | kwFor => "for"
  | kwSelf => "self"
  | kwMut => "mut"
  | amp => "&"
  | arrow => "->"
  | comma => ","
  | colon => ":"
  | semicolon => ";"
  | equals => "="
  | openParen => "("
  | closeParen => ")"
  | openBracket => "["
  | closeBracket => "]"
  | openBrace => "\x7b"
  | closeBrace => "\x7d"
  | openAngle => "<"
  | closeAngle => ">"

/-- The category of a fixed word. -/
def kind : Mark → TokenKind
  | kwPub | kwUnsafe | kwFn | kwStruct | kwEnum | kwConst | kwStatic | kwMod | kwTrait | kwImpl
  | kwFor | kwSelf | kwMut => .keyword
  | _ => .operator

theorem scans (m : Mark) : Munch.Scans m.kind m.text := by
  cases m <;> exact Munch.scans_of_isAlone (by decide +kernel)

/-- The mark as a word. -/
def word (m : Mark) : Word :=
  ⟨m.kind, m.text, by cases m <;> rfl, m.scans⟩

end Mark

/-! ## Words written down -/

namespace Word

/-- The words of a line, each with the blank behind it. -/
def line : List Word → List (Word × Char)
  | [] => []
  | [w] => [(w, '\n')]
  | w :: v :: ws => (w, ' ') :: line (v :: ws)

/-- The characters of the words, each with the blank behind it. -/
def spaced (ws : List (Word × Char)) : List Char :=
  ws.flatMap fun (w, b) => w.text.toList ++ [b]

/-- **Words written down** line by line, with a blank between two words. -/
def print (lines : List (List Word)) : String :=
  String.ofList (spaced (lines.flatMap line))

theorem map_fst_line (ws : List Word) : (line ws).map (·.1) = ws := by
  fun_induction line ws with
  | case1 => rfl
  | case2 w => rfl
  | case3 w v ws ih => rw [List.map_cons, ih]

theorem isBlank_of_mem_line {ws : List Word} : ∀ x ∈ line ws, Text.isBlank x.2 := by
  fun_induction line ws with
  | case1 => nofun
  | case2 w => simp; decide
  | case3 w v ws ih =>
    have hblank : Text.isBlank ' ' := by decide
    exact List.forall_mem_cons.mpr ⟨hblank, ih⟩

theorem scanFrom_skip (p : Position) (cs ds : List Char) :
    scanFrom p cs.length (cs ++ ds) = scanFrom (p.advanceAll cs) 0 ds := by
  induction cs generalizing p with
  | nil => rfl
  | cons c cs ih => exact ih (p.advance c)

/-- A word in front of a blank is the next token. -/
theorem scanFrom_word (p : Position) (w : Word) {b : Char} (hb : Text.isBlank b) (cs : List Char) :
    scanFrom p 0 (w.text.toList ++ b :: cs) =
      ⟨w.kind, w.text, p⟩ :: scanFrom ((p.advanceAll w.text.toList).advance b) 0 cs := by
  obtain ⟨c, ds, htext, hblank, hmunch⟩ := w.scans
  have htake : String.ofList (c :: (ds ++ b :: cs).take ds.length) = w.text := by
    rw [List.take_left, ← htext, String.ofList_toList]
  rw [htext, List.cons_append, scanFrom, if_neg (by simp [hblank]), hmunch b cs hb]
  dsimp only
  rw [htake, scanFrom_skip, scanFrom, if_pos hb]
  rfl

variable {p : Position} {ws : List (Word × Char)} (hb : ∀ x ∈ ws, Text.isBlank x.2)

include hb

/-- **The tokens of what is written down** are the words. -/
theorem written_scanFrom_spaced : (scanFrom p 0 (spaced ws)).map Token.written =
    ws.map fun x => x.1.token.written := by
  induction ws generalizing p with
  | nil => rfl
  | cons x ws ih =>
    obtain ⟨hx, hws⟩ := List.forall_mem_cons.mp hb
    rw [spaced, List.flatMap_cons, List.append_assoc, List.singleton_append, scanFrom_word p x.1 hx,
      List.map_cons, ← spaced, ih hws]
    rfl

/-- **The tokens of what is written down** do not touch. -/
theorem apart_scanFrom_spaced :
    (scanFrom p 0 (spaced ws)).Pairwise fun a b => a.stop < b.start := by
  induction ws generalizing p with
  | nil => exact List.Pairwise.nil
  | cons x ws ih =>
    obtain ⟨hx, hws⟩ := List.forall_mem_cons.mp hb
    rw [spaced, List.flatMap_cons, List.append_assoc, List.singleton_append, scanFrom_word p x.1 hx,
      ← spaced]
    refine List.Pairwise.cons (fun t ht => ?_) (ih hws)
    -- the blank keeps what follows off the word
    obtain ⟨c, ds, q, rfl, hq⟩ := exists_munch_of_mem_scanFrom ht
    simp only [Position.offset_advance, Position.offset_advanceAll, String.length_toList] at hq
    simp only [Token.stop, Token.start]
    omega

end Word

end KlarAudit

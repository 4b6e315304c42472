import Mathlib.Algebra.Ring.Int.Defs
import KlarAudit.Proofs.Grammar.Phrase
import KlarAudit.Proofs.Grammar.Rendering

/-!
# Types

A type is spelled with names, marks and brackets. Its brackets are closed behind it, and every comma
in it stands in some of them. By its characters this is so except for arrows: the last character of
an arrow is that of a closing bracket.

## Main definitions

* `SpellsType form ts`: the tokens spell a type, or types in a list
* `Run.nesting ts`, `Run.arrows ts`: the open brackets behind a run, and its arrows
* `Text.level cs`, `Run.level ts`: the depth in brackets by characters
* `Run.AtCommas P ts`: `P` holds of what stands before each comma
* `Token.Clear`: what the characters of the token do to the depth

## Main results

* `SpellsType.enclosed`: the commas of a type stand in brackets, and these are closed
* `SpellsType.clear`, `Run.level_eq`: by characters, each arrow takes one from the depth
-/

namespace KlarAudit

/-! ## Depth, by characters -/

namespace Text

/-- How much deeper in brackets it is behind the character than before it. -/
def rise (c : Char) : Int :=
  if c = '[' || c = '<' || c = '(' then 1
  else if c = ']' || c = '>' || c = ')' then -1
  else 0

/-- How deep in brackets it is behind the characters, if any bracket closes any other. -/
def level (cs : List Char) : Int :=
  (cs.map rise).sum

@[simp] theorem level_nil : level [] = 0 := rfl

@[simp] theorem level_cons (c : Char) (cs : List Char) : level (c :: cs) = rise c + level cs := rfl

@[simp] theorem level_append (cs ds : List Char) : level (cs ++ ds) = level cs + level ds := by
  rw [level, List.map_append, List.sum_append, level, level]

theorem rise_of_isBlank {c : Char} (h : isBlank c) : rise c = 0 := by
  have hne (d : Char) (hd : isBlank d = false) : c ≠ d := by
    rintro rfl
    rw [h] at hd
    cases hd
  simp [rise, hne '[' (by decide), hne '<' (by decide), hne '(' (by decide), hne ']' (by decide),
    hne '>' (by decide), hne ')' (by decide)]

/-- Blanks do not change the depth. -/
theorem level_filter_solid (cs : List Char) : level (cs.filter (!isBlank ·)) = level cs := by
  induction cs with
  | nil => rfl
  | cons c cs ih =>
    cases hc : isBlank c with
    | true =>
      rw [List.filter_cons_of_neg (by simp [hc]), ih, level_cons, rise_of_isBlank hc, Int.zero_add]
    | false => rw [List.filter_cons_of_pos (by simp [hc]), level_cons, level_cons, ih]

theorem level_solid (s : String) : level (solid s) = level s.toList :=
  level_filter_solid _

end Text

namespace Run

/-- How deep in brackets it is behind a run, by the characters of its tokens. -/
def level (ts : List Token) : Int :=
  (ts.map fun t => Text.level t.text.toList).sum

@[simp] theorem level_nil : level [] = 0 := rfl

@[simp] theorem level_cons (t : Token) (ts : List Token) :
    level (t :: ts) = Text.level t.text.toList + level ts := rfl

@[simp] theorem level_append (ts us : List Token) : level (ts ++ us) = level ts + level us := by
  rw [level, List.map_append, List.sum_append, level, level]

/-- Rendering does not change the depth. -/
theorem level_render (ts : List Token) : Text.level (render ts).toList = level ts := by
  rw [← Text.level_solid, solid_render]
  induction ts with
  | nil => rfl
  | cons t ts ih => rw [List.flatMap_cons, Text.level_append, ih, level_cons, Text.level_solid]

/-- At every comma of the run, `P` holds of what stands before it. -/
def AtCommas (P : List Token → Prop) (ts : List Token) : Prop :=
  ∀ before comma after, ts = before ++ comma :: after → comma.isOperator "," → P before

theorem atCommas_nil (P : List Token → Prop) : AtCommas P [] :=
  fun before comma after h => by simp at h

theorem atCommas_cons_iff {P : List Token → Prop} {t : Token} {ts : List Token} :
    AtCommas P (t :: ts) ↔
      (t.isOperator "," → P []) ∧ AtCommas (fun before => P (t :: before)) ts := by
  constructor
  · intro h
    exact ⟨h [] t ts rfl, fun before comma after heq => h (t :: before) comma after (by rw [heq]; rfl)⟩
  · rintro ⟨ht, hts⟩ before comma after heq hcomma
    cases before with
    | nil =>
      obtain ⟨rfl, -⟩ := List.cons.inj heq
      exact ht hcomma
    | cons b before =>
      obtain ⟨rfl, hrest⟩ := List.cons.inj heq
      exact hts before comma after hrest hcomma

theorem AtCommas.mono {P Q : List Token → Prop} {ts : List Token} (h : AtCommas P ts)
    (hPQ : ∀ before, P before → Q before) : AtCommas Q ts :=
  fun before comma after heq hcomma => hPQ before (h before comma after heq hcomma)

theorem AtCommas.append {P : List Token → Prop} {ts us : List Token} (hts : AtCommas P ts)
    (hus : AtCommas (fun before => P (ts ++ before)) us) : AtCommas P (ts ++ us) := by
  induction ts generalizing P with
  | nil => exact hus
  | cons t ts ih =>
    obtain ⟨ht, hts⟩ := atCommas_cons_iff.mp hts
    exact atCommas_cons_iff.mpr ⟨ht, ih hts hus⟩

end Run

/-! ## Types by their tokens -/

/-- How much deeper in the brackets of a type it is behind the token. -/
def Token.rise (t : Token) : Int :=
  if t.isOperator "(" || t.isOperator "[" || t.isOperator "<" then 1
  else if t.isOperator ")" || t.isOperator "]" || t.isOperator ">" then -1
  else 0

namespace Run

/-- How many brackets of a type are open behind a run. -/
def nesting (ts : List Token) : Int :=
  (ts.map Token.rise).sum

@[simp] theorem nesting_nil : nesting [] = 0 := rfl

@[simp] theorem nesting_cons (t : Token) (ts : List Token) :
    nesting (t :: ts) = t.rise + nesting ts := rfl

@[simp] theorem nesting_append (ts us : List Token) :
    nesting (ts ++ us) = nesting ts + nesting us := by
  rw [nesting, List.map_append, List.sum_append, nesting, nesting]

/-- The number of arrows in a run. -/
def arrows (ts : List Token) : Nat :=
  ts.countP (·.isOperator "->")

@[simp] theorem arrows_append (ts us : List Token) : arrows (ts ++ us) = arrows ts + arrows us :=
  List.countP_append

end Run

/-- The forms in which types are put together. -/
inductive TypeForm where
  /-- A type. -/
  | single
  /-- Types with commas between them, at least one. -/
  | listed
  /-- Types with commas between them, in round brackets. -/
  | grouped
deriving DecidableEq, Repr

/-- **Types by their tokens**: names, references, optional types, slices, types applied to others in
angle or square brackets, tuples, and types of functions. -/
inductive SpellsType : TypeForm → List Token → Prop
  | name {n : Token} (hn : n.kind = .identifier) : SpellsType .single [n]
  | marked {r : Token} {T : List Token} {s : String} (hs : s ∈ ["&", "&&", "?"])
      (hr : r.isOperator s) (hT : SpellsType .single T) : SpellsType .single (r :: T)
  | exclusive {r m : Token} {T : List Token} {s : String} (hs : s ∈ ["&", "&&"])
      (hr : r.isOperator s) (hm : m.is "mut") (hT : SpellsType .single T) :
      SpellsType .single (r :: m :: T)
  | slice {o c : Token} {T : List Token} (ho : o.isOperator "[") (hc : c.isOperator "]")
      (hT : SpellsType .single T) : SpellsType .single (o :: c :: T)
  | applied {n o c : Token} {A : List Token} {b : String × String}
      (hb : b ∈ [("<", ">"), ("[", "]")]) (hn : n.kind = .identifier) (ho : o.isOperator b.1)
      (hA : SpellsType .listed A) (hc : c.isOperator b.2) :
      SpellsType .single (n :: o :: (A ++ [c]))
  | tuple {G : List Token} (hG : SpellsType .grouped G) : SpellsType .single G
  | function {f a : Token} {G R : List Token} (hf : f.is "fn") (hG : SpellsType .grouped G)
      (ha : a.isOperator "->") (hR : SpellsType .single R) :
      SpellsType .single (f :: (G ++ a :: R))
  | last {T : List Token} (hT : SpellsType .single T) : SpellsType .listed T
  | more {comma : Token} {T A : List Token} (hT : SpellsType .single T)
      (hc : comma.isOperator ",") (hA : SpellsType .listed A) :
      SpellsType .listed (T ++ comma :: A)
  | unit {o c : Token} (ho : o.isOperator "(") (hc : c.isOperator ")") :
      SpellsType .grouped [o, c]
  | group {o c : Token} {A : List Token} (ho : o.isOperator "(") (hA : SpellsType .listed A)
      (hc : c.isOperator ")") : SpellsType .grouped (o :: (A ++ [c]))

section Brackets

open Run

variable {t : Token} {s : String}

theorem Token.isOperator_of_is {s' : String} (h : t.is s) (hs : s ≠ s') :
    t.isOperator s' = false :=
  isOperator_of_ne (by rwa [text_of_is h])

/-- The texts that matter where a type is cut. -/
def typeMarks : List String :=
  ["(", "[", "<", ")", "]", ">", ","]

theorem Token.rise_of_comma (h : t.isOperator ",") : t.rise = 0 := by
  simp [rise, isOperator_eq h]

theorem Token.rise_eq_zero (h : ∀ s ∈ typeMarks, t.isOperator s = false) : t.rise = 0 := by
  simp only [typeMarks, List.forall_mem_cons] at h
  simp [rise, h]

/-- **An enclosed run**: all brackets of types in it are closed, and its commas stand at least `k`
deep in them. -/
structure Enclosed (k : Int) (ts : List Token) : Prop where
  /-- The brackets are closed. -/
  nesting_eq : nesting ts = 0
  /-- The commas stand in brackets. -/
  commas : AtCommas (fun before => k ≤ nesting before) ts

namespace Enclosed

variable {k : Int} {o c : Token} {ts us : List Token}

theorem nil (k : Int) : Enclosed k [] :=
  ⟨rfl, atCommas_nil _⟩

theorem mono {j : Int} (h : Enclosed k ts) (hjk : j ≤ k) : Enclosed j ts :=
  ⟨h.nesting_eq, h.commas.mono fun _ => Int.le_trans hjk⟩

theorem append (hts : Enclosed k ts) (hus : Enclosed k us) : Enclosed k (ts ++ us) where
  nesting_eq := by rw [nesting_append, hts.nesting_eq, hus.nesting_eq]; rfl
  commas := hts.commas.append <| hus.commas.mono fun before h => by
    rwa [nesting_append, hts.nesting_eq, Int.zero_add]

/-- A token that does not change the depth, and is a comma only where commas may stand. -/
theorem cons (ht : t.rise = 0) (hcomma : t.isOperator "," → k ≤ 0) (h : Enclosed k ts) :
    Enclosed k (t :: ts) where
  nesting_eq := by rw [nesting_cons, ht, h.nesting_eq]; rfl
  commas := by
    refine atCommas_cons_iff.mpr ⟨hcomma, h.commas.mono fun before hk => ?_⟩
    rwa [nesting_cons, ht, Int.zero_add]

/-- A token that does not matter. -/
theorem mark (ht : ∀ s ∈ typeMarks, t.isOperator s = false) (h : Enclosed k ts) :
    Enclosed k (t :: ts) :=
  .cons (Token.rise_eq_zero ht) (fun hc => by rw [ht "," (by decide)] at hc; cases hc) h

/-- Brackets around a run enclose it once more. -/
theorem bracket {b : String × String} (hb : b ∈ [("(", ")"), ("[", "]"), ("<", ">")])
    (ho : o.isOperator b.1) (h : Enclosed k ts) (hc : c.isOperator b.2) :
    Enclosed (k + 1) (o :: (ts ++ [c])) := by
  obtain ⟨horise, hcrise, hocomma, hccomma⟩ : o.rise = 1 ∧ c.rise = -1 ∧
      o.isOperator "," = false ∧ c.isOperator "," = false := by
    simp only [Token.rise, Token.isOperator_eq ho, Token.isOperator_eq hc]
    clear ho hc
    revert b
    decide
  constructor
  case nesting_eq =>
    rw [nesting_cons, nesting_append, h.nesting_eq, nesting_cons, horise, hcrise]
    rfl
  case commas =>
    refine atCommas_cons_iff.mpr ⟨fun ho => absurd ho (by simp [hocomma]), ?_⟩
    -- the commas are those of the run inside, one deeper
    refine AtCommas.append (h.commas.mono fun before hk => ?_) ?_
    · rw [nesting_cons, horise]
      omega
    · exact atCommas_cons_iff.mpr ⟨fun hc => absurd hc (by simp [hccomma]), atCommas_nil _⟩

end Enclosed

/-- How many brackets are open where a comma stands between the parts of the form. -/
def TypeForm.depth : TypeForm → Int
  | listed => 0
  | single | grouped => 1

/-- **The brackets of a type** are closed behind it, and all its commas stand in some of them. -/
theorem SpellsType.enclosed {form : TypeForm} {ts : List Token} (h : SpellsType form ts) :
    Enclosed form.depth ts := by
  have mark {t : Token} {s : String} {k : Int} {ts : List Token} (ht : t.is s)
      (hs : s ∉ typeMarks) (h : Enclosed k ts) : Enclosed k (t :: ts) :=
    .mark (fun s' hs' => Token.isOperator_of_is ht fun heq => hs (heq ▸ hs')) h
  have hreference : ∀ s ∈ ["&", "&&", "?"], s ∉ typeMarks := by decide
  have hexclusive : ∀ s ∈ ["&", "&&"], s ∉ typeMarks := by decide
  have hangle : ∀ b ∈ [("<", ">"), ("[", "]")], b ∈ [("(", ")"), ("[", "]"), ("<", ">")] := by
    decide
  -- each pair of brackets takes the commas one deeper, and only a list has commas of its own
  induction h with
  | name hn => exact .mark (fun s _ => Token.isOperator_of_identifier hn s) (.nil _)
  | marked hs hr _ ih => exact mark (Token.is_of_isOperator hr) (hreference _ hs) ih
  | exclusive hs hr hm _ ih =>
    exact mark (Token.is_of_isOperator hr) (hexclusive _ hs) (mark hm (by decide) ih)
  | slice ho hc _ ih =>
    exact (Enclosed.bracket (b := ("[", "]")) (by decide) ho (.nil 0) hc).append ih
  | applied hb hn ho _ hc ih =>
    exact .mark (fun s _ => Token.isOperator_of_identifier hn s)
      (.bracket (hangle _ hb) ho ih hc)
  | tuple _ ih => exact ih
  | function hf _ ha _ ihG ihR =>
    exact mark hf (by decide) (ihG.append (mark (Token.is_of_isOperator ha) (by decide) ihR))
  | last _ ih => exact ih.mono (by decide)
  | more _ hc _ ihT ihA =>
    exact (ihT.mono (by decide)).append (.cons (Token.rise_of_comma hc) (fun _ => Int.le_refl 0) ihA)
  | unit ho hc => exact .bracket (b := ("(", ")")) (by decide) ho (.nil 0) hc
  | group ho _ hc ih => exact .bracket (b := ("(", ")")) (by decide) ho ih hc

end Brackets

/-! ## Types by their characters -/

/-- **A clear token**: what its characters do to the depth, they do as a bracket or an arrow. -/
structure Token.Clear (t : Token) : Prop where
  /-- An arrow counts as a closing bracket. -/
  level_eq : Text.level t.text.toList = t.rise - Run.arrows [t]
  /-- Commas are tokens. -/
  comma : ',' ∈ t.text.toList → t.isOperator ","
  /-- The token stands on one line. -/
  newline : '\n' ∉ t.text.toList

section Clear

variable {t : Token} {s : String} {ts us : List Token}

theorem Munch.ne_of_isWordBody {c d : Char} (hc : Munch.isWordBody c)
    (hd : Munch.isWordBody d = false) : c ≠ d := by
  rintro rfl
  rw [hc] at hd
  cases hd

theorem Text.rise_of_isWordBody {c : Char} (h : Munch.isWordBody c) : Text.rise c = 0 := by
  have hne (d : Char) (hd : Munch.isWordBody d = false) : c ≠ d := Munch.ne_of_isWordBody h hd
  simp [Text.rise, hne '[' (by decide), hne '<' (by decide), hne '(' (by decide),
    hne ']' (by decide), hne '>' (by decide), hne ')' (by decide)]

/-- A word is clear. -/
theorem Token.clear_of_word (ht : t.Legible)
    (h : startsWord t.text) : t.Clear := by
  obtain ⟨c, cs, htext, -⟩ := ht.exists_cons
  have hbody := (ht.word c cs htext (startsWord_eq htext ▸ h)).2
  -- marks of types do not begin as words do
  have hoperator : ∀ s ∈ "->" :: typeMarks, t.isOperator s = false := by
    have hstarts : ∀ s ∈ "->" :: typeMarks, startsWord s = false := by
      decide
    intro s hs
    refine Token.isOperator_of_ne ?_
    rintro rfl
    rw [hstarts _ hs] at h
    cases h
  constructor
  case level_eq =>
    have hlevel : Text.level t.text.toList = 0 := by
      rw [Text.level, List.map_eq_replicate_iff.mpr fun d hd => Text.rise_of_isWordBody (hbody d hd)]
      simp
    rw [hlevel, Token.rise_eq_zero fun s hs => hoperator s (List.mem_cons_of_mem _ hs)]
    simp [Run.arrows, hoperator "->" List.mem_cons_self]
  case comma => exact fun h => absurd rfl (Munch.ne_of_isWordBody (hbody _ h) (by decide))
  case newline => exact fun h => absurd rfl (Munch.ne_of_isWordBody (hbody _ h) (by decide))

/-- The operators of types. -/
def typeOperators : List String :=
  ["&", "&&", "?", "->"] ++ typeMarks

/-- The operators of types are clear. -/
theorem Token.clear_of_isOperator (h : t.isOperator s)
    (hs : s ∈ typeOperators) : t.Clear := by
  have hall : ∀ s ∈ typeOperators,
      Text.level s.toList = (if s == "(" || s == "[" || s == "<" then 1
        else if s == ")" || s == "]" || s == ">" then -1 else 0) -
          ((if s == "->" then 1 else 0 : Nat) : Int) ∧
      (',' ∈ s.toList → s == ",") ∧ '\n' ∉ s.toList := by
    decide
  obtain ⟨hlevel, hcomma, hnewline⟩ := hall s hs
  have htext := Token.text_of_isOperator h
  constructor
  case level_eq =>
    rw [htext, hlevel]
    simp only [Token.rise, Run.arrows, Token.isOperator_eq h, List.countP_cons, List.countP_nil,
      Nat.zero_add]
  case comma => rwa [htext, Token.isOperator_eq h]
  case newline => rwa [htext]

/-- **The tokens of a type** are clear. -/
theorem SpellsType.clear {form : TypeForm} (h : SpellsType form ts) (hl : ∀ t ∈ ts, t.Legible) :
    ∀ t ∈ ts, t.Clear := by
  -- what makes a token clear: it is a name, a word of the type, or one of its operators
  have name {n : Token} (hn : n.kind = .identifier) (hl : n.Legible) : n.Clear := by
    obtain ⟨c, cs, htext, hc⟩ := hl.name (.inl hn)
    exact Token.clear_of_word hl (by rwa [startsWord_eq htext])
  have word {w : Token} {s : String} (hw : w.is s) (hl : w.Legible) (hs : startsWord s) : w.Clear :=
    Token.clear_of_word hl (by rwa [Token.text_of_is hw])
  have operator {o : Token} {s : String} (ho : o.isOperator s) (hs : s ∈ typeOperators) : o.Clear :=
    Token.clear_of_isOperator ho hs
  have hreference : ∀ s ∈ ["&", "&&", "?"], s ∈ typeOperators := by decide
  have hexclusive : ∀ s ∈ ["&", "&&"], s ∈ typeOperators := by decide
  have hangle : ∀ b ∈ [("<", ">"), ("[", "]")], b.1 ∈ typeOperators ∧ b.2 ∈ typeOperators := by
    decide
  induction h with
  | name hn => exact List.forall_mem_singleton.mpr (name hn (hl _ List.mem_cons_self))
  | marked hs hr _ ih =>
    simp only [List.forall_mem_cons] at hl ⊢
    exact ⟨operator hr (hreference _ hs), ih hl.2⟩
  | exclusive hs hr hm _ ih =>
    simp only [List.forall_mem_cons] at hl ⊢
    exact ⟨operator hr (hexclusive _ hs), word hm hl.2.1 (by decide), ih hl.2.2⟩
  | slice ho hc _ ih =>
    simp only [List.forall_mem_cons] at hl ⊢
    exact ⟨operator ho (by decide), operator hc (by decide), ih hl.2.2⟩
  | applied hb hn ho _ hc ih =>
    simp only [List.forall_mem_cons, List.forall_mem_append] at hl ⊢
    exact ⟨name hn hl.1, operator ho (hangle _ hb).1, ih hl.2.2.1, operator hc (hangle _ hb).2,
      List.forall_mem_nil _⟩
  | tuple _ ih => exact ih hl
  | function hf _ ha _ ihG ihR =>
    simp only [List.forall_mem_cons, List.forall_mem_append] at hl ⊢
    exact ⟨word hf hl.1 (by decide), ihG hl.2.1, operator ha (by decide), ihR hl.2.2.2⟩
  | last _ ih => exact ih hl
  | more _ hc _ ihT ihA =>
    simp only [List.forall_mem_cons, List.forall_mem_append] at hl ⊢
    exact ⟨ihT hl.1, operator hc (by decide), ihA hl.2.2⟩
  | unit ho hc =>
    simp only [List.forall_mem_cons]
    exact ⟨operator ho (by decide), operator hc (by decide), List.forall_mem_nil _⟩
  | group ho _ hc ih =>
    simp only [List.forall_mem_cons, List.forall_mem_append] at hl ⊢
    exact ⟨operator ho (by decide), ih hl.2.1, operator hc (by decide), List.forall_mem_nil _⟩

/-- The depth by characters is the nesting, except for the arrows. -/
theorem Run.level_eq (h : ∀ t ∈ ts, t.Clear) : Run.level ts = Run.nesting ts - Run.arrows ts := by
  induction ts with
  | nil => rfl
  | cons t ts ih =>
    obtain ⟨ht, hts⟩ := List.forall_mem_cons.mp h
    have harrows : Run.arrows (t :: ts) = Run.arrows [t] + Run.arrows ts := Run.arrows_append [t] ts
    rw [Run.level_cons, ht.level_eq, ih hts, Run.nesting_cons, harrows]
    omega

end Clear

end KlarAudit

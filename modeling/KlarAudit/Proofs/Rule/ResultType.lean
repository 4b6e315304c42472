import KlarAudit.Proofs.Grammar.TypeSpelling
import KlarAudit.Proofs.Rule.Reference

/-!
# Result types

The parameters of a result type are taken from the rendered type, character by character. The last
character of an arrow looks like a closing bracket there, so behind an arrow the count of open
brackets is one too low: commas in brackets are taken for commas outside of them, and the comma
between the two parameters is not.

## Main definitions

* `Run.cuts ts`: the pieces between the commas at depth zero, by characters
* `Run.Uncut depth ts`: no comma of the run is at depth zero
* `IsResult bracket T E type`: the tokens of a result type
* `ReadAs bracket T E d sig`: what is made of a result type

## Main results

* `resultType?_render`: the parameters of a result type are its cuts
* `map_render_cuts_iff`, `mem_rawTextTypes_iff`: when these are the types between the brackets
* `resultTypes_of_text`: the result types of the functions in a text
-/

namespace KlarAudit

/-! ## Cutting a run -/

namespace Text

theorem splitArgumentsFrom_cons (depth : Int) (c : Char) (cs : List Char) :
    splitArgumentsFrom depth (c :: cs) =
      let rest := splitArgumentsFrom (depth + rise c) cs
      if c = ',' && depth = 0 then ([], rest.1 :: rest.2) else (c :: rest.1, rest.2) := by
  have hdepth : (if c = '[' || c = '<' || c = '(' then depth + 1
      else if c = ']' || c = '>' || c = ')' then depth - 1 else depth) = depth + rise c := by
    unfold rise
    split
    · rfl
    · split
      · rfl
      · exact (Int.add_zero depth).symm
  rw [splitArgumentsFrom, hdepth]

/-- Characters without a comma belong to the first argument. -/
theorem splitArgumentsFrom_append {cs : List Char} (h : ',' ∉ cs) (depth : Int) (ds : List Char) :
    splitArgumentsFrom depth (cs ++ ds) =
      let rest := splitArgumentsFrom (depth + level cs) ds
      (cs ++ rest.1, rest.2) := by
  induction cs generalizing depth with
  | nil => simp
  | cons c cs ih =>
    obtain ⟨hc, hcs⟩ : ',' ≠ c ∧ ',' ∉ cs := by simpa using h
    rw [List.cons_append, splitArgumentsFrom_cons, ih hcs, level_cons, ← Int.add_assoc]
    simp [hc.symm]

end Text

namespace Run

/-- The pieces between the commas at which the depth by characters is zero, from the given depth on:
the first piece and the others. -/
def cutFrom (depth : Int) : List Token → List Token × List (List Token)
  | [] => ([], [])
  | t :: ts =>
    let rest := cutFrom (depth + Text.level t.text.toList) ts
    if t.isOperator "," && depth = 0 then ([], rest.1 :: rest.2) else (t :: rest.1, rest.2)

/-- **The pieces between the commas** at which the depth by characters is zero. -/
def cuts (ts : List Token) : List (List Token) :=
  (cutFrom 0 ts).1 :: (cutFrom 0 ts).2

/-- Commas stand in no other tokens than commas. -/
def CommasApart (ts : List Token) : Prop :=
  ∀ t ∈ ts, ',' ∈ t.text.toList → t.isOperator ","

theorem piece_comma {t : Token} (h : t.isOperator ",") (before : Option Token) :
    piece before t = ", " := by
  simp only [Token.isOperator, Bool.and_eq_true, beq_iff_eq] at h
  simp [piece, Token.is, h.1, h.2, TokenKind.isStructural]

theorem pieces_some_comma {t : Token} (h : t.isOperator ",") (ts : List Token) :
    pieces (some t) ts = pieces none ts := by
  simp only [Token.isOperator, Bool.and_eq_true, beq_iff_eq] at h
  exact pieces_some_of_not_isWordlike (by rw [h.1]; rfl) ts

theorem level_piece (before : Option Token) (t : Token) :
    Text.level (piece before t).toList = Text.level t.text.toList := by
  rw [← Text.level_solid, solid_piece, Text.level_solid]

/-- **The arguments of a rendered run** are its cuts. -/
theorem splitArgumentsFrom_pieces {ts : List Token} (h : CommasApart ts) (before : Option Token)
    (depth : Int) : Text.splitArgumentsFrom depth (pieces before ts).toList =
      let rest := cutFrom depth ts
      ((pieces before rest.1).toList, rest.2.map fun us => ' ' :: (pieces none us).toList) := by
  induction ts generalizing before depth with
  | nil => rfl
  | cons t ts ih =>
    obtain ⟨ht, hts⟩ := List.forall_mem_cons.mp h
    rw [pieces, String.toList_append]
    by_cases hcomma : t.isOperator ","
    · have hlevel : Text.level t.text.toList = 0 := by
        rw [Token.text_of_isOperator hcomma]
        rfl
      -- a comma is rendered with a blank behind it, and this begins the next piece
      have hdepth : depth + Text.rise ',' + Text.rise ' ' = depth := by simp [Text.rise]
      rw [piece_comma hcomma, cutFrom, hlevel, Int.add_zero]
      show Text.splitArgumentsFrom depth (',' :: ' ' :: (pieces (some t) ts).toList) = _
      rw [Text.splitArgumentsFrom_cons, Text.splitArgumentsFrom_cons, hdepth,
        pieces_some_comma hcomma, ih hts]
      by_cases hdepth : depth = 0
      · simp [hcomma, hdepth, pieces]
      · simp [hcomma, hdepth, pieces, piece_comma hcomma, pieces_some_comma hcomma]
    · -- the characters of any other token stay together
      have hno : ',' ∉ t.text.toList := fun hmem => hcomma (ht hmem)
      have hpiece : ',' ∉ (piece before t).toList := fun hmem =>
        hno (mem_of_mem_piece hmem (by decide))
      rw [Text.splitArgumentsFrom_append hpiece, level_piece, ih hts, cutFrom]
      simp [hcomma, pieces]

/-- **The arguments of a rendered run**, without blanks at their ends. -/
theorem splitArguments_pieces {ts : List Token} (h : CommasApart ts) :
    Text.splitArguments (pieces none ts).toList = (cuts ts).map render := by
  have hblank (us : List Token) :
      Text.trimChars (' ' :: (pieces none us).toList) = Text.trimChars (pieces none us).toList :=
    rfl
  rw [Text.splitArguments, splitArgumentsFrom_pieces h, cuts]
  simp [render, Text.trim, hblank]

/-- No comma of the run is at depth zero, from the given depth on. -/
def Uncut (depth : Int) (ts : List Token) : Prop :=
  AtCommas (fun before => depth + level before ≠ 0) ts

theorem uncut_cons_iff {depth : Int} {t : Token} {ts : List Token} :
    Uncut depth (t :: ts) ↔ (t.isOperator "," → depth ≠ 0) ∧
      Uncut (depth + Text.level t.text.toList) ts := by
  simp only [Uncut, atCommas_cons_iff, level_cons, level_nil, Int.add_zero, Int.add_assoc]

/-- A run that is not cut belongs to the first piece. -/
theorem cutFrom_append {depth : Int} {ts : List Token} (h : Uncut depth ts) (us : List Token) :
    cutFrom depth (ts ++ us) =
      let rest := cutFrom (depth + level ts) us
      (ts ++ rest.1, rest.2) := by
  induction ts generalizing depth with
  | nil => simp
  | cons t ts ih =>
    obtain ⟨ht, hts⟩ := uncut_cons_iff.mp h
    rw [List.cons_append, cutFrom, ih hts, level_cons, ← Int.add_assoc]
    by_cases hcomma : t.isOperator ","
    · simp [ht hcomma]
    · simp [hcomma]

/-- **What is cut off** stands before a comma at depth zero, and what comes next behind it. -/
theorem exists_comma_of_cutFrom {depth : Int} {ts first next : List Token}
    {others : List (List Token)} (h : cutFrom depth ts = (first, next :: others)) :
    ∃ comma after, ts = first ++ comma :: after ∧ comma.isOperator "," ∧
      depth + level first = 0 ∧ cutFrom 0 after = (next, others) := by
  induction ts generalizing depth first with
  | nil => cases h
  | cons t ts ih =>
    rw [cutFrom] at h
    split at h
    · rename_i hcomma
      simp only [Bool.and_eq_true, decide_eq_true_eq] at hcomma
      obtain ⟨hcomma, rfl⟩ := hcomma
      cases h
      refine ⟨t, ts, rfl, hcomma, by simp, ?_⟩
      rw [Token.text_of_isOperator hcomma]
      rfl
    · obtain ⟨hfirst, hothers⟩ := Prod.mk.inj h
      obtain ⟨comma, after, heq, hcomma, hlevel, hafter⟩ := ih (Prod.ext rfl hothers)
      subst hfirst
      refine ⟨comma, after, congrArg (t :: ·) heq, hcomma, ?_, hafter⟩
      rwa [level_cons, ← Int.add_assoc]

/-- A run in one piece is not cut. -/
theorem uncut_of_cutFrom {depth : Int} {ts : List Token} (h : (cutFrom depth ts).2 = []) :
    Uncut depth ts := by
  induction ts generalizing depth with
  | nil => exact atCommas_nil _
  | cons t ts ih =>
    rw [cutFrom] at h
    split at h
    · cases h
    · rename_i hcomma
      refine uncut_cons_iff.mpr ⟨fun ht hdepth => hcomma ?_, ih h⟩
      simp [ht, hdepth]

theorem cutFrom_of_uncut {depth : Int} {ts : List Token} (h : Uncut depth ts) :
    cutFrom depth ts = (ts, []) := by
  have happend := cutFrom_append h []
  rw [List.append_nil] at happend
  rw [happend]
  simp [cutFrom]

end Run

/-! ## The parameters of a result type -/

/-- The brackets around the parameters of a result type. -/
def resultBrackets : List (Char × Char) :=
  [('<', '>'), ('[', ']')]

/-- **A result type by its tokens**: the parameters `T` and `E` stand in brackets, a comma between
them. -/
def IsResult (bracket : Char) (T E type : List Token) : Prop :=
  ∃ n o comma c close, type = n :: o :: (T ++ comma :: E ++ [c]) ∧
    n.kind = .identifier ∧ n.text = "Result" ∧ comma.isOperator "," ∧
    (bracket, close) ∈ resultBrackets ∧ o.isOperator bracket.toString ∧ c.isOperator close.toString

section Result

open Run

variable {t : Token} {ts A T E type : List Token} {bracket close : Char}

theorem Run.piece_of_isOperator {s : String} (h : t.isOperator s)
    (hs : s ∉ [",", ":", "+", "=", "->", "=>"]) (before : Option Token) : piece before t = s := by
  simp only [Token.isOperator, Bool.and_eq_true, beq_iff_eq] at h
  simp only [List.mem_cons, List.not_mem_nil, or_false, not_or] at hs
  simp [piece, Token.is, TokenKind.isWordlike, h.1, h.2, hs]

theorem Run.pieces_append_singleton {s : String} (h : t.isOperator s)
    (hs : s ∉ [",", ":", "+", "=", "->", "=>"]) (before : Option Token) (ts : List Token) :
    pieces before (ts ++ [t]) = pieces before ts ++ s := by
  induction ts generalizing before with
  | nil => simp [pieces, piece_of_isOperator h hs]
  | cons u ts ih => rw [List.cons_append, pieces, pieces, ih, String.append_assoc]

/-- The arguments of a result type stand between its brackets. -/
theorem applied?_of_toList {s : String} {X : List Char} (hb : (bracket, close) ∈ resultBrackets)
    (hs : s.toList = "Result".toList ++ bracket :: (X ++ [close])) (hX : '\n' ∉ X) :
    Text.applied? "Result" s = some ⟨bracket, X⟩ := by
  have hall : ∀ p ∈ resultBrackets, (p.1 = '[' || p.1 = '<') ∧ (p.2 = ']' || p.2 = '>') ∧
      Text.isBlank p.1 = false ∧ p.2 ≠ '\n' := by
    decide
  obtain ⟨hopen, hclose, hblank, hne⟩ := hall _ hb
  dsimp only at hopen hclose hblank hne
  have hstarts : Text.startsWith "Result" s := by
    rw [Text.startsWith, hs, List.isPrefixOf_iff_prefix]
    exact List.prefix_append _ _
  have hdrop : s.toList.drop "Result".length = bracket :: (X ++ [close]) := by
    rw [hs]
    rfl
  have hfront : Text.dropBlanks (bracket :: (X ++ [close])) = bracket :: (X ++ [close]) :=
    List.dropWhile_cons_of_neg (by simp [hblank])
  -- the last bracket closes, and no line feed stands before it
  have hbefore : Text.beforeCloser? (X ++ [close]) = some X := by
    simp [Text.beforeCloser?, Text.dropFinalNewline, hne, hclose, hX]
  rw [Text.applied?, if_pos hstarts, hdrop, hfront]
  dsimp only
  rw [if_pos (by simpa using hopen), hbefore]
  rfl

/-- A result type is rendered with nothing between the name, the brackets and what is in them. -/
theorem toList_render_result {n o c : Token} (hn : n.kind = .identifier) (hname : n.text = "Result")
    (hb : (bracket, close) ∈ resultBrackets) (ho : o.isOperator bracket.toString)
    (hc : c.isOperator close.toString) : (render (n :: o :: (A ++ [c]))).toList =
      "Result".toList ++ bracket :: ((pieces none A).toList ++ [close]) := by
  have hall : ∀ p ∈ resultBrackets, Text.isBlank p.2 = false ∧
      p.1.toString ∉ [",", ":", "+", "=", "->", "=>"] ∧
      p.2.toString ∉ [",", ":", "+", "=", "->", "=>"] ∧
      p.1.toString.toList = [p.1] ∧ p.2.toString.toList = [p.2] := by
    decide
  obtain ⟨hblank, homark, hcmark, hochars, hcchars⟩ := hall _ hb
  dsimp only at hblank homark hcmark hochars hcchars
  have hoplain : o.kind.isWordlike = false := by
    simp only [Token.isOperator, Bool.and_eq_true, beq_iff_eq] at ho
    rw [ho.1]
    rfl
  have hword : piece none n = "Result" := by
    simp [piece, Token.is, hn, hname, TokenKind.isStructural]
  obtain ⟨front, hfront⟩ : ∃ front, front = "Result".toList ++ bracket :: (pieces none A).toList :=
    ⟨_, rfl⟩
  -- neither end is a blank, so trimming leaves what is rendered as it is
  have hstart : Text.dropBlanks front = front := by
    rw [hfront]
    exact List.dropWhile_cons_of_neg (by decide)
  have htrim := Text.trimChars_append_cons hblank front []
  rw [hstart, hfront] at htrim
  rw [toList_render, pieces, pieces, hword, piece_of_isOperator ho homark,
    pieces_some_of_not_isWordlike hoplain, pieces_append_singleton hc hcmark,
    String.toList_append, String.toList_append, String.toList_append, hochars, hcchars]
  simpa using htrim

/-- **The parameters of a result type** are the cuts of what stands in its brackets. -/
theorem resultType?_render {n o c : Token} (hn : n.kind = .identifier) (hname : n.text = "Result")
    (hb : (bracket, close) ∈ resultBrackets) (ho : o.isOperator bracket.toString)
    (hc : c.isOperator close.toString) (hA : ∀ t ∈ A, t.Clear) :
    resultType? (some (render (n :: o :: (A ++ [c])))) = some (bracket, (cuts A).map render) := by
  have hnewline : '\n' ∉ (pieces none A).toList := by
    intro h
    obtain ⟨t, ht, hmem⟩ := mem_of_mem_pieces h (by decide)
    exact (hA t ht).newline hmem
  have happlied := applied?_of_toList hb (toList_render_result hn hname hb ho hc) hnewline
  rw [resultType?, Option.bind_some, happlied, Option.map_some,
    splitArguments_pieces fun t ht => (hA t ht).comma]

/-- The depth by characters is the nesting, except for the arrows. -/
theorem Run.uncut_iff (h : ∀ t ∈ ts, t.Clear) :
    Uncut 0 ts ↔ AtCommas (fun before => nesting before ≠ arrows before) ts := by
  have hlevel {before after : List Token} (hts : ts = before ++ after) :
      0 + level before ≠ 0 ↔ nesting before ≠ arrows before := by
    rw [Run.level_eq fun t ht => h t (by rw [hts]; exact List.mem_append_left _ ht)]
    omega
  exact ⟨fun hu before comma after hts hc => (hlevel hts).mp (hu before comma after hts hc),
    fun hu before comma after hts hc => (hlevel hts).mpr (hu before comma after hts hc)⟩

/-- A type without arrows is not cut. -/
theorem SpellsType.uncut (h : SpellsType .single ts) (hclear : ∀ t ∈ ts, t.Clear)
    (harrows : arrows ts = 0) : Uncut 0 ts := by
  refine (uncut_iff hclear).mpr fun before comma after hts hc => ?_
  have hdepth : 1 ≤ nesting before := h.enclosed.commas before comma after hts hc
  rw [hts, arrows_append] at harrows
  omega

/-- A run is split in the same place twice, or in two places. -/
theorem append_cons_eq_append_cons {α : Type} {a b : α} {as as' bs bs' : List α}
    (h : as ++ a :: as' = bs ++ b :: bs') :
    (as = bs ∧ as' = bs') ∨ (∃ between, bs = as ++ a :: between ∧ as' = between ++ b :: bs') ∨
      ∃ between, as = bs ++ b :: between ∧ bs' = between ++ a :: as' := by
  rcases List.append_eq_append_iff.mp h with ⟨between, rfl, hmore⟩ | ⟨between, rfl, hmore⟩
  · cases between with
    | nil => exact .inl ⟨(List.append_nil _).symm, (List.cons.inj hmore).2⟩
    | cons x between =>
      obtain ⟨rfl, hrest⟩ := List.cons.inj hmore
      exact .inr (.inl ⟨between, rfl, hrest⟩)
  · cases between with
    | nil => exact .inl ⟨List.append_nil _, (List.cons.inj hmore).2.symm⟩
    | cons x between =>
      obtain ⟨rfl, hrest⟩ := List.cons.inj hmore
      exact .inr (.inr ⟨between, rfl, hrest⟩)

/-- What is cut once stands around a comma at depth zero. -/
theorem Run.exists_comma_of_cuts {first second : List Token} (h : cuts ts = [first, second]) :
    ∃ comma, ts = first ++ comma :: second ∧ comma.isOperator "," ∧ level first = 0 ∧
      Uncut 0 second := by
  obtain ⟨rfl, hothers⟩ := List.cons.inj h
  obtain ⟨comma, after, hts, hcomma, hlevel, hafter⟩ :=
    exists_comma_of_cutFrom (Prod.ext rfl hothers)
  have huncut : Uncut 0 after := uncut_of_cutFrom (by rw [hafter])
  rw [cutFrom_of_uncut huncut] at hafter
  obtain rfl : after = second := congrArg Prod.fst hafter
  exact ⟨comma, hts, hcomma, by rwa [Int.zero_add] at hlevel, huncut⟩

/-- A run that is not cut is the first piece, if a comma at depth zero comes next. -/
theorem Run.cuts_append {comma : Token} (hT : Uncut 0 T) (hlevel : level T = 0)
    (hcomma : comma.isOperator ",") (E : List Token) : cuts (T ++ comma :: E) = T :: cuts E := by
  have hzero : Text.level comma.text.toList = 0 := by
    rw [Token.text_of_isOperator hcomma]
    rfl
  rw [cuts, cutFrom_append hT, hlevel, cutFrom, hcomma, hzero, cuts]
  simp

/-- **The cuts between two types** are the types themselves if the first has no arrow, and no comma
in the second stands as deep in brackets as there are arrows before it. -/
theorem map_render_cuts_iff {comma : Token} (hT : SpellsType .single T) (hTclear : ∀ t ∈ T, t.Clear)
    (hcomma : comma.isOperator ",") (hE : ∀ t ∈ E, t.Clear) :
    (cuts (T ++ comma :: E)).map render = [render T, render E] ↔
      arrows T = 0 ∧ AtCommas (fun before => nesting before ≠ arrows before) E := by
  have hsolid {t : Token} (ht : t.isOperator ",") : solid t.text ≠ [] := by
    rw [Token.text_of_isOperator ht]
    decide
  have hlevel : level T = -arrows T := by
    rw [Run.level_eq hTclear, hT.enclosed.nesting_eq, Int.zero_sub]
  rw [← uncut_iff hE]
  constructor
  · intro h
    obtain ⟨first, others, hcuts, hfirst, hothers⟩ := List.map_eq_cons_iff.mp h
    obtain ⟨second, _, rfl, -, hnil⟩ := List.map_eq_cons_iff.mp hothers
    obtain rfl := List.map_eq_nil_iff.mp hnil
    obtain ⟨mark, hsplit, hmark, hzero, huncut⟩ := exists_comma_of_cuts hcuts
    -- the first piece is rendered as the first type, so it ends where that ends
    obtain ⟨rfl, rfl⟩ | ⟨between, rfl, -⟩ | ⟨between, rfl, -⟩ := append_cons_eq_append_cons hsplit
    · exact ⟨by omega, huncut⟩
    · exact absurd hfirst (render_append_ne T between (hsolid hcomma))
    · exact absurd hfirst.symm (render_append_ne first between (hsolid hmark))
  · rintro ⟨harrows, huncut⟩
    rw [cuts_append (hT.uncut hTclear harrows) (by omega) hcomma, cuts, cutFrom_of_uncut huncut]
    rfl

/-- **What is taken for the error** is one of the types of plain text if the first type has no arrow
and the second is that type. -/
theorem mem_rawTextTypes_iff {comma : Token} (hT : SpellsType .single T)
    (hTclear : ∀ t ∈ T, t.Clear) (hcomma : comma.isOperator ",") (hE : SpellsType .single E)
    (hEclear : ∀ t ∈ E, t.Clear) :
    (∃ value, ∃ error ∈ rawTextTypes, (cuts (T ++ comma :: E)).map render = [value, error]) ↔
      arrows T = 0 ∧ render E ∈ rawTextTypes := by
  have hlevel : level T = -arrows T := by
    rw [Run.level_eq hTclear, hT.enclosed.nesting_eq, Int.zero_sub]
  -- plain types have no commas, and their brackets are closed
  have hraw : ∀ raw ∈ rawTextTypes, ',' ∉ raw.toList ∧ Text.level raw.toList = 0 := by decide
  have hsecond {ts : List Token} (h : render ts ∈ rawTextTypes) :
      (∀ t ∈ ts, t.isOperator "," = false) ∧ level ts = 0 := by
    obtain ⟨hcomma, hzero⟩ := hraw _ h
    refine ⟨fun t ht => Bool.eq_false_iff.mpr fun hc => hcomma ?_, by rwa [← level_render]⟩
    have hmem : ',' ∈ solid (render ts) := by
      rw [solid_render]
      refine List.mem_flatMap.mpr ⟨t, ht, ?_⟩
      rw [Token.text_of_isOperator hc]
      decide
    exact (List.mem_filter.mp hmem).1
  constructor
  · rintro ⟨value, error, herror, h⟩
    obtain ⟨first, others, hcuts, -, hothers⟩ := List.map_eq_cons_iff.mp h
    obtain ⟨second, _, rfl, rfl, hnil⟩ := List.map_eq_cons_iff.mp hothers
    obtain rfl := List.map_eq_nil_iff.mp hnil
    obtain ⟨mark, hsplit, hmark, hzero, -⟩ := exists_comma_of_cuts hcuts
    obtain ⟨hno, hclosed⟩ := hsecond herror
    obtain ⟨rfl, rfl⟩ | ⟨between, rfl, rfl⟩ | ⟨between, -, rfl⟩ :=
      append_cons_eq_append_cons hsplit
    · exact ⟨by omega, herror⟩
    · -- behind a comma in the second type, more brackets are closed than opened
      have hdepth : 1 ≤ nesting between := hE.enclosed.commas between mark second rfl hmark
      have hsum := hE.enclosed.nesting_eq
      rw [nesting_append, nesting_cons, Token.rise_of_comma hmark] at hsum
      rw [Run.level_eq fun t ht => hEclear t (by simp [ht])] at hclosed
      omega
    · rw [hno comma (by simp)] at hcomma
      cases hcomma
  · rintro ⟨harrows, herror⟩
    have huncut : Uncut 0 E := fun before mark after hsplit hmark => by
      rw [(hsecond herror).1 mark (by rw [hsplit]; simp)] at hmark
      cases hmark
    refine ⟨render T, render E, herror, ?_⟩
    exact (map_render_cuts_iff hT hTclear hcomma hEclear).mpr ⟨harrows, (uncut_iff hEclear).mp huncut⟩

/-- The tokens of a result type, its parameters apart. -/
theorem IsResult.resultType?_eq (h : IsResult bracket T E type) (hl : ∀ t ∈ type, t.Legible)
    (hT : SpellsType .single T) (hE : SpellsType .single E) :
    ∃ comma : Token, comma.isOperator "," ∧ (∀ t ∈ T, t.Clear) ∧ (∀ t ∈ E, t.Clear) ∧
      resultType? (some (render type)) =
        some (bracket, (cuts (T ++ comma :: E)).map render) := by
  obtain ⟨n, o, comma, c, close, rfl, hn, hname, hcomma, hb, ho, hc⟩ := h
  simp only [List.forall_mem_cons, List.forall_mem_append] at hl
  obtain ⟨-, -, ⟨hTl, -, hEl⟩, -⟩ := hl
  have hTclear := hT.clear hTl
  have hEclear := hE.clear hEl
  refine ⟨comma, hcomma, hTclear, hEclear, resultType?_render hn hname hb ho hc ?_⟩
  have hmark : comma.Clear := Token.clear_of_isOperator hcomma (by decide)
  exact List.forall_mem_append.mpr ⟨hTclear, List.forall_mem_cons.mpr ⟨hmark, hEclear⟩⟩

end Result

/-! ## The result types of a text -/

/-- **How a result type is read** whose parameters are `T` and `E`. -/
structure ReadAs (bracket : Char) (T E : List Token) (d : Declaration) (sig : Signature) : Prop where
  /-- The parameters are these types if the first has no arrow, and no comma in the second stands as
  deep in brackets as there are arrows before it. -/
  parameters : resultType? sig.returnType = some (bracket, [Run.render T, Run.render E]) ↔
    Run.arrows T = 0 ∧ Run.AtCommas (fun before => Run.nesting before ≠ Run.arrows before) E
  /-- The function is remarked on if the first has no arrow and the second is plain text. -/
  remark : (unstructuredErrorRemark? d sig).isSome ↔
    Run.arrows T = 0 ∧ Run.render E ∈ rawTextTypes

/-- A function is remarked on if two parameters are read, the second of them plain text. -/
theorem isSome_unstructuredErrorRemark?_iff {d : Declaration} {sig : Signature} :
    (unstructuredErrorRemark? d sig).isSome ↔ ∃ bracket value, ∃ error ∈ rawTextTypes,
      resultType? sig.returnType = some (bracket, [value, error]) := by
  unfold unstructuredErrorRemark?
  split
  · rename_i bracket value error h
    rw [h]
    split
    · rename_i hraw
      simpa using hraw
    · rename_i hraw
      simpa using hraw
  · rename_i h
    refine iff_of_false (by simp) ?_
    rintro ⟨bracket, value, error, -, heq⟩
    exact h bracket value error heq

theorem readAs_of_isResult {bracket : Char} {T E type : List Token} {d : Declaration}
    {sig : Signature} (h : IsResult bracket T E type) (hl : ∀ t ∈ type, t.Legible)
    (hT : SpellsType .single T) (hE : SpellsType .single E)
    (hsig : sig.returnType = some (Run.render type)) : ReadAs bracket T E d sig := by
  obtain ⟨comma, hcomma, hTclear, hEclear, hread⟩ := h.resultType?_eq hl hT hE
  rw [← hsig] at hread
  constructor
  case parameters =>
    rw [hread, ← map_render_cuts_iff hT hTclear hcomma hEclear]
    simp
  case remark =>
    rw [isSome_unstructuredErrorRemark?_iff, hread,
      ← mem_rawTextTypes_iff hT hTclear hcomma hE hEclear]
    simp

/-- The comma behind an arrow is not seen, and both parameters pass for one. -/
example : resultType? (some "Result<fn(A) -> B, String>") = some ('<', ["fn(A) -> B, String"]) := by
  decide +kernel

theorem ResultOn.subset {type here : List Token} {result : String} (h : ResultOn type result here) :
    type ⊆ here := by
  obtain ⟨arrow, stop, rfl, -⟩ := h
  intro t ht
  simp [ht]

/-- **Result types are read as their tokens say, up to arrows.** Whatever the path and the text, the
result of a function stands on tokens of the text. If these are a result type, then its parameters
are read and its error is judged as they say, except that an arrow is taken for a closing bracket.
The remarks on these functions are the findings of the rule on unstructured errors. -/
theorem resultTypes_of_text (path text : String) :
    let s := Subject.ofText path text
    let ts := significant (scan text)
    (∀ e sig, (e, sig) ∈ s.functions → ∀ result ∈ sig.returnType,
      (∃ type, StandsIn ts (ResultOn type result)) ∧
      ∀ type, StandsIn ts (ResultOn type result) → ∀ bracket T E, IsResult bracket T E type →
        SpellsType .single T → SpellsType .single E → ReadAs bracket T E e.decl sig) ∧
    unstructuredErrorRule.run s =
      (s.functions.filterMap fun (e, sig) => unstructuredErrorRemark? e.decl sig).map
        (unstructuredErrorRule.finding path) := by
  intro s ts
  refine ⟨fun e sig he result hresult => ⟨?_, ?_⟩, rfl⟩
  · have htypes := typesOn_of_mem (mem_of_mem_functions he)
    obtain ⟨before, here, after, hts, type, hon⟩ :=
      (htypes.result sig (signature?_of_mem_functions he)).exists_of_mem
        (Option.mem_toList.mpr hresult)
    exact ⟨type, before, here, after, hts, hon⟩
  · intro type hstands bracket T E hr hT hE
    have hl := legible_of_standsIn hstands fun _ h => h.subset
    obtain ⟨_, here, _, -, arrow, stop, -, -, -, rfl⟩ := hstands
    exact readAs_of_isResult hr hl hT hE hresult

/-- A function that returns another function, or else plain text. -/
def functionResult : String :=
  "fn f() -> Result<fn(A) -> B, String> \x7b\x7d"

/-- The type of the function that is returned. -/
def functionRun : List Token :=
  [.onLine 17 .keyword "fn", .onLine 19 .operator "(", .onLine 20 .identifier "A",
    .onLine 21 .operator ")", .onLine 23 .operator "->", .onLine 26 .identifier "B"]

/-- The type of the error. -/
def plainRun : List Token :=
  [.onLine 29 .identifier "String"]

theorem spellsType_functionRun : SpellsType .single functionRun :=
  .function (by decide) (.group (A := [.onLine 20 .identifier "A"]) (by decide) (.last (.name rfl))
    (by decide)) (by decide) (.name rfl)

/-- The function is not remarked on although its error is plain text: an arrow stands before it. -/
theorem not_remarked_functionResult :
    ∃ e sig result type, (e, sig) ∈ (Subject.ofText "main.kl" functionResult).functions ∧
      sig.returnType = some result ∧
      StandsIn (significant (scan functionResult)) (ResultOn type result) ∧
      IsResult '<' functionRun plainRun type ∧ Run.render plainRun ∈ rawTextTypes ∧
      unstructuredErrorRemark? e.decl sig = none := by
  have hresults : (Subject.ofText "main.kl" functionResult).functions.map (·.2.returnType) =
      [some "Result<fn(A) -> B, String>"] := by
    decide +kernel
  obtain ⟨⟨e, sig⟩, he, hsig⟩ := List.mem_map.mp (hresults ▸ List.mem_singleton_self _)
  obtain ⟨type, htype⟩ : ∃ type, type = Token.onLine 10 .identifier "Result" ::
      .onLine 16 .operator "<" :: (functionRun ++ .onLine 27 .operator "," :: plainRun ++
        [.onLine 35 .operator ">"]) := ⟨_, rfl⟩
  have hstands : StandsIn (significant (scan functionResult))
      (ResultOn type "Result<fn(A) -> B, String>") := by
    rw [htype]
    exact ⟨(significant (scan functionResult)).take 4, _,
      (significant (scan functionResult)).drop 17, by decide +kernel, .onLine 7 .operator "->",
      .onLine 37 .operator "\x7b", rfl, by decide, by decide, by decide +kernel⟩
  have hresult : IsResult '<' functionRun plainRun type :=
    ⟨_, _, _, _, '>', htype, rfl, rfl, by decide, by decide, by decide, by decide⟩
  have hread := ((resultTypes_of_text "main.kl" functionResult).1 e sig he _ hsig).2 type hstands
    '<' _ _ hresult spellsType_functionRun (.name rfl)
  refine ⟨e, sig, _, type, he, hsig, hstands, hresult, by decide, ?_⟩
  rw [← Option.not_isSome_iff_eq_none]
  exact fun h => absurd (hread.remark.mp h).1 (by decide)

end KlarAudit

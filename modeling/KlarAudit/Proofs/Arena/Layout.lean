import KlarAudit.Proofs.Arena.Laminar
import KlarAudit.Proofs.Grammar.CounterpartForest

/-!
# Layout does not matter

How a text is laid out, and what its comments say, is of no consequence to a reading without issues:
two texts with the same tokens in the same order have the same declarations but for places, and the
same unsafe blocks in the same functions. Imports and implementations are left out, since the
language itself looks at the layout there.

## Main definitions

* `Entry.bare`: an entry of the arena without places and documentation
* `alignment`: the likeness of two token sequences that are written alike
* `unsafeFunctions`: the functions around the unsafe blocks, found among the significant tokens

## Main results

* `map_function_regions`: the unsafe blocks as the significant tokens show them
* `arena_bare_eq`: two layouts of the same tokens have the same arena but for places
-/

namespace KlarAudit

/-- **An entry without places and documentation.** -/
def Entry.bare (e : Entry) : Entry :=
  { e with decl := e.decl.bare }

/-! ## The functions around unsafe blocks -/

/-- The functions around the unsafe blocks among the significant tokens `ts`, in order. -/
def unsafeFunctions (entries : List Entry) : List Token → List (Option Nat)
  | [] => []
  | t :: ts =>
    (if t.is "unsafe" && ts.head?.any (·.is "\x7b") && insideDeclaration entries t.start then
      [innermostFunction? entries t.start]
    else []) ++ unsafeFunctions entries ts

/-- **The unsafe blocks** are found where the significant tokens show them. -/
theorem map_function_unsafeRegionsFrom (entries : List Entry) (limit : Nat)
    (before ts : List Token) : (unsafeRegionsFrom entries limit before ts).map (·.function) =
      unsafeFunctions entries (significant ts) := by
  induction ts generalizing before with
  | nil => rfl
  | cons t ts ih =>
    have hnext : ts.find? (!·.isComment) = (significant ts).head? := List.head?_filter.symm
    rw [unsafeRegionsFrom, List.map_append, ih, hnext]
    cases hc : t.isComment with
    | true =>
      rw [significant_cons_of_comment hc, if_neg (by simp [is_eq_false_of_isComment hc])]
      rfl
    | false =>
      rw [significant_cons hc, unsafeFunctions]
      split <;> rfl

/-- The functions around the unsafe blocks of a text. -/
theorem map_function_regions (text : String) :
    (parse (scan text)).arena.regions.map (·.function) =
      unsafeFunctions (parse (scan text)).arena.entries (significant (scan text)) :=
  map_function_unsafeRegionsFrom _ _ _ _

/-- The bodies of the functions among the entries, each with the index of its function; the first
entry has the given index. -/
def bodies (index : Nat) : List Entry → List (Nat × Span)
  | [] => []
  | e :: entries => (e.decl.body?.map fun s => (index, s)).toList ++ bodies (index + 1) entries

/-- Of two bodies, the one that starts later, the second one of equals. -/
def later (best : Option (Nat × Span)) (b : Nat × Span) : Option (Nat × Span) :=
  match best with
  | none => some b
  | some a => if a.2.start ≤ b.2.start then some b else some a

theorem bodies_append (index : Nat) (entries more : List Entry) :
    bodies index (entries ++ more) =
      bodies index entries ++ bodies (index + entries.length) more := by
  induction entries generalizing index with
  | nil => rfl
  | cons e entries ih =>
    rw [List.cons_append, bodies, bodies, ih, List.append_assoc, List.length_cons,
      Nat.add_assoc, Nat.add_comm 1]

theorem bodies_eq (index : Nat) (entries : List Entry) : bodies index entries =
    ((entries.zipIdx index).map fun (e, i) => (i, e)).filterMap
      fun (i, e) => e.decl.body?.map fun s => (i, s) := by
  induction entries generalizing index with
  | nil => rfl
  | cons e entries ih =>
    rw [bodies, ih, List.zipIdx_cons, List.map_cons, List.filterMap_cons]
    cases hs : e.decl.body? <;> simp [hs]

/-- **The function around an offset** has the body that starts last among those that hold it. -/
theorem innermostFunction?_eq_foldl (entries : List Entry) (offset : Int) :
    innermostFunction? entries offset =
      (((bodies 0 entries).filter fun b => decide (b.2.Holds offset)).foldl later none).map
        (·.1) := by
  rw [bodies_eq]
  rfl

/-! ## Alike arenas -/

/-- **Alike tokens stand in the same order**, their starts and stops compared. -/
structure Likeness.Orderly (L : Likeness) : Prop where
  start_le : ∀ {a a' b b'}, L.tokens a a' → L.tokens b b' →
    (a.start ≤ b.start ↔ a'.start ≤ b'.start)
  lt_stop : ∀ {a a' b b'}, L.tokens a a' → L.tokens b b' →
    (a.start < b.stop ↔ a'.start < b'.stop)

namespace Likeness.Orderly

variable {L : Likeness} (hL : L.Orderly) {entries entries' : List Entry} {t t' : Token}

/-- A body with the index of its function, and its counterpart. -/
def Bodies (L : Likeness) (b b' : Nat × Span) : Prop :=
  b.1 = b'.1 ∧ L.spans b.2 b'.2

theorem bodies_rel (h : List.Forall₂ L.Entries entries entries') (index : Nat) :
    List.Forall₂ (Bodies L) (bodies index entries) (bodies index entries') := by
  induction h generalizing index with
  | nil => exact .nil
  | @cons e e' entries entries' h _ ih =>
    rw [bodies, bodies]
    refine List.rel_append ?_ (ih (index + 1))
    have hbody := h.decl.body
    cases hs : e.decl.body? with
    | none => rw [hs] at hbody; cases hs' : e'.decl.body? <;> simp_all
    | some s =>
      rw [hs] at hbody
      obtain ⟨s', hs', hspans⟩ := exists_of_some_rel hbody
      rw [hs']
      exact .cons ⟨rfl, hspans⟩ .nil

include hL

theorem holds_iff {s s' : Span} (hs : L.spans s s') (ht : L.tokens t t') :
    s.Holds t.start ↔ s'.Holds t'.start := by
  obtain ⟨a, a', b, b', ha, hb, rfl, rfl⟩ := hs
  simp only [Span.Holds, Int.ofNat_le, Int.ofNat_lt, hL.start_le ha ht, hL.lt_stop ht hb]

theorem start_le_iff {s s' r r' : Span} (hs : L.spans s s') (hr : L.spans r r') :
    s.start ≤ r.start ↔ s'.start ≤ r'.start := by
  obtain ⟨a, a', b, b', ha, -, rfl, rfl⟩ := hs
  obtain ⟨c, c', d, d', hc, -, rfl, rfl⟩ := hr
  simp only [Int.ofNat_le, hL.start_le ha hc]

theorem insideDeclaration_eq (h : List.Forall₂ L.Entries entries entries') (ht : L.tokens t t') :
    insideDeclaration entries t.start = insideDeclaration entries' t'.start := by
  induction h with
  | nil => rfl
  | @cons e e' entries entries' h _ ih =>
    have hholds := hL.holds_iff h.decl.span ht
    simp only [insideDeclaration, List.any_cons, h.parent_eq, hholds] at ih ⊢
    rw [ih]

theorem foldl_later_rel {bs bs' : List (Nat × Span)} (h : List.Forall₂ (Bodies L) bs bs')
    {best best' : Option (Nat × Span)} (hbest : Option.Rel (Bodies L) best best') :
    Option.Rel (Bodies L) (bs.foldl later best) (bs'.foldl later best') := by
  induction h generalizing best best' with
  | nil => exact hbest
  | @cons b b' bs bs' hb _ ih =>
    refine ih ?_
    cases hbest with
    | none => exact .some hb
    | some ha =>
      simp only [later, hL.start_le_iff ha.2 hb.2]
      split
      · exact .some hb
      · exact .some ha

/-- The bodies that hold a token are searched in the same order with the same outcome. -/
theorem innermostFunction?_eq (h : List.Forall₂ L.Entries entries entries')
    (ht : L.tokens t t') :
    innermostFunction? entries t.start = innermostFunction? entries' t'.start := by
  have hheld := forall₂_filter (p := fun b => decide (b.2.Holds t.start))
    (q := fun b => decide (b.2.Holds t'.start)) (bodies_rel h 0) fun x y hxy => by
      simp only [hL.holds_iff hxy.2 ht]
  have hlast := hL.foldl_later_rel hheld .none
  rw [innermostFunction?_eq_foldl, innermostFunction?_eq_foldl]
  generalize List.foldl later none _ = best at hlast ⊢
  generalize List.foldl later none _ = best' at hlast ⊢
  cases hlast with
  | none => rfl
  | some h => exact congrArg some h.1

theorem unsafeFunctions_eq (h : List.Forall₂ L.Entries entries entries') {ts ts' : List Token}
    (hts : L.runs ts ts') : unsafeFunctions entries ts = unsafeFunctions entries' ts' := by
  induction hts with
  | nil => rfl
  | @cons t t' ts ts' ht hts ih =>
    have hnext : ts.head?.any (·.is "\x7b") = ts'.head?.any (·.is "\x7b") := by
      cases hts with
      | nil => rfl
      | cons hu _ => simp [Likeness.is_eq hu]
    rw [unsafeFunctions, unsafeFunctions, Likeness.is_eq ht, hnext, hL.insideDeclaration_eq h ht,
      hL.innermostFunction?_eq h ht, ih]

end Likeness.Orderly

/-! ## Two layouts of the same tokens -/

/-- **The likeness of two token sequences** that are written alike: the tokens stand at the same
index. -/
def alignment {ts us : List Token} (h : ts.map Token.written = us.map Token.written) :
    Likeness where
  tokens a b := ∃ i : Nat, ts[i]? = some a ∧ us[i]? = some b
  exact := False
  kind_eq := by
    rintro a b ⟨i, ha, hb⟩
    have hi := congrArg (fun ws => ws[i]?.map (·.1)) h
    simpa [ha, hb, Token.written] using hi
  text_eq := by
    rintro a b ⟨i, ha, hb⟩
    have hi := congrArg (fun ws => ws[i]?.map (·.2)) h
    simpa [ha, hb, Token.written] using hi
  eq_of_exact := False.elim

section Alignment

variable {ts us : List Token} (h : ts.map Token.written = us.map Token.written)

theorem runs_alignment : (alignment h).runs ts us := by
  have hlen : ts.length = us.length := by simpa using congrArg List.length h
  exact List.forall₂_iff_get.mpr ⟨hlen, fun i hi hi' => ⟨i, by simp, by simp⟩⟩

theorem follows_of_forall₂ {L : Likeness} {ls ms : List Lexeme}
    (h : List.Forall₂ L.lexemes ls ms) : L.Follows [] ls ms := by
  induction h with
  | nil => exact .nil
  | cons h _ ih => exact .cons h ih

theorem follows_alignment {ls ms : List Lexeme} (hls : ls.map Lexeme.token = ts)
    (hms : ms.map Lexeme.token = us) : (alignment h).Follows [] ls ms := by
  have hruns : (alignment h).runs (ls.map Lexeme.token) (ms.map Lexeme.token) := by
    rw [hls, hms]
    exact runs_alignment h
  rw [Likeness.runs, List.forall₂_map_left_iff, List.forall₂_map_right_iff] at hruns
  exact follows_of_forall₂ (hruns.imp fun _ _ ht => ⟨ht, False.elim⟩)

/-- Tokens that stand in order are compared like their indices. -/
theorem Ordered.start_le_iff {ts : List Token} (ho : Ordered ts) {i j : Nat} {a b : Token}
    (ha : ts[i]? = some a) (hb : ts[j]? = some b) :
    (a.start ≤ b.start ↔ i ≤ j) ∧ (a.start < b.stop ↔ i ≤ j) := by
  obtain ⟨hi, rfl⟩ := List.getElem?_eq_some_iff.mp ha
  obtain ⟨hj, rfl⟩ := List.getElem?_eq_some_iff.mp hb
  have hapart := List.pairwise_iff_getElem.mp ho.apart
  have hne := ho.nonempty _ (List.getElem_mem hi)
  have hne' := ho.nonempty _ (List.getElem_mem hj)
  rcases Nat.lt_trichotomy i j with hlt | rfl | hlt
  · have := hapart i j hi hj hlt
    omega
  · omega
  · have := hapart j i hj hi hlt
    omega

theorem orderly_alignment (hts : Ordered ts) (hus : Ordered us) : (alignment h).Orderly := by
  constructor <;> rintro a a' b b' ⟨i, ha, ha'⟩ ⟨j, hb, hb'⟩
  · rw [(hts.start_le_iff ha hb).1, (hus.start_le_iff ha' hb').1]
  · rw [(hts.start_le_iff ha hb).2, (hus.start_le_iff ha' hb').2]

end Alignment

/-- Entries that correspond are the same but for places and documentation. -/
theorem map_bare_of_entries {L : Likeness} {entries entries' : List Entry}
    (h : List.Forall₂ L.Entries entries entries') :
    entries.map Entry.bare = entries'.map Entry.bare :=
  forall₂_map_eq h fun e e' he => by
    rw [Entry.bare, Entry.bare, he.decl.agree.1, he.parent_eq, he.members_eq]

/-- **Layout does not matter**: of two texts with the same significant tokens, none of which starts
a declaration that looks at places, the second is read without an issue if the first is, and the two
have the same declarations but for places and documentation, and as many unsafe blocks in the same
functions. -/
theorem arena_bare_eq {x y : String}
    (h : (significant (scan x)).map Token.written = (significant (scan y)).map Token.written)
    (hk : ∀ t ∈ significant (scan x), ¬ t.isKeywordIn placeKeywords)
    (hok : (parse (scan x)).ok) :
    (parse (scan y)).ok ∧
      (parse (scan x)).arena.entries.map Entry.bare =
        (parse (scan y)).arena.entries.map Entry.bare ∧
      (parse (scan x)).arena.regions.map (·.function) =
        (parse (scan y)).arena.regions.map (·.function) := by
  have hi : (topLevel (Lexeme.ofTokens (scan x))).1 = [] := by
    simpa [ParseResult.ok, parse] using hok
  have hfollows := follows_alignment h (Lexeme.map_token_ofTokens (scan x))
    (Lexeme.map_token_ofTokens (scan y))
  have hsuits : (alignment h).Suits (Lexeme.ofTokens (scan x)) := by
    intro l hl hkeyword
    refine absurd hkeyword (hk l.token ?_)
    rw [← Lexeme.map_token_ofTokens]
    exact List.mem_map_of_mem hl
  obtain ⟨trees, extra, htop, hforests, hnone⟩ := topLevel_counterpart hsuits hfollows hi
  -- nothing is added to the second input, so its forest is the counterpart and no more
  obtain ⟨hi', rfl⟩ := hnone rfl
  rw [List.append_nil] at htop
  have hentries : List.Forall₂ (alignment h).Entries (parse (scan x)).arena.entries
      (parse (scan y)).arena.entries := by
    have hflat := DeclTree.entries_of_forests hforests 0 none
    rw [← htop] at hflat
    exact hflat
  refine ⟨by simp [ParseResult.ok, parse, hi'], map_bare_of_entries hentries, ?_⟩
  have horderly := orderly_alignment h (ordered_significant_scan x) (ordered_significant_scan y)
  have hfunctions := horderly.unsafeFunctions_eq hentries (runs_alignment h)
  rw [map_function_regions, map_function_regions]
  exact hfunctions

/-- A structure and a function, each on one line. -/
def closeLayout : String :=
  "struct P \x7b x: u8 \x7d\nfn f(p: &P) -> u8 \x7b unsafe \x7b g(p) \x7d \x7d"

/-- The same tokens on many lines, with comments. -/
def wideLayout : String :=
  "/// A point.\nstruct P\n\x7b\n    x : u8\n\x7d fn f ( p: & P )\n    -> u8 \x7b\n" ++
    "    // SAFETY: none.\n    unsafe \x7b g(\n        p) \x7d\n\x7d\n"

/-- Both layouts are read alike. -/
theorem arena_bare_eq_layouts :
    (parse (scan closeLayout)).ok ∧ (parse (scan wideLayout)).ok ∧
      (parse (scan closeLayout)).arena.entries.map Entry.bare =
        (parse (scan wideLayout)).arena.entries.map Entry.bare ∧
      (parse (scan closeLayout)).arena.regions.map (·.function) = [some 1] ∧
      (parse (scan wideLayout)).arena.regions.map (·.function) = [some 1] := by
  have hok : (parse (scan closeLayout)).ok := by decide +kernel
  have hregions : (parse (scan closeLayout)).arena.regions.map (·.function) = [some 1] := by
    decide +kernel
  obtain ⟨hok', hentries, hfunctions⟩ := arena_bare_eq (x := closeLayout) (y := wideLayout)
    (by decide +kernel) (by decide +kernel) hok
  exact ⟨hok, hok', hentries, hregions, hfunctions ▸ hregions⟩

end KlarAudit

import KlarAudit.Audit.Source
import KlarAudit.Proofs.Arena.Justification
import KlarAudit.Proofs.Arena.Prefix
import KlarAudit.Rule.UnsafeBlock
import Mathlib.Data.List.Nodup

/-!
# The audit of unsafe blocks

Every `unsafe` that an opening brace follows inside a declaration is listed as a block, in the order
of the tokens and once. Only the declarations at the top level are looked at, but a member lies in
the declaration that holds it, so none is missed. A block that the comments above it do not justify
makes one critical finding.

## Main definitions

* `adjacent ts`: the pairs of tokens that stand next to each other
* `Arena.blockKeywords a ts`: the keywords of the unsafe blocks inside declarations
* `Arena.Audited a ts`: the blocks of the arena are exactly those in the tokens

## Main results

* `insideDeclaration_iff`: an offset in any declaration lies in one at the top level
* `exists_of_mem_unsafeRegionsFrom`: what is known of a block and its keyword
* `regions_audited`: the audit of unsafe blocks is complete and exact
-/

namespace KlarAudit

/-- The pairs of tokens that stand next to each other. -/
def adjacent (ts : List Token) : List (Token × Token) :=
  ts.zip ts.tail

/-- **The keywords of the unsafe blocks**: each is followed by an opening brace, comments apart, and
starts inside a declaration of any depth. -/
def Arena.blockKeywords (a : Arena) (ts : List Token) : List Token :=
  ((adjacent (significant ts)).filter fun (t, u) =>
    t.is "unsafe" && u.is "\x7b" && a.entries.any fun e => decide (e.decl.span.Holds t.start)).map
      (·.1)

/-- **The blocks of the arena are audited**: they are the blocks in the tokens, and they are
justified by the comments above them. -/
structure Arena.Audited (a : Arena) (ts : List Token) : Prop where
  /-- There is one block for each keyword, in the order of the tokens. -/
  complete : a.regions.map (·.pos) = (a.blockKeywords ts).map (·.pos)
  /-- No block is listed twice. -/
  ascending : (a.regions.map (·.pos.offset)).Pairwise (· < ·)
  /-- A block starts with its keyword. -/
  start : ∀ r ∈ a.regions, r.span.start = r.pos.offset
  /-- It is justified if the last comments before the keyword justify it. -/
  justified : ∀ r ∈ a.regions, ∀ before t after, ts = before ++ t :: after → t.pos = r.pos →
    (r.justified ↔ Justified before t)

/-! ## Offsets inside declarations -/

/-- An entry below another one stands behind it in the list, and inside it. -/
theorem Nest.exists_outer {lo hi : Int} {entries : List Entry} (h : Nest 0 none lo hi entries)
    {i : Nat} {e : Entry} (he : entries[i]? = some e) :
    e.parent = none ∨ ∃ k f, k < i ∧ entries[k]? = some f ∧ f.decl.span.Encloses e.decl.span := by
  rcases h.under e (List.mem_of_getElem? he) with hnone | ⟨k, f, -, hf, hin⟩
  · exact .inl hnone
  · refine .inr ⟨k, f, ?_, hf, hin⟩
    by_contra hle
    obtain ⟨hi', rfl⟩ := List.getElem?_eq_some_iff.mp he
    obtain ⟨hk', rfl⟩ := List.getElem?_eq_some_iff.mp hf
    have hlt := hin.1
    rcases Nat.lt_or_ge i k with hik | hki
    · have := List.pairwise_iff_getElem.mp h.ascending i k hi' hk' hik
      omega
    · obtain rfl : i = k := by omega
      omega

/-- **An offset in any declaration** lies in one at the top level. -/
theorem insideDeclaration_iff {lo hi : Int} {entries : List Entry}
    (h : Nest 0 none lo hi entries) (offset : Int) :
    insideDeclaration entries offset ↔ ∃ e ∈ entries, e.decl.span.Holds offset := by
  rw [insideDeclaration, List.any_eq_true]
  constructor
  · rintro ⟨e, he, hroot⟩
    simp only [Bool.and_eq_true, decide_eq_true_eq] at hroot
    exact ⟨e, he, hroot.2⟩
  · rintro ⟨e, he, hin⟩
    obtain ⟨i, hi⟩ := List.mem_iff_getElem?.mp he
    -- from the entry outwards, each one around it standing before it in the list
    induction i using Nat.strongRecOn generalizing e with
    | ind i ih =>
      rcases h.exists_outer hi with hnone | ⟨k, f, hk, hf, hencloses⟩
      · exact ⟨e, he, by simp [hnone, hin]⟩
      · refine ih k hk f (List.mem_of_getElem? hf) ?_ hf
        obtain ⟨hstart, hstop⟩ := hencloses
        exact ⟨by have := hin.1; omega, by have := hin.2; omega⟩

/-! ## Blocks and their keywords -/

/-- **A block and its keyword**, with the tokens before it and behind it. -/
theorem exists_of_mem_unsafeRegionsFrom {entries : List Entry} {limit : Nat}
    {before ts : List Token} {r : UnsafeRegion}
    (h : r ∈ unsafeRegionsFrom entries limit before ts) :
    ∃ front t back, ts = front ++ t :: back ∧ t.is "unsafe" ∧
      insideDeclaration entries t.start ∧ (significant back).head?.any (·.is "\x7b") ∧
      r = unsafeRegionAt entries limit (front.reverse ++ before) t (significant back) := by
  induction ts generalizing before with
  | nil => cases h
  | cons t ts ih =>
    rw [unsafeRegionsFrom_cons, List.mem_append] at h
    rcases h with h | h
    · unfold blockAt at h
      split at h
      · rename_i hblock
        simp only [Bool.and_eq_true] at hblock
        obtain ⟨⟨hkeyword, hinside⟩, hopen⟩ := hblock
        exact ⟨[], t, ts, rfl, hkeyword, hinside, hopen, List.mem_singleton.mp h⟩
      · cases h
    · obtain ⟨front, u, back, rfl, hkeyword, hinside, hopen, rfl⟩ := ih h
      exact ⟨t :: front, u, back, rfl, hkeyword, hinside, hopen, by simp⟩

theorem adjacent_cons (t : Token) (ts : List Token) :
    adjacent (t :: ts) = (ts.head?.map (t, ·)).toList ++ adjacent ts := by
  cases ts <;> rfl

/-- Every token but the last one has a token next to it. -/
theorem map_fst_adjacent (ts : List Token) : (adjacent ts).map (·.1) = ts.dropLast := by
  induction ts with
  | nil => rfl
  | cons t ts ih =>
    rw [adjacent_cons, List.map_append, ih]
    cases ts <;> rfl

/-- **The positions of the blocks** are those of their keywords. -/
theorem map_pos_unsafeRegionsFrom (entries : List Entry) (limit : Nat) (before ts : List Token) :
    (unsafeRegionsFrom entries limit before ts).map (·.pos) =
      ((adjacent (significant ts)).filter fun (t, u) =>
        t.is "unsafe" && u.is "\x7b" && insideDeclaration entries t.start).map (·.1.pos) := by
  induction ts generalizing before with
  | nil => rfl
  | cons t ts ih =>
    rw [unsafeRegionsFrom_cons, List.map_append, ih, blockAt]
    cases hc : t.isComment with
    | true =>
      -- a comment is no keyword, and it does not come between two tokens
      rw [significant_cons_of_comment hc, if_neg (by simp [is_eq_false_of_isComment hc])]
      rfl
    | false =>
      rw [significant_cons hc, adjacent_cons, List.filter_append, List.map_append]
      refine congrArg (· ++ _) ?_
      cases (significant ts).head? with
      | none => simp
      | some u =>
        simp only [Option.any_some, Option.map_some, Option.toList_some, Bool.and_right_comm]
        cases hblock : t.is "unsafe" && u.is "\x7b" && insideDeclaration entries t.start with
        | true => simp [hblock, unsafeRegionAt]
        | false => simp [hblock]

/-! ## Tokens by their starts -/

theorem ordered_scan (text : String) : Ordered (scan text) :=
  ⟨fun _ ht => start_lt_stop_of_mem_scan ht, pairwise_scan text⟩

/-- Tokens in order that start at the same offset are the same. -/
theorem Ordered.eq_of_start_eq {ts : List Token} (ho : Ordered ts) {a b : Token} (ha : a ∈ ts)
    (hb : b ∈ ts) (h : a.start = b.start) : a = b := by
  have hnodup : (ts.map Token.start).Nodup :=
    List.pairwise_map.mpr (ho.pairwise_start.imp fun hab => Nat.ne_of_lt hab)
  exact List.inj_on_of_nodup_map hnodup ha hb h

/-- **The keywords come in the order of the tokens.** -/
theorem Arena.sublist_blockKeywords (a : Arena) (ts : List Token) :
    (a.blockKeywords ts).Sublist (significant ts) := by
  refine (List.filter_sublist.map _).trans ?_
  rw [map_fst_adjacent]
  exact List.dropLast_sublist _

/-! ## The audit -/

/-- **The blocks of a text** are audited. -/
theorem audited_scan (text : String) : (parse (scan text)).arena.Audited (scan text) := by
  obtain ⟨hi, hnest⟩ := exists_nest_scan text
  have hinside (offset : Int) : insideDeclaration (parse (scan text)).arena.entries offset =
      (parse (scan text)).arena.entries.any fun e => decide (e.decl.span.Holds offset) := by
    rw [Bool.eq_iff_iff, insideDeclaration_iff hnest]
    simp
  have hcomplete : (parse (scan text)).arena.regions.map (·.pos) =
      ((parse (scan text)).arena.blockKeywords (scan text)).map (·.pos) := by
    rw [Arena.blockKeywords, List.map_map]
    simp only [← hinside]
    exact map_pos_unsafeRegionsFrom _ _ _ _
  constructor
  case complete => exact hcomplete
  case ascending =>
    have hstarts : (parse (scan text)).arena.regions.map (·.pos.offset) =
        ((parse (scan text)).arena.blockKeywords (scan text)).map Token.start := by
      have hoffsets := congrArg (List.map Position.offset) hcomplete
      rwa [List.map_map, List.map_map] at hoffsets
    rw [hstarts, List.pairwise_map]
    exact ((ordered_significant_scan text).pairwise_start).sublist (Arena.sublist_blockKeywords _ _)
  case start =>
    intro r hr
    obtain ⟨front, t, back, -, -, -, -, rfl⟩ := exists_of_mem_unsafeRegionsFrom hr
    rfl
  case justified =>
    intro r hr before t after hsplit hpos
    obtain ⟨front, u, back, hfront, -, -, -, rfl⟩ := exists_of_mem_unsafeRegionsFrom hr
    obtain rfl : t = u := by
      refine (ordered_scan text).eq_of_start_eq ?_ ?_ (congrArg Position.offset hpos)
      · simp [hsplit]
      · simp [hfront]
    -- a token of the text stands at one place, so the tokens before it are those of the look-back
    have ho := ordered_scan text
    rw [hsplit] at ho hfront
    obtain ⟨rfl, -⟩ := ho.append_cons_inj hfront
    have hlines := pairwise_endLine_scan text
    rw [hsplit] at hlines
    rw [← justified_iff (List.pairwise_append.mp hlines).1, unsafeRegionAt, List.append_nil]

/-- **One critical finding for each block that is not justified**, where its keyword stands. -/
theorem map_run_safetyCommentRule (path text : String) :
    (safetyCommentRule.run (Subject.ofText path text)).map
        (fun f => (f.rule, f.severity, f.file, f.line, f.column)) =
      ((parse (scan text)).arena.regions.filter (!·.justified)).map fun r =>
        ("unsafe.missing-safety-comment", .critical, path, (r.pos.line : Int),
          (r.pos.column : Int)) := by
  simp only [Rule.run, safetyCommentRule, Emission.all, List.map_map]
  rfl

/-- **The audit of unsafe blocks is complete and exact**, for every text: the blocks are those in
the tokens, a comment justifies by how it is written, and each block without justification makes one
critical finding. -/
theorem regions_audited (text : String) :
    (parse (scan text)).arena.Audited (scan text) ∧
    (∀ t ∈ scan text, t.isSafetyComment ↔
      ∃ mark ∈ commentMarks, ∃ blanks rest, (∀ b ∈ blanks, Text.isBlank b) ∧
        t.text.toList = mark.toList ++ (blanks ++ ("SAFETY:".toList ++ rest))) ∧
    ∀ path, (safetyCommentRule.run (Subject.ofText path text)).map
        (fun f => (f.rule, f.severity, f.file, f.line, f.column)) =
      ((parse (scan text)).arena.regions.filter (!·.justified)).map fun r =>
        ("unsafe.missing-safety-comment", .critical, path, (r.pos.line : Int),
          (r.pos.column : Int)) :=
  ⟨audited_scan text, fun _ ht => isSafetyComment_iff ht, fun path =>
    map_run_safetyCommentRule path text⟩

end KlarAudit

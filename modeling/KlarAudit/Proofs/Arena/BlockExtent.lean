import KlarAudit.Proofs.Arena.FunctionBody
import KlarAudit.Proofs.Arena.UnsafeAudit

/-!
# The extents of unsafe blocks

The end of an unsafe block is found by counting braces through the rest of the file, and the body of
a function by keeping a stack of all brackets. Since the brackets of a body pair up, counting finds
the partner of the brace that opens the block, so a block in a function lies in its body, and its
blocks are nested or apart.

## Main definitions

* `UnsafeRegion.StartsAt r ts before keyword opener more`: where a block starts in the tokens `ts`
* `UnsafeRegion.ClosesAt r ts before keyword opener inner closer rest`: where it is closed
* `Arena.Bracketed a ts`: the blocks of the arena are brackets in the bodies of their functions

## Main results

* `exists_closer`: in a well-nested run, an opening bracket has a partner
* `braceEnd_of_closer`: counting braces finds the partner of an opening brace
* `regions_bracketed`: the blocks of a text are brackets in the bodies of their functions
-/

namespace KlarAudit

/-! ## The partner of an opening bracket -/

/-- The bracket `o` below the open brackets `xs` is closed, if fewer brackets are open at the end
than below it. -/
theorem exists_closer_of_nestAll {xs stack out ts : List Token} {o : Token} {d : Delimiter}
    (ho : o.opens? = some d) (h : nestAll (xs ++ o :: stack) ts = some out)
    (hlen : out.length ≤ stack.length) :
    ∃ inner c after, ts = inner ++ c :: after ∧ nestAll xs inner = some [] ∧
      c.closes? = some d := by
  induction ts generalizing xs with
  | nil =>
    cases h
    simp only [List.length_append, List.length_cons] at hlen
    omega
  | cons t ts ih =>
    obtain ⟨mid, hm, h⟩ := Option.bind_eq_some_iff.mp h
    rcases nest_cases hm with ⟨d', hd, rfl⟩ | ⟨hopen, hclose, rfl⟩ | ⟨d', o', -, hclose, hd, hstack⟩
    · -- an opening bracket is closed before `o` is
      have h : nestAll ((t :: xs) ++ o :: stack) ts = some out := h
      obtain ⟨inner, c, after, rfl, hinner, hc⟩ := ih h
      refine ⟨t :: inner, c, after, rfl, ?_, hc⟩
      rw [nestAll_cons, nest_of_opens? hd]
      exact hinner
    · obtain ⟨inner, c, after, rfl, hinner, hc⟩ := ih h
      refine ⟨t :: inner, c, after, rfl, ?_, hc⟩
      rw [nestAll_cons, nest_of_plain hopen hclose]
      exact hinner
    · -- a closing bracket closes `o` if nothing is open above it
      cases xs with
      | nil =>
        obtain ⟨rfl, rfl⟩ := List.cons.inj hstack
        refine ⟨[], t, ts, rfl, rfl, ?_⟩
        rw [hclose, ← hd, ho]
      | cons x xs =>
        obtain ⟨rfl, rfl⟩ := List.cons.inj hstack
        obtain ⟨inner, c, after, rfl, hinner, hc⟩ := ih h
        refine ⟨t :: inner, c, after, rfl, ?_, hc⟩
        rw [nestAll_cons, nest_of_closes? hclose hd]
        exact hinner

/-- **An opening bracket has a partner** in a well-nested run, and what stands between the two is
well nested. -/
theorem exists_closer {before ts : List Token} {o : Token} {d : Delimiter}
    (ho : o.opens? = some d) (hw : WellNested (before ++ o :: ts)) :
    ∃ inner c after, ts = inner ++ c :: after ∧ WellNested inner ∧ c.closes? = some d := by
  rw [WellNested, nestAll_append] at hw
  obtain ⟨stack, -, hw⟩ := Option.bind_eq_some_iff.mp hw
  rw [nestAll_cons, nest_of_opens? ho] at hw
  have hnest : nestAll ([] ++ o :: stack) ts = some [] := hw
  exact exists_closer_of_nestAll ho hnest (Nat.zero_le _)

/-- A well-nested run between two partners is well nested with them. -/
theorem WellNested.enclose {inner : List Token} (h : WellNested inner) {o c : Token}
    {d : Delimiter} (ho : o.opens? = some d) (hc : c.closes? = some d) :
    WellNested (o :: (inner ++ [c])) := by
  have hinner : nestAll [o] inner = some [o] := nestAll_append_stack h [o]
  rw [WellNested, nestAll_cons, nest_of_opens? ho, Option.bind_some, nestAll_append, hinner,
    Option.bind_some, nestAll_cons, nest_of_closes? hc ho]
  rfl

/-! ## Counting braces -/

/-- Counting goes over a run that closes no brace of the group. -/
theorem braceEnd_skip {ts : List Token} (hg : ∀ t ∈ ts, t.Genuine) {k m : Nat}
    (h : bracesAfter k ts = some m) (limit : Nat) (us : List Token) :
    braceEnd limit (k + 1) (ts ++ us) = braceEnd limit (m + 1) us := by
  -- the two counts go together, and `h` rules out a closing brace at depth zero
  induction ts generalizing k with
  | nil =>
    cases h
    rfl
  | cons t ts ih =>
    obtain ⟨ht, hg⟩ := List.forall_mem_cons.mp hg
    rw [bracesAfter_cons, countBrace, ← ht.is_eq_isOperator (by decide +kernel),
      ← ht.is_eq_isOperator (by decide +kernel)] at h
    rw [List.cons_append, braceEnd]
    split
    · rename_i ho
      rw [if_pos ho] at h
      exact ih hg h
    · rename_i ho
      rw [if_neg ho] at h
      split
      · rename_i hc
        rw [if_pos hc] at h
        split at h
        · cases h
        · rename_i hk
          obtain ⟨k, rfl⟩ := Nat.exists_eq_succ_of_ne_zero hk
          rw [if_neg (by omega)]
          exact ih hg h
      · rename_i hc
        rw [if_neg hc] at h
        exact ih hg h

theorem Token.is_opener {t : Token} {d : Delimiter} (h : t.opens? = some d) : t.is d.opener := by
  obtain ⟨hkind, htext⟩ := opens?_eq_some_iff.mp h
  simp [is, hkind, htext, TokenKind.isStructural]

theorem Token.is_closer {t : Token} {d : Delimiter} (h : t.closes? = some d) : t.is d.closer := by
  obtain ⟨hkind, htext⟩ := closes?_eq_some_iff.mp h
  simp [is, hkind, htext, TokenKind.isStructural]

/-- A token has one text. -/
theorem Token.eq_of_is {t : Token} {a b : String} (ha : t.is a) (hb : t.is b) : a = b :=
  (Token.text_of_is ha).symm.trans (Token.text_of_is hb)

/-- **Counting braces finds the partner** of the brace that opens a group. -/
theorem braceEnd_of_closer {inner : List Token} (hg : ∀ t ∈ inner, t.Genuine)
    (hw : WellNested inner) {o c : Token} (ho : o.is "\x7b") (hc : c.closes? = some .brace)
    (limit : Nat) (us : List Token) :
    braceEnd limit 0 (o :: (inner ++ c :: us)) = c.stop := by
  have hinner : bracesAfter 0 inner = some 0 := bracesAfter_of_nestAll hw
  have hclose : c.is "\x7d" := Token.is_closer hc
  have hopen : c.is "\x7b" = false := by
    rw [Bool.eq_false_iff]
    intro h
    exact absurd (Token.eq_of_is hclose h) (by decide)
  rw [braceEnd, if_pos ho, braceEnd_skip hg hinner, braceEnd, hopen, hclose]
  rfl

/-! ## Where blocks start and end -/

/-- The tokens that lie in the extent of a stretch are those of the stretch. -/
theorem Ordered.filter_covers {front here after : List Token} {s : Span}
    (ho : Ordered (front ++ (here ++ after))) (hs : Extent here s) :
    (front ++ (here ++ after)).filter (fun t => decide (s.Covers t.span)) = here := by
  have hhere : here.filter (fun t => decide (s.Covers t.span)) = here :=
    List.filter_eq_self.mpr fun t ht => decide_eq_true (ho.right.left.covers hs ht)
  obtain ⟨a, b, ha, hb, rfl⟩ := hs
  have ha := List.mem_of_mem_head? ha
  have hb := List.mem_of_mem_getLast? hb
  -- what stands before or behind the stretch is not empty, so the extent does not cover it
  have hfront : front.filter (fun t => decide ((⟨a.start, b.stop⟩ : Span).Covers t.span)) = [] := by
    refine List.filter_eq_nil_iff.mpr fun t ht hin => ?_
    have hbefore := ho.across ht (List.mem_append_left after ha)
    have hlt := ho.nonempty t (List.mem_append_left _ ht)
    have hstart := Int.ofNat_le.mp (of_decide_eq_true hin).1
    omega
  have hafter : after.filter (fun t => decide ((⟨a.start, b.stop⟩ : Span).Covers t.span)) = [] := by
    refine List.filter_eq_nil_iff.mpr fun t ht hin => ?_
    have hbehind := ho.right.across hb ht
    have hlt := ho.right.right.nonempty t ht
    have hstop := Int.ofNat_le.mp (of_decide_eq_true hin).2
    omega
  rw [List.filter_append, List.filter_append, hfront, hhere, hafter, List.append_nil,
    List.nil_append]

/-- **A block starts** with a keyword and an opening brace, and it ends where counting braces from
there on ends. -/
structure UnsafeRegion.StartsAt (r : UnsafeRegion) (ts before : List Token)
    (keyword opener : Token) (more : List Token) : Prop where
  /-- The keyword and the brace stand next to each other. -/
  split : ts = before ++ keyword :: opener :: more
  /-- The keyword. -/
  keyword_is : keyword.is "unsafe"
  /-- The opening brace. -/
  opener_is : opener.is "\x7b"
  /-- The extent of the block. -/
  span : ∃ limit, r.span = ⟨keyword.start, braceEnd limit 0 (opener :: more)⟩

/-- Every block of a text starts in its significant tokens, inside its function. -/
theorem exists_startsAt {text : String} {r : UnsafeRegion}
    (hr : r ∈ (parse (scan text)).arena.regions) :
    r.function = innermostFunction? (parse (scan text)).arena.entries r.span.start ∧
      ∃ before keyword opener more,
        r.StartsAt (significant (scan text)) before keyword opener more := by
  obtain ⟨front, t, back, hsplit, hkeyword, -, hopen, rfl⟩ := exists_of_mem_unsafeRegionsFrom hr
  have hsignificant := significant_append_cons hkeyword front back
  rw [← hsplit] at hsignificant
  cases hback : significant back with
  | nil =>
    rw [hback] at hopen
    cases hopen
  | cons u more =>
    rw [hback] at hopen hsignificant
    exact ⟨rfl, _, t, u, more, hsignificant, hkeyword, hopen, _, rfl⟩

/-- **A block is closed** by the partner of its opening brace. -/
structure UnsafeRegion.ClosesAt (r : UnsafeRegion) (ts before : List Token)
    (keyword opener : Token) (inner : List Token) (closer : Token) (rest : List Token) : Prop where
  /-- The block starts with the keyword and the opening brace. -/
  starts : r.StartsAt ts before keyword opener (inner ++ closer :: rest)
  /-- What stands between the braces is well nested. -/
  nested : WellNested inner
  /-- The closing brace. -/
  closes : closer.closes? = some .brace

namespace UnsafeRegion

variable {r r' : UnsafeRegion} {ts before before' inner more more' rest : List Token}
  {keyword keyword' opener opener' closer : Token}

/-- A block ends with the brace that closes it. -/
theorem ClosesAt.span_eq (h : r.ClosesAt ts before keyword opener inner closer rest)
    (hg : ∀ t ∈ ts, t.Genuine) : r.span = ⟨keyword.start, closer.stop⟩ := by
  obtain ⟨limit, hspan⟩ := h.starts.span
  have hinner : ∀ t ∈ inner, t.Genuine := by
    intro t ht
    refine hg t ?_
    rw [h.starts.split]
    simp [ht]
  rw [hspan, braceEnd_of_closer hinner h.nested h.starts.opener_is h.closes]

/-- The opening brace of a block is a bracket. -/
theorem StartsAt.opens?_eq (h : r.StartsAt ts before keyword opener more)
    (hg : ∀ t ∈ ts, t.Genuine) : opener.opens? = some .brace := by
  refine (hg opener ?_).opens?_of_is h.opener_is
  rw [h.split]
  simp

/-- **A block in a well-nested run** is closed in the run. -/
theorem StartsAt.exists_closesAt {front run after : List Token}
    (h : r.StartsAt ts before keyword opener (run ++ after)) (hg : ∀ t ∈ ts, t.Genuine)
    (hw : WellNested (front ++ opener :: run)) :
    ∃ inner closer rest, run = inner ++ closer :: rest ∧
      r.ClosesAt ts before keyword opener inner closer (rest ++ after) := by
  obtain ⟨inner, closer, rest, rfl, hinner, hcloser⟩ := exists_closer (h.opens?_eq hg) hw
  rw [List.append_assoc, List.cons_append] at h
  exact ⟨inner, closer, rest, rfl, h, hinner, hcloser⟩

/-- **A block that starts in a body** is closed in it. -/
theorem StartsAt.covers_of_bodyOn {front here after : List Token} {s : Span}
    (h : r.StartsAt ts before keyword opener more) (hts : ts = front ++ (here ++ after))
    (ho : Ordered ts) (hg : ∀ t ∈ ts, t.Genuine) (hbody : BodyOn here s)
    (hin : s.Holds keyword.start) :
    ∃ inner closer rest, r.ClosesAt ts before keyword opener inner closer rest ∧
      s.Covers r.span := by
  have hmem : keyword ∈ here := by
    rw [hts] at ho
    refine ho.mem_of_holds hbody.extent ?_ hin
    rw [← hts, h.split]
    simp
  obtain ⟨h₁, h₂, rfl⟩ := List.append_of_mem hmem
  cases h₂ with
  | nil =>
    -- the last token of a body is no keyword
    have hlast := (hbody.terminal keyword (by simp)).is_unsafe_eq_false
    rw [h.keyword_is] at hlast
    cases hlast
  | cons u run =>
    have hsame : before ++ keyword :: opener :: more =
        (front ++ h₁) ++ keyword :: (u :: run ++ after) := by
      rw [← h.split, hts]
      simp
    have ho' := ho
    rw [h.split] at ho'
    obtain ⟨rfl, rfl⟩ := List.cons.inj (ho'.append_cons_inj hsame).2
    have hw : WellNested ((h₁ ++ [keyword]) ++ opener :: run) := by
      rw [List.append_assoc]
      refine wellNested_iff_shifts.mpr (hbody.nested fun t ht => hg t ?_)
      rw [hts]
      exact List.mem_append_right _ (List.mem_append_left _ ht)
    obtain ⟨inner, closer, rest, rfl, hcloses⟩ := h.exists_closesAt hg hw
    refine ⟨inner, closer, rest ++ after, hcloses, ?_⟩
    rw [hcloses.span_eq hg]
    rw [hts] at ho
    exact ⟨(ho.right.left.covers hbody.extent hmem).1,
      (ho.right.left.covers hbody.extent (by simp)).2⟩

/-- A block that starts between the braces of another one is closed there. -/
theorem ClosesAt.covers_of_mem (h : r.ClosesAt ts before keyword opener inner closer rest)
    (h' : r'.StartsAt ts before' keyword' opener' more') (ho : Ordered ts)
    (hg : ∀ t ∈ ts, t.Genuine) (hmem : keyword' ∈ inner) : r.span.Covers r'.span := by
  have hblock : Ordered ((keyword :: opener :: inner) ++ closer :: rest) := by
    rw [h.starts.split] at ho
    exact ho.right
  obtain ⟨p, q, rfl⟩ := List.append_of_mem hmem
  have hnext : opener' :: more' = q ++ closer :: rest := by
    have hsame : before' ++ keyword' :: opener' :: more' =
        (before ++ keyword :: opener :: p) ++ keyword' :: (q ++ closer :: rest) := by
      rw [← h'.split, h.starts.split]
      simp
    rw [h'.split] at ho
    exact (ho.append_cons_inj hsame).2
  cases q with
  | nil =>
    -- the keyword is followed by an opening brace, not by the closing one
    obtain ⟨rfl, -⟩ := List.cons.inj hnext
    exact absurd (Token.eq_of_is h'.opener_is (Token.is_closer h.closes)) (by decide)
  | cons u run =>
    obtain ⟨rfl, rfl⟩ := List.cons.inj hnext
    have hnested : WellNested ((p ++ [keyword']) ++ opener' :: run) := by
      rw [List.append_assoc]
      exact h.nested
    obtain ⟨inner', closer', rest', rfl, hcloses'⟩ := h'.exists_closesAt hg hnested
    rw [h.span_eq hg, hcloses'.span_eq hg]
    have hstart := (List.pairwise_cons.mp hblock.left.apart).1 keyword' (by simp)
    have hkeyword := hblock.nonempty keyword (by simp)
    have hstop : closer'.stop ≤ closer.start := hblock.across (by simp) (by simp)
    have hcloser := hblock.nonempty closer (by simp)
    exact ⟨Int.ofNat_le.mpr (by omega), Int.ofNat_le.mpr (by omega)⟩

/-- **Of two blocks**, the second one lies in the first one or starts behind it. -/
theorem ClosesAt.covers_or_le (h : r.ClosesAt ts before keyword opener inner closer rest)
    (h' : r'.StartsAt ts before' keyword' opener' more') (ho : Ordered ts)
    (hg : ∀ t ∈ ts, t.Genuine) (hle : keyword.start ≤ keyword'.start) :
    r.span.Covers r'.span ∨ r.span.stop ≤ r'.span.start := by
  have hsplit := ho
  rw [h.starts.split] at hsplit
  have hmem : keyword' ∈ before ++ keyword :: opener :: (inner ++ closer :: rest) := by
    rw [← h.starts.split, h'.split]
    simp
  -- the second keyword does not come before the first one; either it is the first one, or it stands
  -- between the braces, or behind them, for it is no brace itself
  simp only [List.mem_append, List.mem_cons] at hmem
  rcases hmem with hmem | rfl | rfl | hmem | rfl | hmem
  · have hacross := hsplit.across hmem List.mem_cons_self
    have hlt := hsplit.nonempty keyword' (by simp [hmem])
    omega
  · -- the two blocks start with the same keyword
    have hsame : before' ++ keyword' :: opener' :: more' =
        before ++ keyword' :: opener :: (inner ++ closer :: rest) :=
      h'.split.symm.trans h.starts.split
    rw [h'.split] at ho
    obtain ⟨rfl, rfl⟩ := List.cons.inj (ho.append_cons_inj hsame).2
    have hcloses' : r'.ClosesAt ts before' keyword' opener' inner closer rest :=
      ⟨h', h.nested, h.closes⟩
    rw [h.span_eq hg, hcloses'.span_eq hg]
    exact .inl (Span.Covers.refl _)
  · exact absurd (Token.eq_of_is h.starts.opener_is h'.keyword_is) (by decide)
  · exact .inl (h.covers_of_mem h' ho hg hmem)
  · exact absurd (Token.eq_of_is (Token.is_closer h.closes) h'.keyword_is) (by decide)
  · right
    obtain ⟨limit, hspan'⟩ := h'.span
    rw [h.span_eq hg, hspan']
    have hbehind : Ordered ((keyword :: opener :: (inner ++ [closer])) ++ rest) := by
      simpa using hsplit.right
    exact Int.ofNat_le.mpr (hbehind.across (by simp) hmem)

/-- **The tokens of a block** are the keyword, the two braces and what stands between them. -/
theorem ClosesAt.filter_covers (h : r.ClosesAt ts before keyword opener inner closer rest)
    (ho : Ordered ts) (hg : ∀ t ∈ ts, t.Genuine) :
    ts.filter (fun t => decide (r.span.Covers t.span)) =
      keyword :: opener :: (inner ++ [closer]) := by
  have hsplit : ts = before ++ ((keyword :: opener :: (inner ++ [closer])) ++ rest) := by
    rw [h.starts.split]
    simp
  have hextent : Extent (keyword :: opener :: (inner ++ [closer])) r.span := by
    rw [h.span_eq hg]
    exact Extent.cons keyword (by rw [← List.cons_append, List.getLast?_concat])
  rw [hsplit] at ho ⊢
  exact ho.filter_covers hextent

end UnsafeRegion

/-! ## The blocks of a text -/

/-- **The blocks of the arena are brackets** in the tokens `ts` and in the bodies of their
functions. -/
structure Arena.Bracketed (a : Arena) (ts : List Token) : Prop where
  /-- The function of a block is the one that the look-up finds around its start. -/
  function : ∀ r ∈ a.regions, r.function = (a.enclosingFunction? r.span.start).map (·.1)
  /-- A block lies in the body of its function. -/
  body : ∀ r ∈ a.regions, ∀ f ∈ r.function,
    ∃ e s, a.entries[f]? = some e ∧ e.decl.body? = some s ∧ s.Covers r.span
  /-- Behind its keyword, a block in a function is a brace, a well-nested run and the brace that
  closes the first one. -/
  tokens : ∀ r ∈ a.regions, r.function.isSome → ∃ keyword opener inner closer,
    (significant ts).filter (fun t => decide (r.span.Covers t.span)) =
      keyword :: opener :: (inner ++ [closer]) ∧
    keyword.is "unsafe" ∧ opener.is "\x7b" ∧ closer.is "\x7d" ∧ WellNested inner ∧
    WellNested (opener :: (inner ++ [closer]))
  /-- Two blocks of one function are nested or apart. -/
  laminar : ∀ r ∈ a.regions, ∀ r' ∈ a.regions, ∀ f ∈ r.function, r'.function = some f →
    r.span.Covers r'.span ∨ r'.span.Covers r.span ∨ ¬ r.span.Overlaps r'.span

/-- **A block in a function** lies in its body, and it is closed there. -/
theorem exists_closesAt_of_function {text : String} {r : UnsafeRegion} {f : Nat}
    (hr : r ∈ (parse (scan text)).arena.regions) (hf : r.function = some f) :
    ∃ e s, (parse (scan text)).arena.entries[f]? = some e ∧ e.decl.body? = some s ∧
      s.Covers r.span ∧ ∃ before keyword opener inner closer rest,
        r.ClosesAt (significant (scan text)) before keyword opener inner closer rest := by
  have ho := ordered_significant_scan text
  have hg := genuine_ofTokens_scan text
  rw [Lexeme.map_token_ofTokens] at hg
  obtain ⟨hfunction, before, keyword, opener, more, hstarts⟩ := exists_startsAt hr
  obtain ⟨limit, hspan⟩ := hstarts.span
  rw [hfunction, hspan] at hf
  have hbodies := bodiesOn_scan text
  obtain ⟨s, hs, hin⟩ := exists_body_of_innermostFunction? (hbodies.apart ho) hf
  obtain ⟨front, here, after, htokens, hbody⟩ := hbodies.exists_of_mem hs
  obtain ⟨inner, closer, rest, hcloses, hcovers⟩ :=
    hstarts.covers_of_bodyOn htokens ho hg hbody hin
  obtain ⟨e, he, hes⟩ := mem_bodies_iff.mp hs
  exact ⟨e, s, he, hes, hcovers, before, keyword, opener, inner, closer, rest, hcloses⟩

/-- **The blocks of a text are brackets** in the bodies of their functions, and the two searches for
these functions agree. -/
theorem regions_bracketed (text : String) :
    (parse (scan text)).arena.Bracketed (scan text) := by
  have ho := ordered_significant_scan text
  have hg := genuine_ofTokens_scan text
  rw [Lexeme.map_token_ofTokens] at hg
  constructor
  case function =>
    intro r hr
    rw [(exists_startsAt hr).1]
    exact innermostFunction?_eq ((bodiesOn_scan text).apart ho) _
  case body =>
    intro r hr f hf
    obtain ⟨e, s, he, hs, hcovers, -⟩ := exists_closesAt_of_function hr hf
    exact ⟨e, s, he, hs, hcovers⟩
  case tokens =>
    intro r hr hsome
    obtain ⟨f, hf⟩ := Option.isSome_iff_exists.mp hsome
    obtain ⟨-, -, -, -, -, before, keyword, opener, inner, closer, rest, hcloses⟩ :=
      exists_closesAt_of_function hr hf
    exact ⟨keyword, opener, inner, closer, hcloses.filter_covers ho hg,
      hcloses.starts.keyword_is, hcloses.starts.opener_is, Token.is_closer hcloses.closes,
      hcloses.nested, hcloses.nested.enclose (hcloses.starts.opens?_eq hg) hcloses.closes⟩
  case laminar =>
    intro r hr r' hr' f hf hf'
    have apart {s t : Span} (h : s.stop ≤ t.start) : ¬ s.Overlaps t := fun hover =>
      absurd hover.2 (Int.not_lt.mpr h)
    obtain ⟨-, -, -, -, -, _, keyword, _, _, _, _, hcloses⟩ := exists_closesAt_of_function hr hf
    obtain ⟨-, -, -, -, -, _, keyword', _, _, _, _, hcloses'⟩ :=
      exists_closesAt_of_function hr' hf'
    -- the block that starts later is inside the other one or behind it
    rcases Nat.le_total keyword.start keyword'.start with hle | hle
    · rcases hcloses.covers_or_le hcloses'.starts ho hg hle with hcovers | hbehind
      · exact .inl hcovers
      · exact .inr (.inr (apart hbehind))
    · rcases hcloses'.covers_or_le hcloses.starts ho hg hle with hcovers | hbehind
      · exact .inr (.inl hcovers)
      · exact .inr (.inr fun hover => apart hbehind hover.symm)

/-- A function with a block in a block, and one behind them. -/
example :
    let arena := (parse (scan
      "fn f() \x7b unsafe \x7b unsafe \x7b \x7d \x7d unsafe \x7b \x7d \x7d")).arena
    arena.regions.map (fun r => (r.span, r.function)) =
      [(⟨9, 30⟩, some 0), (⟨18, 28⟩, some 0), (⟨31, 41⟩, some 0)] := by
  decide +kernel

end KlarAudit

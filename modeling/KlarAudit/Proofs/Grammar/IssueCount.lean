import KlarAudit.Proofs.Arena.Laminar
import KlarAudit.Proofs.Grammar.IssueCharge
import KlarAudit.Proofs.Grammar.OriginForest
import Mathlib.Algebra.Group.Nat.Defs
import Mathlib.Data.List.Basic

/-!
# How many issues there can be

The issues that are recorded inside a declaration which cannot be read stay recorded, and its input
is read again from a later token on. So each level of nesting can double the issues, and no token
more than doubles them. The issues of a text are accounted for token by token, which shows where
reading goes back and when there are more issues than tokens.

## Main definitions

* `Ledger text cs`: what the charges `cs` say of the issues of a text
* `unclosed line k`: modules inside one another that are never closed

## Main results

* `length_issues_item_lt`, `length_issues_topLevel_lt`: the issues double at most with every token
* `Charge.Sound.exists_place`: an issue lies at the token it is charged to or behind it
* `Within.dropped_iff`: reading goes back exactly behind the dropped issues
* `issues_charged`: the issues of a text, charged to its tokens and counted
* `exists_two_pow_issues`: four tokens can be enough to double the issues
-/

namespace KlarAudit

/-! ## The issues double at most with every token -/

theorem lt_two_pow_pred {n : Nat} (hn : 0 < n) : n ≤ 2 ^ (n - 1) := by
  have := Nat.lt_two_pow_self (n := n - 1)
  omega

/-- A member and what follows it take up the room of one more token. -/
theorem add_lt_two_pow {a b n m : Nat} (ha : a < 2 ^ (n - 1)) (hb : b < 2 ^ m) (hm : m < n) :
    a + b + 1 < 2 ^ n := by
  have hle : 2 ^ m ≤ 2 ^ (n - 1) := Nat.pow_le_pow_right (by omega) (by omega)
  have htwo : 2 ^ n = 2 * 2 ^ (n - 1) := by
    rw [← Nat.pow_succ']
    congr 1
    omega
  omega

/-- **The issues recorded while a declaration is read**, whether it can be read or not, double at
most with every token. -/
theorem length_issues_item_lt :
    (∀ byPlace ls, (item byPlace ls).issues.length < 2 ^ (ls.length - 1)) ∧
    ∀ first byPlace ls, (members first byPlace ls).issues.length < 2 ^ ls.length := by
  have hopening (byPlace : Bool) (ls : List Lexeme) :
      (opening byPlace ls).issues.length < 2 ^ (ls.length - 1) := by
    by_cases hls : ls = []
    · rw [hls]
      exact Nat.one_pos
    · have := length_issues_opening_lt byPlace hls
      have := lt_two_pow_pred (List.length_pos_iff.mpr hls)
      omega
  refine forest_induction ?failed ?complete ?block ?nil ?close ?member ?ended ?skipped
  case failed =>
    intro byPlace ls e h
    rw [item_of_error h]
    exact hopening byPlace ls
  case complete =>
    intro byPlace ls d rest h
    rw [item_of_complete h]
    exact hopening byPlace ls
  case block =>
    intro byPlace ls b rest h ih
    have hshorter := opening_shorter h
    -- the body is shorter by the heading, so that the bound of a body suffices
    rw [item_of_block h, (opening_of_block h).2, List.nil_append]
    exact Nat.lt_of_lt_of_le ih (Nat.pow_le_pow_right (by omega) (by omega))
  case nil =>
    intro first byPlace
    rw [members]
    exact Nat.one_pos
  case close =>
    intro first byPlace l tail hl
    rw [members_of_close hl]
    exact Nat.two_pow_pos _
  case member =>
    intro first byPlace l tail r hl hr ihItem ihBody
    have := add_lt_two_pow ihItem ihBody r.shorter
    rw [members_of_item hl hr, List.length_append]
    omega
  case ended =>
    intro first byPlace l tail e hl he hs ihItem
    rw [members_of_end hl he hs]
    exact Nat.lt_of_lt_of_le ihItem (Nat.pow_le_pow_right (by omega) (Nat.sub_le _ _))
  case skipped =>
    intro first byPlace l tail e rest hl he hs ihItem ihBody
    have hrest : rest.length < (l :: tail).length := Nat.lt_succ_of_le (length_resyncInBody_le hs)
    have := add_lt_two_pow ihItem ihBody hrest
    rw [members_of_resync hl he hs, List.length_append, List.length_cons]
    omega

/-- **The issues of a file** double at most with every token. -/
theorem length_issues_topLevel_lt (ls : List Lexeme) :
    (topLevel ls).1.length < 2 ^ ls.length := by
  induction ls using topLevel_induction with
  | nil =>
    rw [topLevel_nil]
    exact Nat.one_pos
  | @read l tail r h ih =>
    have := add_lt_two_pow (length_issues_item_lt.1 false (l :: tail)) ih r.shorter
    rw [topLevel_of_item h, List.length_append]
    omega
  | @skipped l tail e h ih =>
    have hrest : (resync tail).length < (l :: tail).length :=
      Nat.lt_succ_of_le (length_resync_le tail)
    have := add_lt_two_pow (length_issues_item_lt.1 false (l :: tail)) ih hrest
    rw [topLevel_of_error h, List.length_append, List.length_cons]
    omega

/-! ## Where the tokens of charges stand -/

section Starts

variable {ls : List Lexeme} {cs : List Charge} {c d : Charge}

/-- Less input is left at a later token. -/
theorem Charge.start_lt_of_length_lt (ho : Ordered (ls.map Lexeme.token)) (hc : c.input <:+ ls)
    (hd : d.input <:+ ls) (h : d.input.length < c.input.length) :
    c.token.start < d.token.start := by
  have hbehind : d.input <:+ c.behind :=
    List.suffix_of_suffix_length_le hd ((List.suffix_cons _ _).trans hc) (Nat.le_of_lt_succ h)
  have hordered : ((c.lexeme :: c.behind).map Lexeme.token).Pairwise (·.start < ·.start) :=
    ho.pairwise_start.sublist (hc.sublist.map _)
  rw [List.map_cons, List.pairwise_cons] at hordered
  exact hordered.1 _ (List.mem_map_of_mem (hbehind.subset List.mem_cons_self))

/-- **The dropped issues** are those behind which an issue is charged to an earlier token. -/
theorem Within.dropped_iff (h : Within ls cs) (ho : Ordered (ls.map Lexeme.token))
    {later : List Charge} (hc : c :: later <:+ cs) :
    c.dropped ↔ ∃ d ∈ later, d.token.start < c.token.start := by
  have hinput : c.input <:+ ls := h.input c (hc.subset List.mem_cons_self)
  have hlater : ∀ d ∈ later, d.input <:+ ls := fun d hd =>
    h.input d (hc.subset (List.mem_cons_of_mem _ hd))
  constructor
  · intro hdropped
    obtain ⟨d, hd, -, hlt⟩ := h.back c later hc hdropped
    exact ⟨d, hd, Charge.start_lt_of_length_lt ho (hlater d hd) hinput hlt⟩
  · rintro ⟨d, hd, hlt⟩
    cases hdropped : c.dropped with
    | true => rfl
    | false =>
      -- behind an issue that is not dropped no earlier token is charged
      have honward := (List.pairwise_cons.mp (h.onward.sublist hc.sublist)).1 d hd hdropped
      have hgt := Charge.start_lt_of_length_lt ho hinput (hlater d hd) honward
      exact absurd hlt (Nat.lt_asymm hgt)

/-- **Each issue has a token of its own** exactly if nothing is reported again at the token of a
dropped issue. -/
theorem Within.nodup_iff (h : Within ls cs) (ho : Ordered (ls.map Lexeme.token)) :
    (cs.map (·.token)).Nodup ↔ cs.Pairwise fun c d => c.dropped → c.token ≠ d.token := by
  rw [List.nodup_iff_pairwise_ne, List.pairwise_map]
  constructor
  · intro hne
    refine List.Pairwise.imp ?_ hne
    exact fun {c d} hcd _ => hcd
  · intro hne
    refine (hne.and h.onward).imp_of_mem fun {c d} hc hd hcd => ?_
    cases hdropped : c.dropped with
    | true => exact hcd.1 hdropped
    | false =>
      have hlt := Charge.start_lt_of_length_lt ho (h.input c hc) (h.input d hd) (hcd.2 hdropped)
      intro heq
      rw [heq] at hlt
      exact Nat.lt_irrefl _ hlt

end Starts

/-- A site at a token or behind it, or else at the end, is the place of a token that is not before
it. -/
theorem Site.marked_from (before : List Token) {after : List Token} {t : Token} {site : Site}
    (ht : t.isComment = false) (h : site.In (· ∈ t :: after)) :
    Marked (· ∈ t :: after) (site.position (before ++ t :: after)) := by
  cases site with
  | token u => exact marked_of h
  | lastSignificant =>
    have hlast : (significant (before ++ t :: after)).getLast? =
        some ((t :: significant after).getLast (List.cons_ne_nil _ _)) := by
      rw [significant_append, significant_cons ht, List.getLast?_append_of_ne_nil _ (by simp),
        List.getLast?_eq_some_getLast]
    rw [position, hlast]
    rcases List.mem_cons.mp (List.getLast_mem (List.cons_ne_nil t (significant after))) with h | h
    · exact marked_of (List.mem_cons.mpr (.inl h))
    · exact marked_of (List.mem_cons_of_mem _ (List.mem_filter.mp h).1)
  | last =>
    have hlast : (before ++ t :: after).getLast? =
        some ((t :: after).getLast (List.cons_ne_nil _ _)) := by
      rw [List.getLast?_append_of_ne_nil _ (by simp), List.getLast?_eq_some_getLast]
    rw [position, hlast]
    exact marked_of (List.getLast_mem _)

/-- The error of an issue is sited at the token it is charged to, behind it, or at the end. -/
theorem Charge.Sound.site_in {c : Charge} (h : c.Sound) :
    c.issue.error.site.In (· ∈ c.input.map Lexeme.token) := by
  have hsupplied (ls : List Lexeme) : Supplied (· ∈ ls.map Lexeme.token) ls :=
    fun l hl => List.mem_map_of_mem hl
  cases h with
  | comma h => exact List.mem_map_of_mem List.mem_cons_self
  | member h hr => exact ((draws_item.1 _ _ (hsupplied _)).of_error h).2
  | declaration h => exact ((draws_item.1 _ _ (hsupplied _)).of_error h).2

/-- **An issue lies at the token it is charged to or behind it.** -/
theorem Charge.Sound.exists_place {ts : List Token} {c : Charge} (h : c.Sound)
    (hc : c.input <:+ Lexeme.ofTokens ts) :
    ∃ before after, ts = before ++ c.token :: after ∧ ∃ t ∈ c.token :: after,
      t.line = (c.issue.locate ts).line ∧ t.column = (c.issue.locate ts).column := by
  obtain ⟨front, hfront⟩ := hc
  have hsplit : significant ts =
      front.map Lexeme.token ++ c.token :: c.behind.map Lexeme.token := by
    rw [← Lexeme.map_token_ofTokens, ← hfront, List.map_append]
    rfl
  -- the significant tokens from `c.token` on are among the tokens from `c.token` on
  obtain ⟨before, back, rfl, -, hback⟩ := List.filter_eq_append_iff.mp hsplit
  obtain ⟨comments, after, rfl, -, hsignificant, hafter⟩ := List.filter_eq_cons_iff.mp hback
  have hsite : c.issue.error.site.In (· ∈ c.token :: after) := by
    have hsite := h.site_in
    cases hs : c.issue.error.site with
    | token t =>
      rw [hs] at hsite
      rcases List.mem_cons.mp hsite with rfl | ht
      · exact List.mem_cons_self
      · rw [← hafter] at ht
        exact List.mem_cons_of_mem _ (List.mem_filter.mp ht).1
    | _ => trivial
  have hmarked := Site.marked_from (before ++ comments) (by simpa using hsignificant) hsite
  rw [List.append_assoc] at hmarked
  obtain ⟨t, ht, hpos⟩ := hmarked
  exact ⟨before ++ comments, after, by rw [List.append_assoc], t, ht,
    congrArg Position.line hpos, congrArg Position.column hpos⟩

/-! ## The issues of a text -/

/-- The significant tokens that no issue is charged to for good. -/
def freeTokens (ts : List Token) (cs : List Charge) : List Token :=
  (significant ts).filter fun t => !((cs.filter (!·.dropped)).map (·.token)).contains t

/-- **What the charges say of the issues of a text**: which issue is charged to which token, where
reading goes back, and when there are more issues than tokens. -/
structure Ledger (text : String) (cs : List Charge) : Prop where
  /-- The issues are those charged, in order. -/
  issues : (parse (scan text)).issues = cs.map (·.issue.locate (scan text))
  /-- They are charged to significant tokens of the text. -/
  input : ∀ c ∈ cs, c.input <:+ Lexeme.ofTokens (scan text)
  /-- An issue is what reading from its token gives. -/
  sound : ∀ c ∈ cs, c.Sound
  /-- An issue lies at its token or behind it. -/
  place : ∀ c ∈ cs, ∃ before after, scan text = before ++ c.token :: after ∧
    ∃ t ∈ c.token :: after, t.line = (c.issue.locate (scan text)).line ∧
      t.column = (c.issue.locate (scan text)).column
  /-- Recovery moves on: the issues recorded outside dropped declarations have tokens of their own,
  in order. -/
  kept : ((cs.filter (!·.dropped)).map (·.token)).Sublist (significant (scan text))
  /-- The dropped issues are those behind which reading goes back. -/
  back : ∀ c later, c :: later <:+ cs →
    (c.dropped ↔ ∃ d ∈ later, d.token.start < c.token.start)
  /-- Each issue has a token of its own exactly if nothing is reported again at the token of an
  issue that has been dropped. -/
  distinct : (cs.map (·.token)).Nodup ↔
    cs.Pairwise fun c d => c.dropped → c.token ≠ d.token
  /-- There are at most as many issues as significant tokens exactly if there are at most as many
  dropped ones as tokens that no other issue is charged to. -/
  count : (parse (scan text)).issues.length ≤ (significant (scan text)).length ↔
    (cs.filter (·.dropped)).length ≤ (freeTokens (scan text) cs).length
  /-- In any case the issues double at most with every token. -/
  bound : (parse (scan text)).issues.length < 2 ^ (significant (scan text)).length

/-- What is not taken of tokens that are all different. -/
theorem length_add_length_filter_not_contains {kept ts : List Token} (h : kept.Sublist ts)
    (hts : ts.Nodup) : kept.length + (ts.filter fun t => !kept.contains t).length = ts.length := by
  have hperm : kept.Perm (ts.filter kept.contains) := by
    refine (List.perm_ext_iff_of_nodup (hts.sublist h) (hts.filter _)).mpr fun t => ?_
    simp only [List.mem_filter, List.contains_iff_mem]
    exact ⟨fun ht => ⟨h.subset ht, ht⟩, fun ht => ht.2⟩
  rw [hperm.length_eq]
  exact (List.length_eq_length_filter_add _).symm

/-- The tokens that issues are charged to for good, and the free ones, are all tokens. -/
theorem length_kept_add_length_freeTokens {ts : List Token} {cs : List Charge}
    (ho : Ordered (significant ts))
    (h : ((cs.filter (!·.dropped)).map (·.token)).Sublist (significant ts)) :
    (cs.filter (!·.dropped)).length + (freeTokens ts cs).length = (significant ts).length := by
  have hnodup : (significant ts).Nodup := by
    refine ho.pairwise_start.imp fun {a b} hlt heq => ?_
    rw [heq] at hlt
    exact Nat.lt_irrefl _ hlt
  rw [freeTokens, ← length_add_length_filter_not_contains h hnodup, List.length_map]

/-- **The issues of a text, charged to its tokens.** -/
theorem issues_charged (text : String) :
    Ledger text (charges (Lexeme.ofTokens (scan text))) := by
  obtain ⟨hwithin, hissues⟩ := accounts_topLevel (Lexeme.ofTokens (scan text))
  have hlength := length_issues_topLevel_lt (Lexeme.ofTokens (scan text))
  have hordered := ordered_significant_scan text
  have htokens := Lexeme.map_token_ofTokens (scan text)
  generalize charges (Lexeme.ofTokens (scan text)) = cs at hwithin hissues ⊢
  have hparse : (parse (scan text)).issues = cs.map (·.issue.locate (scan text)) := by
    show (topLevel (Lexeme.ofTokens (scan text))).1.map (·.locate (scan text)) = _
    rw [← hissues, List.map_map]
    rfl
  have hkept : ((cs.filter (!·.dropped)).map (·.token)).Sublist (significant (scan text)) := by
    rw [← htokens]
    simpa [Charge.token, Function.comp_def] using hwithin.sublist_kept.map Lexeme.token
  exact
    { issues := hparse
      input := hwithin.input
      sound := hwithin.sound
      place := fun c hc => (hwithin.sound c hc).exists_place (hwithin.input c hc)
      kept := hkept
      back := fun c later hc => hwithin.dropped_iff (htokens ▸ hordered) hc
      distinct := hwithin.nodup_iff (htokens ▸ hordered)
      count := by
        have hfree := length_kept_add_length_freeTokens hordered hkept
        have hsum := List.length_eq_length_filter_add (l := cs) (·.dropped)
        rw [hparse, List.length_map]
        omega
      bound := by
        rw [hparse, List.length_map, ← List.length_map (f := Charge.issue), hissues, ← htokens,
          List.length_map]
        exact hlength }

/-- A module that is never closed, with four members that cannot be read: its members are read
inside the module first, and once more at the top level when the module has been dropped. -/
example :
    (charges (Lexeme.ofTokens (scan "mod a \x7b\nfn\nfn\nfn\nfn"))).map
        (fun c => (c.token.line, c.dropped)) =
      [(2, true), (3, true), (4, true), (1, false), (2, false), (3, false), (4, false),
        (5, false)] := by
  decide +kernel

/-! ## Bodies that are read twice -/

/-- A token on the given line, not in the first column, with no comment before it. -/
def lexemeOn (line : Nat) (kind : TokenKind) (text : String) : Lexeme :=
  ⟨[], kind, text, 0, line, 2⟩

/-- A module, up to the brace that opens its body. -/
def moduleOn (line : Nat) : List Lexeme :=
  [lexemeOn line .keyword "mod", lexemeOn line .identifier "m", lexemeOn line .operator "\x7b"]

/-- Modules inside one another, none of which is closed, each with its mark on the line above. -/
def unclosed (line : Nat) : Nat → List Lexeme
  | 0 => []
  | k + 1 => lexemeOn line .keyword "pub" :: (moduleOn (line + 1) ++ unclosed (line + 2) k)

theorem opening_moduleOn (byPlace : Bool) (line : Nat) (body : List Lexeme) :
    ∃ b, (opening byPlace (moduleOn line ++ body)).outcome = .ok (.block b, body) := by
  have h : Parser.attributes (moduleOn line ++ body) = .ok ((), moduleOn line ++ body) :=
    Parser.attributes_of_false rfl
  exact ⟨_, Attempt.outcome_bind_eq_ok.mpr ⟨_, Parser.bind_eq_ok.mpr ⟨_, _, h, rfl⟩, rfl⟩⟩

theorem opening_marked (byPlace : Bool) (line : Nat) (body : List Lexeme) :
    ∃ b, (opening byPlace (lexemeOn line .keyword "pub" :: (moduleOn (line + 1) ++ body))).outcome =
      .ok (.block b, body) := by
  have h : Parser.attributes (lexemeOn line .keyword "pub" :: (moduleOn (line + 1) ++ body)) =
      .ok ((), lexemeOn line .keyword "pub" :: (moduleOn (line + 1) ++ body)) :=
    Parser.attributes_of_false rfl
  exact ⟨_, Attempt.outcome_bind_eq_ok.mpr ⟨_, Parser.bind_eq_ok.mpr ⟨_, _, h, rfl⟩, rfl⟩⟩

/-- A declaration whose body is unreadable is unreadable, with the issues of its body. -/
theorem item_of_unreadable_body {byPlace : Bool} {ls body : List Lexeme} {b : Block}
    (h : (opening byPlace ls).outcome = .ok (.block b, body)) {n : Nat}
    (hbody : ∀ first byPlace, (members first byPlace body).issues.length = n ∧
      ∃ e, (members first byPlace body).outcome = .error e) :
    (item byPlace ls).issues.length = n ∧ ∃ e, (item byPlace ls).outcome = .error e := by
  obtain ⟨hn, e, he⟩ := hbody b.first b.publicMembers
  rw [item_of_block h, (opening_of_block h).2, List.nil_append]
  exact ⟨hn, e, by simp only [he]⟩

/-- Recovery finds no way out of modules that are not closed. -/
theorem resyncInBody_unclosed (k line depth : Nat) (before : Token) :
    resyncInBody before (depth + 1) (unclosed line k) = none := by
  induction k generalizing line depth before with
  | zero => rfl
  | succ k ih => exact ih (line + 2) (depth + 1) _

/-- **Each level is read twice**: once behind its mark, and once more from its keyword on. -/
theorem length_issues_unclosed (k line : Nat) (first : Token) (byPlace : Bool) :
    (members first byPlace (unclosed line k)).issues.length = 2 ^ k - 1 ∧
      ∃ e, (members first byPlace (unclosed line k)).outcome = .error e := by
  induction k generalizing line first byPlace with
  | zero =>
    rw [unclosed, members]
    exact ⟨rfl, _, rfl⟩
  | succ k ih =>
    -- first the module with its mark, then recovery stops at its keyword and it is read again
    obtain ⟨b, hb⟩ := opening_marked byPlace line (unclosed (line + 2) k)
    obtain ⟨hn, e, he⟩ := item_of_unreadable_body hb (ih (line + 2))
    obtain ⟨b', hb'⟩ := opening_moduleOn byPlace (line + 1) (unclosed (line + 2) k)
    obtain ⟨hn', e', he'⟩ := item_of_unreadable_body hb' (ih (line + 2))
    have hagain : resyncInBody (lexemeOn line .keyword "pub").token 0
        (moduleOn (line + 1) ++ unclosed (line + 2) k) =
        some (moduleOn (line + 1) ++ unclosed (line + 2) k) := by
      simp [moduleOn, lexemeOn, resyncInBody, resyncKeywords, Token.isOperator,
        Token.isKeywordIn, Token.line]
    have hend : resyncInBody (lexemeOn (line + 1) .keyword "mod").token 0
        ((moduleOn (line + 1)).tail ++ unclosed (line + 2) k) = none :=
      resyncInBody_unclosed k (line + 2) 0 _
    have hmore : members first byPlace (moduleOn (line + 1) ++ unclosed (line + 2) k) =
        ⟨(item byPlace (moduleOn (line + 1) ++ unclosed (line + 2) k)).issues, .error e'⟩ :=
      members_of_end (by simp [lexemeOn, Token.is]) he' hend
    rw [unclosed, members_of_resync (by simp [lexemeOn, Token.is]) he hagain, hmore]
    refine ⟨?_, e', rfl⟩
    have hpos := Nat.two_pow_pos k
    rw [List.length_append, List.length_cons, hn, hn', Nat.pow_succ]
    omega

theorem length_unclosed (k line : Nat) : (unclosed line k).length = 4 * k := by
  induction k generalizing line with
  | zero => rfl
  | succ k ih =>
    rw [unclosed, List.length_cons, List.length_append, ih]
    simp only [moduleOn, List.length_cons, List.length_nil]
    omega

theorem ofTokens_unclosed (k line : Nat) :
    Lexeme.ofTokens ((unclosed line k).map Lexeme.token) = unclosed line k := by
  induction k generalizing line with
  | zero => rfl
  | succ k ih => exact congrArg (lexemeOn line .keyword "pub" :: moduleOn (line + 1) ++ ·) (ih _)

/-- No token stands in the first column, so that at the top level nothing is read twice. -/
theorem resync_unclosed (k line : Nat) : resync (unclosed line k) = [] := by
  induction k generalizing line with
  | zero => rfl
  | succ k ih => exact ih (line + 2)

/-- **The number of issues is not bounded by a polynomial**: four tokens more can double it. -/
theorem exists_two_pow_issues (k : Nat) : ∃ ts : List Token,
    (significant ts).length = 4 * (k + 1) ∧ (parse ts).issues.length = 2 ^ k := by
  refine ⟨(unclosed 1 (k + 1)).map Lexeme.token, ?_, ?_⟩
  · rw [← Lexeme.map_token_ofTokens, ofTokens_unclosed, List.length_map, length_unclosed]
  · obtain ⟨b, hb⟩ := opening_marked false 1 (unclosed 3 k)
    obtain ⟨hn, e, he⟩ := item_of_unreadable_body hb (length_issues_unclosed k 3)
    have hend : resync (moduleOn 2 ++ unclosed 3 k) = [] := resync_unclosed k 3
    have htop : (topLevel (unclosed 1 (k + 1))).1.length = 2 ^ k := by
      have hpos := Nat.two_pow_pos k
      rw [unclosed, topLevel_of_error he, hend, topLevel_nil, List.length_append, hn]
      exact Nat.sub_add_cancel hpos
    simpa [parse, ofTokens_unclosed] using htop

end KlarAudit

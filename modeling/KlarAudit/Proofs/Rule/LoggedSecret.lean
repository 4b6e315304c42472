import KlarAudit.Proofs.Grammar.Phrase
import KlarAudit.Proofs.Grammar.Rendering
import KlarAudit.Proofs.Report.StableSort
import KlarAudit.Proofs.Rule.CallExtent
import KlarAudit.Proofs.Rule.Place

/-!
# Secrets in logging calls

A call that writes a log is known by its name, by what stands before the name and by the bracket
behind it, so it is found wherever it stands: in the arguments of another call, or in a part of the
text that cannot be read as a declaration. Its arguments end where their brackets say.

## Main definitions

* `HoldsWord word cs`: the word stands in the characters, but for case
* `Token.NamesSecret`: the token is a name or a string literal that holds a word for a secret
* `LogCall`: a call that writes a log

## Main results

* `isSome_secretIn?_iff`: the secret in a token is found
* `LogCall.loggingCall?_eq`: a call that writes a log is found
* `loggedSecret_of_text`: a call that writes a log is remarked on, once, just if it gets a secret
-/

namespace KlarAudit

/-! ## Secrets in tokens -/

/-- **The word stands in the characters**, but for case. -/
def HoldsWord (word cs : List Char) : Prop :=
  ∃ before here after, cs = before ++ (here ++ after) ∧
    List.Forall₂ (fun p c => matchesLetter p c = true) word here

theorem startsWithWord_iff {word cs : List Char} : startsWithWord word cs = true ↔
    ∃ here after, cs = here ++ after ∧
      List.Forall₂ (fun p c => matchesLetter p c = true) word here := by
  induction word generalizing cs with
  | nil => simp [startsWithWord]
  | cons p word ih =>
    cases cs with
    | nil =>
      refine iff_of_false (by simp [startsWithWord]) ?_
      rintro ⟨here, after, hcs, hhere⟩
      obtain ⟨rfl, -⟩ := List.append_eq_nil_iff.mp hcs.symm
      cases hhere
    | cons c cs =>
      rw [startsWithWord, Bool.and_eq_true, ih]
      constructor
      · rintro ⟨hc, here, after, rfl, hhere⟩
        exact ⟨c :: here, after, rfl, .cons hc hhere⟩
      · rintro ⟨_, after, hcs, hhere⟩
        cases hhere with
        | cons hc hhere =>
          obtain ⟨rfl, rfl⟩ := List.cons.inj hcs
          exact ⟨hc, _, after, rfl, hhere⟩

/-- **The first place of a word** is found if there is one. -/
theorem isSome_findWord?_iff {word cs : List Char} (hword : word ≠ []) :
    (findWord? word cs).isSome ↔ HoldsWord word cs := by
  -- the search goes on until the word starts, and `before` shrinks with it
  induction cs with
  | nil =>
    refine iff_of_false (by simp [findWord?]) ?_
    rintro ⟨before, here, after, hcs, hhere⟩
    simp only [List.nil_eq, List.append_eq_nil_iff] at hcs
    obtain ⟨-, rfl, -⟩ := hcs
    exact hword (List.forall₂_nil_right_iff.mp hhere)
  | cons c cs ih =>
    rw [findWord?]
    split
    · rename_i hstarts
      obtain ⟨here, after, hcs, hhere⟩ := startsWithWord_iff.mp hstarts
      exact iff_of_true rfl ⟨[], here, after, hcs, hhere⟩
    · rename_i hstarts
      rw [ih]
      constructor
      · rintro ⟨before, here, after, rfl, hhere⟩
        exact ⟨c :: before, here, after, rfl, hhere⟩
      · rintro ⟨before, here, after, hcs, hhere⟩
        cases before with
        | nil => exact absurd (startsWithWord_iff.mpr ⟨here, after, hcs, hhere⟩) hstarts
        | cons b before =>
          obtain ⟨rfl, rfl⟩ := List.cons.inj hcs
          exact ⟨before, here, after, rfl, hhere⟩

/-- **A token that names a secret**: a name or a string literal that holds a word for one, but for
case. -/
def Token.NamesSecret (t : Token) : Prop :=
  (t.kind = .identifier ∨ t.isString) ∧ ∃ w ∈ secretWords, HoldsWord w.toList t.text.toList

/-- **The secret in a token** is found. -/
theorem isSome_secretIn?_iff {t : Token} : (secretIn? t).isSome ↔ t.NamesSecret := by
  have hwords : ∀ w ∈ secretWords, w.toList ≠ [] := by decide
  rw [secretIn?, Token.NamesSecret]
  split
  · rename_i hkind
    rw [List.findSome?_isSome_iff]
    simp only [Bool.or_eq_true, beq_iff_eq] at hkind
    simp only [hkind, true_and]
    exact exists_congr fun w => and_congr_right fun hw => isSome_findWord?_iff (hwords w hw)
  · rename_i hkind
    simp only [Bool.or_eq_true, beq_iff_eq] at hkind
    exact iff_of_false (by simp) fun h => hkind h.1

/-! ## Calls that write a log -/

/-- **A call that writes a log**: of a method of a logger, or of a function that prints. -/
structure LogCall where
  /-- The logger and the mark behind it, if a method is called. -/
  access : Option (Token × Token)
  /-- The name that is called. -/
  callee : Token
  /-- The mark of invocation, which may be missing. -/
  mark : Option Token
  /-- The bracket that opens the arguments. -/
  opener : Token
  /-- The arguments. -/
  arguments : List Token
  /-- The bracket that closes the arguments. -/
  closer : Token
  access_is : ∀ p ∈ access, p.1.text ∈ logReceivers ∧
    (p.2.isOperator "." ∨ p.2.isOperator "::") ∧ callee.text ∈ logMethods
  print_is : access = none → callee.text ∈ printFunctions
  mark_is : ∀ m ∈ mark, m.isOperator "!"
  opener_is : opener.isOperator "("
  arguments_nested : WellNested arguments
  closer_is : closer.isOperator ")"

/-- What is said on a call that gets secrets. -/
def secretMessage (name : String) (hits : List String) : String :=
  "logging call '" ++ name ++ "' may leak sensitive data (matches: " ++
    Text.joinWith ", " hits ++ "); never log secrets"

namespace LogCall

variable (l : LogCall) {before : List Token}

/-- What stands before the name. -/
def front : List Token :=
  l.access.elim [] fun p => [p.1, p.2]

/-- What stands behind the name. -/
def back : List Token :=
  l.mark.toList ++ l.opener :: (l.arguments ++ [l.closer])

/-- The tokens of the call. -/
def tokens : List Token :=
  l.front ++ l.callee :: l.back

/-- The call may stand behind these tokens: a function is not called as a method of something. -/
def StandsBehind (before : List Token) : Prop :=
  l.access = none → ∀ t ∈ before.getLast?, ¬ (t.is "." ∨ t.is "::")

/-- The name is one of a method or a function that writes a log. -/
theorem callee_text : l.callee.text ∈ logMethods ++ printFunctions := by
  cases h : l.access with
  | none => exact List.mem_append_right _ (l.print_is h)
  | some p => exact List.mem_append_left _ (l.access_is p h).2.2

theorem writesLog_eq (hbefore : l.StandsBehind before) (after : List Token) :
    writesLog ⟨(before ++ l.front).reverse, l.callee, after⟩ = true := by
  cases h : l.access with
  | none =>
    have hprint : printFunctions.contains l.callee.text := by
      simpa using l.print_is h
    rw [front, h, Option.elim_none, List.append_nil, writesLog]
    dsimp only
    split
    · rename_i dot more hmore
      -- a function counts only where no access stands before its name
      have hlast : before.getLast? = some dot := by
        rw [← List.head?_reverse, hmore]
        rfl
      have hdot := hbefore h dot hlast
      rw [not_or, Bool.not_eq_true, Bool.not_eq_true] at hdot
      rw [hdot.1, hdot.2]
      exact hprint
    · exact hprint
  | some p =>
    obtain ⟨hreceiver, hdot, hmethod⟩ := l.access_is p h
    have hdot : (p.2.is "." || p.2.is "::") = true := by
      rcases hdot with hdot | hdot <;> simp [Token.is_of_isOperator hdot]
    simp [front, h, writesLog, hdot, hmethod, hreceiver]

/-- **A call that writes a log is found**, with its arguments. -/
theorem loggingCall?_eq (hkind : l.callee.kind = .identifier) (hbefore : l.StandsBehind before)
    (after : List Token) : ∃ i, loggingCall?
      ⟨(before ++ l.front).reverse, l.callee, l.back ++ after⟩ = some ⟨l.callee, i, l.arguments⟩ := by
  have hcloses : l.closer.closes? = some .paren := Token.isOperator_closer_iff.mp l.closer_is
  have harguments := argumentTokens_append l.arguments_nested hcloses after
  have hopener : l.opener.is "(" := Token.is_of_isOperator l.opener_is
  have hplain : l.opener.is "!" = false := by
    rw [Bool.eq_false_iff]
    exact fun h => absurd (Token.eq_of_is hopener h) (by decide)
  have hlog := l.writesLog_eq hbefore (l.back ++ after)
  -- only whether the call writes a log is asked of what stands before
  generalize (before ++ l.front).reverse = seen at hlog ⊢
  cases hm : l.mark with
  | none =>
    have hback : l.back ++ after = l.opener :: (l.arguments ++ l.closer :: after) := by
      simp [back, hm]
    rw [hback] at hlog ⊢
    exact ⟨_, by simp [loggingCall?, hplain, hkind, hopener, hlog, harguments]; rfl⟩
  | some m =>
    have hback : l.back ++ after = m :: l.opener :: (l.arguments ++ l.closer :: after) := by
      simp [back, hm]
    have hmark : m.is "!" := Token.is_of_isOperator (l.mark_is m hm)
    rw [hback] at hlog ⊢
    exact ⟨_, by simp [loggingCall?, hmark, hkind, hopener, hlog, harguments]; rfl⟩

/-- What stands before the name, the name, and what stands behind it. -/
theorem split_of_tokens {ts after : List Token} (hts : ts = before ++ (l.tokens ++ after)) :
    ts = (before ++ l.front) ++ l.callee :: (l.back ++ after) := by
  rw [hts, tokens]
  simp

end LogCall

/-! ## Findings -/

/-- What is said on the token in this context, if it is called to write a log and gets a secret. -/
def secretFinding? (path : String) (c : Context) : Option Finding :=
  ((loggingCall? c).bind loggedSecretRemark?).map (loggedSecretRule.finding path)

theorem loggedSecretRemark?_eq (l : LoggingCall) :
    (∃ t ∈ l.arguments, t.NamesSecret) ∧ loggedSecretRemark? l = some (.at l.callee.pos
        (secretMessage l.callee.text (Text.sortedSet (l.arguments.filterMap secretIn?)))) ∨
      (∀ t ∈ l.arguments, ¬ t.NamesSecret) ∧ loggedSecretRemark? l = none := by
  rw [loggedSecretRemark?]
  cases hhits : Text.sortedSet (l.arguments.filterMap secretIn?) with
  | nil =>
    refine .inr ⟨fun t ht hsecret => ?_, rfl⟩
    obtain ⟨hit, hhit⟩ := Option.isSome_iff_exists.mp (isSome_secretIn?_iff.mpr hsecret)
    have hmem : hit ∈ Text.sortedSet (l.arguments.filterMap secretIn?) :=
      Text.mem_sortedSet_iff.mpr (List.mem_filterMap.mpr ⟨t, ht, hhit⟩)
    rw [hhits] at hmem
    cases hmem
  | cons hit hits =>
    refine .inl ⟨?_, rfl⟩
    have hmem : hit ∈ Text.sortedSet (l.arguments.filterMap secretIn?) := by
      rw [hhits]
      exact List.mem_cons_self
    obtain ⟨t, ht, hhit⟩ := List.mem_filterMap.mp (Text.mem_sortedSet_iff.mp hmem)
    exact ⟨t, ht, isSome_secretIn?_iff.mp (Option.isSome_of_mem hhit)⟩

/-- What is said on a token is said at the token. -/
theorem isAt_of_secretFinding? {path : String} {c : Context} {f : Finding}
    (h : f ∈ secretFinding? path c) : f.IsAt c.token := by
  obtain ⟨m, hm, rfl⟩ := Option.map_eq_some_iff.mp h
  obtain ⟨l, hl, hm⟩ := Option.bind_eq_some_iff.mp hm
  rcases loggedSecretRemark?_eq l with ⟨-, hsome⟩ | ⟨-, hnone⟩
  · obtain rfl := Option.some.inj (hsome.symm.trans hm)
    rw [← callee_of_loggingCall? hl]
    exact ⟨rfl, rfl⟩
  · cases hnone.symm.trans hm

/-- The findings are those on the tokens, one after another. -/
theorem run_loggedSecretRule (s : Subject) : loggedSecretRule.run s =
    (Context.all s.stream.significant).filterMap (secretFinding? s.path) := by
  have hrun : loggedSecretRule.run s =
      ((loggingCalls s.stream.significant).filterMap loggedSecretRemark?).map
        (loggedSecretRule.finding s.path) := rfl
  rw [hrun, loggingCalls, List.filterMap_filterMap, List.map_filterMap]
  rfl

theorem filter_filterMap_eq_toList {α β : Type} {f : α → Option β} {p : β → Bool} {a : α}
    {front back : List α} (ha : ∀ y ∈ f a, p y)
    (hother : ∀ x ∈ front ++ back, ∀ y ∈ f x, p y = false) :
    ((front ++ a :: back).filterMap f).filter p = (f a).toList := by
  have hnone (xs : List α) (hxs : ∀ x ∈ xs, x ∈ front ++ back) :
      (xs.filterMap f).filter p = [] := by
    rw [List.filter_eq_nil_iff]
    intro y hy
    obtain ⟨x, hx, hy⟩ := List.mem_filterMap.mp hy
    simp [hother x (hxs x hx) y hy]
  rw [List.filterMap_append, List.filter_append, hnone front fun x hx => List.mem_append_left _ hx,
    List.nil_append, List.filterMap_cons]
  cases hfa : f a with
  | none => exact hnone back fun x hx => List.mem_append_right _ hx
  | some y =>
    rw [List.filter_cons_of_pos (ha y hfa), hnone back fun x hx => List.mem_append_right _ hx]
    rfl

section Text

variable {path text : String}

/-- **The findings at a token** are what is said on it. -/
theorem filter_run_loggedSecretRule {before after : List Token} {t : Token}
    (htokens : significant (scan text) = before ++ t :: after) :
    (loggedSecretRule.run (Subject.ofText path text)).filter (fun f => decide (f.IsAt t)) =
      (secretFinding? path ⟨before.reverse, t, after⟩).toList := by
  have hscan {u : Token} (hu : u ∈ before ++ t :: after) : u ∈ scan text := by
    rw [← htokens] at hu
    exact (List.mem_filter.mp hu).1
  have ho := ordered_significant_scan text
  rw [htokens] at ho
  obtain ⟨front, back, hall, hfront, hback⟩ := Context.exists_all_split before t after
  have hrun : loggedSecretRule.run (Subject.ofText path text) =
      (front ++ ⟨before.reverse, t, after⟩ :: back).filterMap (secretFinding? path) := by
    rw [run_loggedSecretRule, ← hall, ← htokens]
    rfl
  rw [hrun]
  refine filter_filterMap_eq_toList (fun f hf => decide_eq_true (isAt_of_secretFinding? hf)) ?_
  intro c hc f hf
  refine decide_eq_false fun hplace => ?_
  -- what is said at the token is said on it, and it stands in one place only
  obtain ⟨hline, hcolumn⟩ := isAt_of_secretFinding? hf
  have hmem : c.token ∈ before ++ after := by
    rw [← hfront, ← hback, ← List.map_append]
    exact List.mem_map_of_mem hc
  have hsame : c.token = t := by
    refine eq_of_location_eq (hscan ?_) (hscan (by simp)) ?_ ?_
    · rcases List.mem_append.mp hmem with h | h <;> simp [h]
    · exact Int.ofNat_inj.mp (hline.symm.trans hplace.1)
    · exact Int.ofNat_inj.mp (hcolumn.symm.trans hplace.2)
  rw [hsame] at hmem
  rcases List.mem_append.mp hmem with h | h
  · exact ho.notMem.1 h
  · exact ho.notMem.2 h

/-- **A call that writes a log is remarked on, once, just if it gets a secret.** Wherever the call
stands in the tokens of a text, the only finding at its name is critical, and it lists the secrets in
the arguments in order, each once; if there are none, no finding is there. -/
theorem loggedSecret_of_text {before after : List Token} (l : LogCall)
    (htokens : significant (scan text) = before ++ (l.tokens ++ after))
    (hbefore : l.StandsBehind before) :
    let found := (loggedSecretRule.run (Subject.ofText path text)).filter fun f =>
      decide (f.IsAt l.callee)
    ((∃ t ∈ l.arguments, t.NamesSecret) → ∃ f hits, found = [f] ∧ f.severity = .critical ∧
      f.message = secretMessage l.callee.text hits ∧ hits.Pairwise (· < ·) ∧
      ∀ hit, hit ∈ hits ↔ ∃ t ∈ l.arguments, secretIn? t = some hit) ∧
    ((∀ t ∈ l.arguments, ¬ t.NamesSecret) → found = []) := by
  intro found
  have hsplit := l.split_of_tokens htokens
  -- the name is one of a fixed list, and no reserved word is among these
  have hkind : l.callee.kind = .identifier := by
    have hmem : l.callee ∈ significant (scan text) := by
      rw [hsplit]
      simp
    have hwords : ∀ w ∈ logMethods ++ printFunctions, Munch.wordKind w = .identifier ∧
        w.toList.head?.any Munch.isWordStart := by
      decide +kernel
    obtain ⟨hword, hhead⟩ := hwords _ l.callee_text
    obtain ⟨c, hc, hstart⟩ := (Option.any_eq_true ..).mp hhead
    obtain ⟨cs, hcs⟩ := List.head?_eq_some_iff.mp hc
    rw [kind_eq_wordKind (List.mem_filter.mp hmem).1 hcs hstart, hword]
  obtain ⟨i, hcall⟩ := l.loggingCall?_eq hkind hbefore after
  have hfound : found = ((loggedSecretRemark? ⟨l.callee, i, l.arguments⟩).map
      (loggedSecretRule.finding path)).toList := by
    rw [show found = _ from filter_run_loggedSecretRule hsplit, secretFinding?, hcall,
      Option.bind_some]
  rcases loggedSecretRemark?_eq ⟨l.callee, i, l.arguments⟩ with ⟨hsecret, hremark⟩ | ⟨hnone, hremark⟩
  · rw [hfound, hremark]
    refine ⟨fun _ => ⟨_, _, rfl, rfl, rfl, Text.pairwise_lt_sortedSet _, fun hit => ?_⟩, ?_⟩
    · rw [Text.mem_sortedSet_iff, List.mem_filterMap]
    · obtain ⟨t, ht, hsecret⟩ := hsecret
      exact fun hnone => absurd hsecret (hnone t ht)
  · rw [hfound, hremark]
    refine ⟨?_, fun _ => rfl⟩
    rintro ⟨t, ht, hsecret⟩
    exact absurd hsecret (hnone t ht)

end Text

/-- A call that writes a log in a text that declares nothing, with another one in its arguments. -/
def strayLogText : String :=
  "\x7d log.info(print!(x), \x7b \"the_ToKen\" \x7d) fn"

/-- The outer call in that text. -/
def strayLog : LogCall where
  access := some (.onLine 2 .identifier "log", .onLine 5 .operator ".")
  callee := .onLine 6 .identifier "info"
  mark := none
  opener := .onLine 10 .operator "("
  arguments := [.onLine 11 .identifier "print", .onLine 16 .operator "!", .onLine 17 .operator "(",
    .onLine 18 .identifier "x", .onLine 19 .operator ")", .onLine 20 .operator ",",
    .onLine 22 .operator "\x7b", .onLine 24 .literal "\"the_ToKen\"", .onLine 36 .operator "\x7d"]
  closer := .onLine 37 .operator ")"
  access_is := by decide
  print_is := nofun
  mark_is := nofun
  opener_is := by decide
  arguments_nested := by decide
  closer_is := by decide

/-- It is remarked on. -/
theorem found_strayLog :
    significant (scan strayLogText) =
      [.onLine 0 .operator "\x7d"] ++ (strayLog.tokens ++ [.onLine 39 .keyword "fn"]) ∧
    strayLog.StandsBehind [.onLine 0 .operator "\x7d"] ∧
    (∃ t ∈ strayLog.arguments, t.NamesSecret) ∧
    ∃ f, (loggedSecretRule.run (Subject.ofText "main.kl" strayLogText)).filter
      (fun f => decide (f.IsAt strayLog.callee)) = [f] ∧ f.severity = .critical := by
  have htokens : significant (scan strayLogText) =
      [.onLine 0 .operator "\x7d"] ++ (strayLog.tokens ++ [.onLine 39 .keyword "fn"]) := by
    decide +kernel
  have hsecret : ∃ t ∈ strayLog.arguments, t.NamesSecret :=
    ⟨.onLine 24 .literal "\"the_ToKen\"", by decide, isSome_secretIn?_iff.mp (by decide +kernel)⟩
  obtain ⟨f, hits, hfound, hcritical, -⟩ :=
    (@loggedSecret_of_text "main.kl" strayLogText _ _ strayLog htokens nofun).1 hsecret
  exact ⟨htokens, nofun, hsecret, f, hfound, hcritical⟩

end KlarAudit

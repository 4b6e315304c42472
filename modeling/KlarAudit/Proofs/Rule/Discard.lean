import KlarAudit.Proofs.Arena.BodyTokens
import KlarAudit.Proofs.Grammar.Phrase
import KlarAudit.Proofs.Rule.Reference

/-!
# Dropped results

A statement that drops the value of a call is judged by the name that is called first in it. This is
the call whose value is dropped unless there is a call in its receiver; then the statement passes for
one that drops the value of that call.

## Main definitions

* `calls ts`: the names that are called in a run of tokens
* `IsReceiver P`: what may stand before the name of a call
* `DroppedCall`: a statement that drops the value of a call

## Main results

* `callee?_eq`, `head?_calls_append`: the call by which a statement is judged
* `DroppedCall.discard?_eq`: a dropped call is found
* `mem_run_discardedErrorRule_iff`, `exists_finding_iff`: what is found makes the findings
* `discards_of_text`: the dropped calls in the functions of a text
-/

namespace KlarAudit

/-! ## Calls -/

/-- **The names that are called** in a run of tokens: a bracket opens behind them. -/
def calls (ts : List Token) : List Token :=
  ((adjacent ts).filter fun (n, p) => n.kind == .identifier && p.is "(").map (·.1)

section Calls

variable {n o t p : Token} {ts : List Token}

theorem calls_cons_cons (t p : Token) (ts : List Token) : calls (t :: p :: ts) =
    if t.kind == .identifier && p.is "(" then t :: calls (p :: ts) else calls (p :: ts) := by
  rw [calls, adjacent_cons]
  simp only [List.head?_cons, Option.map_some, Option.toList_some, List.singleton_append]
  rw [List.filter_cons]
  split
  · rw [List.map_cons]
    rfl
  · rfl

/-- **The call by which a statement is judged** is the first one. -/
theorem callee?_eq (ts : List Token) : callee? ts = (calls ts).head? := by
  fun_induction callee? ts with
  | case1 t p ts h =>
    rw [calls_cons_cons, if_pos (by simpa [and_comm] using h)]
    rfl
  | case2 t p ts h ih => rw [calls_cons_cons, if_neg (by simpa [and_comm] using h), ih]
  | case3 ts h =>
    cases ts with
    | nil => rfl
    | cons t ts =>
      cases ts with
      | nil => rfl
      | cons p ts => exact (h t p ts rfl).elim

/-- **In front of a call**, the first call stands there, or it is that one. -/
theorem head?_calls_append (hn : n.kind = .identifier) (ho : o.is "(") (ts more : List Token) :
    (calls (ts ++ n :: o :: more)).head? = some ((calls ts).head?.getD n) := by
  induction ts with
  | nil =>
    rw [List.nil_append, calls_cons_cons, if_pos (by simp [hn, ho])]
    rfl
  | cons t ts ih =>
    cases ts with
    | nil =>
      -- the name of the call opens no bracket
      rw [List.cons_append, List.nil_append, calls_cons_cons,
        if_neg (by simp [Token.is_of_identifier hn]), calls_cons_cons, if_pos (by simp [hn, ho])]
      rfl
    | cons p ts =>
      rw [List.cons_append, List.cons_append, calls_cons_cons, calls_cons_cons]
      split
      · rfl
      · exact ih

end Calls

/-! ## Statements that drop the value of a call -/

/-- **A receiver**: names, dots, double colons and well-nested groups in round brackets. -/
inductive IsReceiver : List Token → Prop
  | nil : IsReceiver []
  | name {n : Token} {P : List Token} (hn : n.kind.isWordlike) (hP : IsReceiver P) :
      IsReceiver (n :: P)
  | dot {d : Token} {P : List Token} (hd : d.isOperator "." ∨ d.isOperator "::")
      (hP : IsReceiver P) : IsReceiver (d :: P)
  | group {o c : Token} {A P : List Token} (ho : o.isOperator "(") (hA : WellNested A)
      (hc : c.isOperator ")") (hP : IsReceiver P) : IsReceiver (o :: (A ++ c :: P))

/-- **A statement that drops the value of a call.** -/
structure DroppedCall where
  /-- The keyword, which may be missing. -/
  keyword : Option Token
  /-- The name for nothing. -/
  place : Token
  /-- The sign behind it. -/
  assign : Token
  /-- What the call is made on. -/
  receiver : List Token
  /-- The name of the call. -/
  callee : Token
  /-- The bracket that opens the arguments. -/
  opener : Token
  /-- The arguments. -/
  arguments : List Token
  /-- The bracket that closes the arguments. -/
  closer : Token
  /-- The end of the statement. -/
  stop : Token
  keyword_is : ∀ k ∈ keyword, k.is "let"
  place_kind : place.kind = .identifier
  place_text : place.text = "_"
  assign_is : assign.is "="
  receiver_is : IsReceiver receiver
  callee_kind : callee.kind = .identifier
  opener_is : opener.isOperator "("
  arguments_nested : WellNested arguments
  closer_is : closer.isOperator ")"
  stop_is : stop.isOperator ";"

namespace DroppedCall

/-- The value that is dropped. -/
def value (d : DroppedCall) : List Token :=
  d.receiver ++ d.callee :: d.opener :: (d.arguments ++ [d.closer])

/-- The tokens of the statement. -/
def tokens (d : DroppedCall) : List Token :=
  d.keyword.toList ++ d.place :: d.assign :: (d.value ++ [d.stop])

/-- A statement may begin behind these tokens: nothing stands there, or the end of another statement,
or a brace. With its keyword it may stand anywhere. -/
def StartsBehind (d : DroppedCall) (before : List Token) : Prop :=
  d.keyword = none → ∀ t ∈ before.getLast?, t.is ";" ∨ t.is "\x7b" ∨ t.is "\x7d"

/-- No word in the value shows that a failure is dealt with. -/
def Unhandled (d : DroppedCall) : Prop :=
  ∀ t ∈ d.value, t.text ∉ handlingWords

instance (d : DroppedCall) : Decidable d.Unhandled :=
  inferInstanceAs (Decidable (∀ t ∈ d.value, t.text ∉ handlingWords))

end DroppedCall

section Statement

variable {t o c : Token} {A P rest : List Token}

theorem statementFrom_of_opens {delimiter : Delimiter} (h : t.opens? = some delimiter) (depth : Nat)
    (rest : List Token) : statementFrom depth (t :: rest) = t :: statementFrom (depth + 1) rest := by
  simp [statementFrom, h]

theorem statementFrom_of_closes {delimiter : Delimiter} (h : t.closes? = some delimiter)
    (depth : Nat) (rest : List Token) :
    statementFrom (depth + 1) (t :: rest) = t :: statementFrom depth rest := by
  have ho := Token.opens?_eq_none_of_closes? h
  simp [statementFrom, ho, h]

theorem statementFrom_of_plain (ho : t.opens? = none) (hc : t.closes? = none) {depth : Nat}
    (hstop : t.isOperator ";" → depth ≠ 0) (rest : List Token) :
    statementFrom depth (t :: rest) = t :: statementFrom depth rest := by
  have hgoes : ¬ (t.isOperator ";" && depth == 0) := by simpa using hstop
  simp only [statementFrom, ho, hc, Option.isSome_none, Bool.false_eq_true, if_false, if_neg hgoes]

/-- Inside brackets, the end of a statement is looked for by counting brackets. -/
theorem countsBrackets_statementFrom : CountsBrackets statementFrom where
  opens h _ _ := statementFrom_of_opens h _ _
  closes h _ _ := statementFrom_of_closes h _ _
  plain ho hc _ _ := statementFrom_of_plain ho hc (by omega) _

/-- A group in round brackets belongs to the statement. -/
theorem statementFrom_group (ho : o.isOperator "(") (hA : WellNested A) (hc : c.isOperator ")")
    (depth : Nat) (rest : List Token) : statementFrom depth (o :: (A ++ c :: rest)) =
      o :: (A ++ c :: statementFrom depth rest) := by
  have hopens : o.opens? = some .paren := Token.isOperator_opener_iff.mp ho
  have hcloses : c.closes? = some .paren := Token.isOperator_closer_iff.mp hc
  have hinside := countsBrackets_statementFrom.append_of_nestAll hA depth (c :: rest)
  rw [List.length_nil, Nat.zero_add] at hinside
  rw [statementFrom_of_opens hopens, hinside, statementFrom_of_closes hcloses]

/-- A receiver belongs to the statement. -/
theorem IsReceiver.statementFrom_append (h : IsReceiver P) (rest : List Token) :
    statementFrom 0 (P ++ rest) = P ++ statementFrom 0 rest := by
  have word {n : Token} (hn : n.kind.isWordlike) :
      n.opens? = none ∧ n.closes? = none ∧ n.isOperator ";" = false := by
    cases hk : n.kind <;> rw [hk] at hn <;> simp_all [TokenKind.isWordlike, Token.opens?,
      Token.closes?, Token.isOperator]
  have mark {d : Token} {s : String} (hd : d.isOperator s) (hs : Plain s ∧ s ≠ ";") :
      d.opens? = none ∧ d.closes? = none ∧ d.isOperator ";" = false :=
    ⟨Token.opens?_of_isOperator hd hs.1, Token.closes?_of_isOperator hd hs.1,
      by simp [Token.isOperator_eq hd, hs.2]⟩
  have plain {t : Token} {P : List Token}
      (ht : t.opens? = none ∧ t.closes? = none ∧ t.isOperator ";" = false)
      (ih : statementFrom 0 (P ++ rest) = P ++ statementFrom 0 rest) :
      statementFrom 0 (t :: P ++ rest) = t :: P ++ statementFrom 0 rest := by
    obtain ⟨ho, hc, hstop⟩ := ht
    rw [List.cons_append, statementFrom_of_plain ho hc (by simp [hstop]), ih]
    rfl
  -- names and dots open no brackets and end no statement, and groups are passed as a whole
  induction h with
  | nil => rfl
  | name hn _ ih => exact plain (word hn) ih
  | dot hd _ ih =>
    rcases hd with hd | hd
    · exact plain (mark hd (by decide)) ih
    · exact plain (mark hd (by decide)) ih
  | group ho hA hc _ ih =>
    rw [List.cons_append, List.append_assoc, List.cons_append, statementFrom_group ho hA hc, ih]
    simp

namespace DroppedCall

variable (d : DroppedCall)

theorem value_ne_nil : d.value ≠ [] := by
  simp [value]

/-- The value is what stands before the end of the statement. -/
theorem statementFrom_value (after : List Token) :
    statementFrom 0 (d.value ++ d.stop :: after) = d.value := by
  have hname : d.callee.opens? = none ∧ d.callee.closes? = none := by
    simp [Token.opens?, Token.closes?, d.callee_kind]
  have hend : statementFrom 0 (d.stop :: after) = [] := by
    have hopens := Token.opens?_of_isOperator d.stop_is (by decide)
    have hcloses := Token.closes?_of_isOperator d.stop_is (by decide)
    simp [statementFrom, hopens, hcloses, d.stop_is]
  rw [value, List.append_assoc, d.receiver_is.statementFrom_append, List.cons_append,
    List.cons_append, List.append_assoc, List.singleton_append,
    statementFrom_of_plain hname.1 hname.2 (by simp [Token.isOperator_of_identifier d.callee_kind]),
    statementFrom_group d.opener_is d.arguments_nested d.closer_is, hend]

/-- **The statement is found.** -/
theorem discard?_eq {before : List Token} (hbefore : d.StartsBehind before) (after : List Token) :
    discard? ⟨(before ++ d.keyword.toList).reverse, d.place,
      d.assign :: (d.value ++ d.stop :: after)⟩ = some (d.place, d.value) := by
  have hstarts : (before ++ d.keyword.toList).reverse.head?.all
      (fun p => [";", "\x7b", "\x7d", "let"].contains p.text) := by
    -- the token before is the keyword, or where there is none, the last one in front
    rw [List.head?_reverse]
    cases hk : d.keyword with
    | some k => simp [Token.text_of_is (d.keyword_is k hk)]
    | none =>
      rw [Option.toList_none, List.append_nil]
      cases hlast : before.getLast? with
      | none => rfl
      | some t =>
        rcases hbefore hk t hlast with h | h | h <;> simp [Token.text_of_is h]
  obtain ⟨v, vs, hvalue⟩ := List.exists_cons_of_ne_nil d.value_ne_nil
  have hstatement := d.statementFrom_value after
  rw [discard?]
  dsimp only
  rw [hstarts, d.place_kind, d.place_text, d.assign_is, hstatement, hvalue]
  rfl

/-- The statement is judged by the first call in its receiver, or else by its own. -/
theorem callee?_value : callee? d.value = some ((calls d.receiver).head?.getD d.callee) := by
  rw [callee?_eq, value]
  exact head?_calls_append d.callee_kind (Token.is_of_isOperator d.opener_is) _ _

end DroppedCall

end Statement

/-! ## Findings -/

/-- What is said on a dropped call of the given name. -/
def discardMessage (name : String) : String :=
  "result of fallible call '" ++ name ++ "' is silently discarded"

theorem discardMessage_inj {name name' : String} :
    discardMessage name = discardMessage name' ↔ name = name' := by
  unfold discardMessage
  exact (String.append_left_inj _).trans (String.append_right_inj _)

section Findings

variable {s : Subject}

/-- **The remark on a statement**: its first call is of a fallible function, and nothing shows that a
failure is dealt with. -/
theorem mem_discardedErrorRemarks_iff {name : Token} {value : List Token} (hvalue : value ≠ []) :
    (discardedErrorRemarks s s.fallible name value).failure = none ∧
    ∀ m, m ∈ (discardedErrorRemarks s s.fallible name value).values ↔
      ∃ callee source, callee? value = some callee ∧ callee.text ∈ s.fallible ∧
        (∀ t ∈ value, t.text ∉ handlingWords) ∧ sourceText s value = .ok source ∧
        m = .at name.pos (discardMessage callee.text) (some (source ++ "?;")) := by
  -- a statement with a value has a source, so the remark on it cannot fail
  obtain ⟨source, hsource⟩ := exists_sourceText s hvalue
  cases hcallee : callee? value with
  | none => simp [discardedErrorRemarks, hcallee, Emission.all]
  | some callee =>
    have hcondition : (s.fallible.contains callee.text &&
        !value.any (handlingWords.contains ·.text)) = true ↔
          callee.text ∈ s.fallible ∧ ∀ t ∈ value, t.text ∉ handlingWords := by
      simp only [Bool.and_eq_true, Bool.not_eq_true', List.any_eq_false, List.contains_iff_mem]
    by_cases hdropped : callee.text ∈ s.fallible ∧ ∀ t ∈ value, t.text ∉ handlingWords
    · have hremarks : discardedErrorRemarks s s.fallible name value =
          .all [.at name.pos (discardMessage callee.text) (some (source ++ "?;"))] := by
        rw [discardedErrorRemarks, hcallee]
        dsimp only
        rw [if_pos (hcondition.mpr hdropped), hsource]
        rfl
      rw [hremarks]
      refine ⟨rfl, fun m => List.mem_singleton.trans ⟨?_, ?_⟩⟩
      · rintro rfl
        exact ⟨callee, source, rfl, hdropped.1, hdropped.2, hsource, rfl⟩
      · rintro ⟨_, _, ⟨⟩, -, -, hother, rfl⟩
        cases hsource.symm.trans hother
        rfl
    · have hremarks : discardedErrorRemarks s s.fallible name value = .all [] := by
        rw [discardedErrorRemarks, hcallee]
        dsimp only
        rw [if_neg (mt hcondition.mp hdropped)]
      rw [hremarks]
      refine ⟨rfl, fun m => iff_of_false List.not_mem_nil ?_⟩
      rintro ⟨_, _, ⟨⟩, hmem, hwords, -⟩
      exact hdropped ⟨hmem, hwords⟩

/-- **The findings** are those of the statements in the bodies of functions. -/
theorem mem_run_discardedErrorRule_iff {f : Finding} : f ∈ discardedErrorRule.run s ↔
    ∃ e sig name value callee source, (e, sig) ∈ s.functions ∧
      (name, value) ∈ discards (bodyTokens s.stream sig) ∧ callee? value = some callee ∧
      callee.text ∈ s.fallible ∧ (∀ t ∈ value, t.text ∉ handlingWords) ∧
      sourceText s value = .ok source ∧ f = discardedErrorRule.finding s.path
        (.at name.pos (discardMessage callee.text) (some (source ++ "?;"))) := by
  -- no statement makes the check fail, so its remarks are those on all statements
  have hstatements (sig : Signature) :
      Emission.each (fun d => discardedErrorRemarks s s.fallible d.1 d.2)
          (discards (bodyTokens s.stream sig)) =
        .all ((discards (bodyTokens s.stream sig)).flatMap fun d =>
          (discardedErrorRemarks s s.fallible d.1 d.2).values) :=
    Emission.each_eq_all fun d hd => (mem_discardedErrorRemarks_iff (mem_of_mem_discards hd).2).1
  have hcheck : discardedErrorRule.check s = .all (s.functions.flatMap fun p =>
      (discards (bodyTokens s.stream p.2)).flatMap fun d =>
        (discardedErrorRemarks s s.fallible d.1 d.2).values) := by
    show Emission.each (fun p => Emission.each
      (fun d => discardedErrorRemarks s s.fallible d.1 d.2)
      (discards (bodyTokens s.stream p.2))) s.functions = _
    simp only [hstatements]
    exact Emission.each_eq_all fun _ _ => rfl
  rw [Rule.run, hcheck]
  dsimp only [Emission.all]
  rw [List.mem_map]
  constructor
  · rintro ⟨m, hm, rfl⟩
    obtain ⟨⟨e, sig⟩, he, hm⟩ := List.mem_flatMap.mp hm
    obtain ⟨⟨name, value⟩, hd, hm⟩ := List.mem_flatMap.mp hm
    obtain ⟨callee, source, hcallee, hmem, hwords, hsource, rfl⟩ :=
      ((mem_discardedErrorRemarks_iff (mem_of_mem_discards hd).2).2 m).mp hm
    exact ⟨e, sig, name, value, callee, source, he, hd, hcallee, hmem, hwords, hsource, rfl⟩
  · rintro ⟨e, sig, name, value, callee, source, he, hd, hcallee, hmem, hwords, hsource, rfl⟩
    refine ⟨_, List.mem_flatMap.mpr ⟨(e, sig), he, List.mem_flatMap.mpr ⟨(name, value), hd, ?_⟩⟩, rfl⟩
    exact ((mem_discardedErrorRemarks_iff (mem_of_mem_discards hd).2).2 _).mpr
      ⟨callee, source, hcallee, hmem, hwords, hsource, rfl⟩

end Findings

/-! ## The dropped calls of a text -/

theorem token_of_discard? {c : Context} {d : Token × List Token} (h : discard? c = some d) :
    c.token = d.1 := by
  unfold discard? at h
  dsimp only at h
  split at h
  · split at h
    · split at h
      · cases h
      · cases h
        rfl
    · cases h
  · cases h

namespace DroppedCall

variable (d : DroppedCall) {inner before after : List Token}

/-- What stands in front of the name for nothing, the name, and what stands behind it. -/
theorem split_of_tokens (hinner : inner = before ++ (d.tokens ++ after)) :
    inner = (before ++ d.keyword.toList) ++
      d.place :: (d.assign :: (d.value ++ d.stop :: after)) := by
  rw [hinner, tokens]
  simp

/-- **A dropped call is found** where it stands. -/
theorem mem_discards (hinner : inner = before ++ (d.tokens ++ after))
    (hbefore : d.StartsBehind before) : (d.place, d.value) ∈ discards inner := by
  rw [d.split_of_tokens hinner]
  exact List.mem_filterMap.mpr ⟨_, Context.mem_all _ _ _, d.discard?_eq hbefore after⟩

/-- **Nothing else is found** at its place. -/
theorem value_unique (hinner : inner = before ++ (d.tokens ++ after))
    (hbefore : d.StartsBehind before) (ho : Ordered inner) {value : List Token}
    (h : (d.place, value) ∈ discards inner) : value = d.value := by
  have hsplit := d.split_of_tokens hinner
  obtain ⟨⟨seen, t, next⟩, hc, hvalue⟩ := List.mem_filterMap.mp h
  obtain rfl : t = d.place := token_of_discard? hvalue
  -- a token stands in one place of the body, so it has one context
  have hrun : seen.reverse ++ d.place :: next = inner := Context.run_of_mem_all hc
  rw [hsplit] at ho
  obtain ⟨hseen, hnext⟩ := ho.append_cons_inj (hsplit.symm.trans hrun.symm)
  obtain rfl : (before ++ d.keyword.toList).reverse = seen := by
    rw [hseen, List.reverse_reverse]
  rw [← hnext, d.discard?_eq hbefore after] at hvalue
  cases hvalue
  rfl

end DroppedCall

section Text

variable {path text : String} {e : Entry} {sig : Signature} {place : Token} {value : List Token}

/-- **The finding at a statement**: at the name for nothing, the first call in the value is named if
it is of a fallible function, and nothing shows that a failure is dealt with. -/
theorem exists_finding_iff (he : (e, sig) ∈ (Subject.ofText path text).functions)
    (hd : ∀ v, (place, v) ∈ discards (bodyTokens (TokenStream.ofText text) sig) ↔ v = value)
    (name : String) :
    (∃ f ∈ discardedErrorRule.run (Subject.ofText path text), f.line = place.line ∧
        f.column = place.column ∧ f.message = discardMessage name) ↔
      ∃ callee, callee? value = some callee ∧ callee.text = name ∧
        name ∈ (Subject.ofText path text).fallible ∧ ∀ t ∈ value, t.text ∉ handlingWords := by
  have hplace : (place, value) ∈ discards (bodyTokens (TokenStream.ofText text) sig) :=
    (hd value).mpr rfl
  have hscan {sig : Signature} {t : Token} {v : List Token}
      (h : (t, v) ∈ discards (bodyTokens (TokenStream.ofText text) sig)) : t ∈ scan text :=
    mem_of_mem_bodyTokens (mem_of_mem_discards h).1
  constructor
  · rintro ⟨f, hf, hline, hcolumn, hmessage⟩
    obtain ⟨e', sig', t, v, callee, source, he', hd', hcallee, hmem, hwords, -, rfl⟩ :=
      mem_run_discardedErrorRule_iff.mp hf
    -- the remark is on the same token, and so in the same body
    obtain rfl : t = place := eq_of_location_eq (hscan hd') (hscan hplace)
      (Int.ofNat_inj.mp hline) (Int.ofNat_inj.mp hcolumn)
    have hsame : sig'.body = sig.body :=
      bodyTokens_unique (mem_of_mem_functions he') (mem_of_mem_functions he)
        (signature?_of_mem_functions he') (signature?_of_mem_functions he)
        (mem_of_mem_discards hd').1 (mem_of_mem_discards hplace).1
    have hv : v = value := by
      refine (hd v).mp ?_
      rwa [bodyTokens, ← hsame, ← bodyTokens]
    have hname : callee.text = name := discardMessage_inj.mp hmessage
    rw [hv] at hcallee hwords
    exact ⟨callee, hcallee, hname, hname ▸ hmem, hwords⟩
  · rintro ⟨callee, hcallee, rfl, hmem, hwords⟩
    obtain ⟨source, hsource⟩ :=
      exists_sourceText (Subject.ofText path text) (mem_of_mem_discards hplace).2
    exact ⟨_, mem_run_discardedErrorRule_iff.mpr ⟨e, sig, place, value, callee, source, he, hplace,
      hcallee, hmem, hwords, hsource, rfl⟩, rfl, rfl, rfl⟩

/-- **A dropped call is remarked on if no call of another name is in its receiver.** Whatever the
path and the text, the check does not fail, and the body of a function stands on tokens of the text.
If a statement between its braces drops the value of a call of a fallible function, and no word in it
shows that a failure is dealt with, then the rule on discarded errors names that function at the
name for nothing just if the first call in the receiver, where there is one, has the same name. -/
theorem discards_of_text (path text : String) :
    let s := Subject.ofText path text
    let ts := significant (scan text)
    (discardedErrorRule.check s).failure = none ∧
    ∀ e sig body, (e, sig) ∈ s.functions → sig.body = some body →
      (∃ inner, StandsIn ts (BodyAround inner body)) ∧
      ∀ inner, StandsIn ts (BodyAround inner body) →
        ∀ (d : DroppedCall) (before after : List Token), inner = before ++ (d.tokens ++ after) →
          d.StartsBehind before → d.callee.text ∈ s.fallible → d.Unhandled →
          ((∃ f ∈ discardedErrorRule.run s, f.line = d.place.line ∧ f.column = d.place.column ∧
              f.message = discardMessage d.callee.text) ↔
            ∀ n ∈ (calls d.receiver).head?, n.text = d.callee.text) := by
  intro s ts
  refine ⟨(sound_discardedErrorRule s).failure_eq, fun e sig body he hbody => ⟨?_, ?_⟩⟩
  · exact exists_bodyAround (mem_of_mem_functions he) (signature?_of_mem_functions he) hbody
  intro inner hstands d before after hinner hbefore hfallible hunhandled
  have htokens : bodyTokens (TokenStream.ofText text) sig = inner := bodyTokens_eq hbody hstands
  have hd (v : List Token) :
      (d.place, v) ∈ discards (bodyTokens (TokenStream.ofText text) sig) ↔ v = d.value := by
    rw [htokens]
    constructor
    · exact d.value_unique hinner hbefore (ordered_and_holds_of_bodyAround hstands).1
    · rintro rfl
      exact d.mem_discards hinner hbefore
  -- the first call is the one in the receiver, and where there is none, the dropped one
  rw [exists_finding_iff he hd, d.callee?_value]
  cases (calls d.receiver).head? with
  | none => simpa using ⟨hfallible, hunhandled⟩
  | some n => simpa using fun _ => ⟨hfallible, hunhandled⟩

end Text

/-- A function that drops the value of a call on the value of another call. -/
def receiverText : String :=
  "fn g() -> Result<i32, E> \x7b\x7d fn f() \x7b let _ = a().g(x); \x7d"

/-- The statement in that function. -/
def receiverCall : DroppedCall where
  keyword := some (.onLine 37 .keyword "let")
  place := .onLine 41 .identifier "_"
  assign := .onLine 43 .operator "="
  receiver := [.onLine 45 .identifier "a", .onLine 46 .operator "(", .onLine 47 .operator ")",
    .onLine 48 .operator "."]
  callee := .onLine 49 .identifier "g"
  opener := .onLine 50 .operator "("
  arguments := [.onLine 51 .identifier "x"]
  closer := .onLine 52 .operator ")"
  stop := .onLine 53 .operator ";"
  keyword_is := by decide
  place_kind := rfl
  place_text := rfl
  assign_is := by decide
  receiver_is := .name (by decide) (.group (A := []) (by decide) rfl (by decide)
    (.dot (.inl (by decide)) .nil))
  callee_kind := rfl
  opener_is := by decide
  arguments_nested := by decide
  closer_is := by decide
  stop_is := by decide

/-- The statement is not found although the call is of a fallible function: another call stands in
its receiver. -/
theorem not_found_receiverCall :
    ∃ e sig body, (e, sig) ∈ (Subject.ofText "main.kl" receiverText).functions ∧
      sig.body = some body ∧
      StandsIn (significant (scan receiverText)) (BodyAround receiverCall.tokens body) ∧
      receiverCall.callee.text ∈ (Subject.ofText "main.kl" receiverText).fallible ∧
      receiverCall.Unhandled ∧
      ¬ ∃ f ∈ discardedErrorRule.run (Subject.ofText "main.kl" receiverText),
        f.line = receiverCall.place.line ∧ f.column = receiverCall.place.column ∧
          f.message = discardMessage receiverCall.callee.text := by
  have hbodies : (Subject.ofText "main.kl" receiverText).functions.map (·.2.body) =
      [some ⟨25, 27⟩, some ⟨35, 56⟩] := by
    decide +kernel
  obtain ⟨⟨e, sig⟩, he, hsig⟩ := List.mem_map.mp
    (hbodies ▸ List.mem_cons_of_mem _ (List.mem_singleton_self _))
  have hstands : StandsIn (significant (scan receiverText))
      (BodyAround receiverCall.tokens ⟨35, 56⟩) :=
    ⟨(significant (scan receiverText)).take 17, _, [], by decide +kernel, .onLine 35 .operator "\x7b",
      .onLine 55 .operator "\x7d", rfl, by decide, rfl⟩
  have hfallible : receiverCall.callee.text ∈ (Subject.ofText "main.kl" receiverText).fallible := by
    decide +kernel
  have hunhandled : receiverCall.Unhandled := by
    decide
  have hfound := ((discards_of_text "main.kl" receiverText).2 e sig _ he hsig).2 _ hstands
    receiverCall [] [] (by simp) (fun h => nomatch h) hfallible hunhandled
  refine ⟨e, sig, _, he, hsig, hstands, hfallible, hunhandled, fun h => ?_⟩
  exact absurd (hfound.mp h (.onLine 45 .identifier "a") (by decide)) (by decide)

end KlarAudit

import KlarAudit.Grammar.Opening
import KlarAudit.Proofs.Grammar.Nesting
import KlarAudit.Proofs.Token.Scanned

/-!
# What parsers take from the input

Whatever a parser reads, it takes from the front: the input is what it takes followed by what it
leaves. What it takes is described by the brackets that are open before and after it, so the parts
of a declaration compose like steps between stacks of open pairs.

## Main definitions

* `Between ls rest R`: the tokens of `ls` before its suffix `rest` satisfy `R`
* `Parser.Takes p R`: a value `a` that `p` reads comes with `R a ts` for the tokens `ts` it takes
* `Parser.Nests a p b`: `p` takes a run that turns the open pairs `a` into `b`

## Main results

* `Nests.bind`: one parser after another
* `nests_collect`, `nests_group`: the two ways to read a run of tokens leave no bracket open
-/

namespace KlarAudit

/-- The symbol is no bracket. -/
def Plain (s : String) : Prop :=
  ∀ d ∈ Delimiter.all, d.opener ≠ s ∧ d.closer ≠ s

instance (s : String) : Decidable (Plain s) :=
  inferInstanceAs (Decidable (∀ d ∈ Delimiter.all, _))

theorem Delimiter.mem_all (d : Delimiter) : d ∈ all := by
  cases d <;> simp [all]

namespace Token

theorem opens?_eq_none_of_text {t : Token} (h : Plain t.text) : t.opens? = none := by
  rw [Option.eq_none_iff_forall_ne_some]
  intro d hd
  exact (h d d.mem_all).1 (opens?_eq_some_iff.mp hd).2.symm

theorem closes?_eq_none_of_text {t : Token} (h : Plain t.text) : t.closes? = none := by
  rw [Option.eq_none_iff_forall_ne_some]
  intro d hd
  exact (h d d.mem_all).2 (closes?_eq_some_iff.mp hd).2.symm

theorem text_of_is {t : Token} {s : String} (h : t.is s) : t.text = s := by
  simp only [is, Bool.and_eq_true, beq_iff_eq] at h
  exact h.1

theorem Genuine.kind_of_is {t : Token} (ht : t.Genuine) {s : String} (h : t.is s)
    (hs : Munch.keywords.contains s = false) : t.kind = .operator := by
  have htext := text_of_is h
  simp only [is, Bool.and_eq_true] at h
  cases hk : t.kind with
  | operator => rfl
  | keyword =>
    have := ht hk
    rw [htext, hs] at this
    cases this
  | _ => rw [hk] at h; simp [TokenKind.isStructural] at h

theorem Genuine.opens?_of_is {t : Token} (ht : t.Genuine) {d : Delimiter} (h : t.is d.opener) :
    t.opens? = some d :=
  opens?_eq_some_iff.mpr ⟨ht.kind_of_is h (by cases d <;> decide +kernel), text_of_is h⟩

theorem Genuine.closes?_of_is {t : Token} (ht : t.Genuine) {d : Delimiter} (h : t.is d.closer) :
    t.closes? = some d :=
  closes?_eq_some_iff.mpr ⟨ht.kind_of_is h (by cases d <;> decide +kernel), text_of_is h⟩

end Token

/-- The grammar reads genuine tokens. -/
theorem genuine_ofTokens_scan (text : String) :
    ∀ t ∈ (Lexeme.ofTokens (scan text)).map Lexeme.token, t.Genuine := by
  rw [Lexeme.map_token_ofTokens]
  intro t ht
  exact genuine_of_mem_scan (List.mem_filter.mp ht).1

theorem shifts_of_is {t : Token} {s : String} (h : t.is s) (hs : Plain s) (a : List Delimiter) :
    Shifts a a [t] := by
  rw [← Token.text_of_is h] at hs
  exact shifts_of_plain (Token.opens?_eq_none_of_text hs) (Token.closes?_eq_none_of_text hs) a

theorem eq_cons_of_nextIs {s : String} {ls : List Lexeme} (h : nextIs s ls) :
    ∃ l, ls = l :: ls.tail ∧ l.token.is s := by
  cases ls with
  | nil => cases h
  | cons l ls => exact ⟨l, rfl, by simpa [nextIs] using h⟩

/-! ## Between the input and what is left -/

/-- **What stands between**: `rest` is a suffix of `ls`, and the tokens before it satisfy `R`. -/
abbrev Between (ls rest : List Lexeme) (R : List Token → Prop) : Prop :=
  ∃ taken, ls = taken ++ rest ∧ R (taken.map Lexeme.token)

namespace Between

variable {ls mid rest : List Lexeme} {R S T : List Token → Prop}

theorem refl (ls : List Lexeme) (h : R []) : Between ls ls R :=
  ⟨[], rfl, h⟩

theorem mono (h : Between ls rest R) (hS : ∀ ts, R ts → S ts) : Between ls rest S := by
  obtain ⟨taken, hls, hR⟩ := h
  exact ⟨taken, hls, hS _ hR⟩

/-- One stretch after another. -/
theorem trans (h : Between ls mid R) (k : Between mid rest S)
    (hT : ∀ ts us, R ts → S us → T (ts ++ us)) : Between ls rest T := by
  obtain ⟨taken, rfl, hR⟩ := h
  obtain ⟨more, rfl, hS⟩ := k
  refine ⟨taken ++ more, by rw [List.append_assoc], ?_⟩
  rw [List.map_append]
  exact hT _ _ hR hS

theorem suffix (h : Between ls rest R) : rest <:+ ls := by
  obtain ⟨taken, rfl, -⟩ := h
  exact List.suffix_append taken rest

/-- Nothing is left. -/
theorem all (h : Between ls [] R) : R (ls.map Lexeme.token) := by
  obtain ⟨taken, rfl, hR⟩ := h
  rw [List.append_nil]
  exact hR

end Between

namespace Parser

variable {α β : Type}

/-! ## Taking from the front -/

/-- **What a parser takes**: a value `a` that `p` reads comes with `R a ts` for the tokens `ts` that
it takes from the front of the input. -/
def Takes (p : Parser α) (R : α → List Token → Prop) : Prop :=
  ∀ ls a rest, p ls = .ok (a, rest) → Between ls rest (R a)

theorem Takes.mono {p : Parser α} {R S : α → List Token → Prop} (h : Takes p R)
    (hRS : ∀ a ts, R a ts → S a ts) : Takes p S :=
  fun ls a rest hp => (h ls a rest hp).mono (hRS a)

theorem Takes.bind {p : Parser α} {f : α → Parser β} {R : α → List Token → Prop}
    {S : α → β → List Token → Prop} {T : β → List Token → Prop} (hp : Takes p R)
    (hf : ∀ a, Takes (f a) (S a)) (h : ∀ a b ts us, R a ts → S a b us → T b (ts ++ us)) :
    Takes (p >>= f) T := by
  intro ls b rest hb
  obtain ⟨a, mid, h₁, h₂⟩ := bind_eq_ok.mp hb
  exact (hp _ _ _ h₁).trans (hf a _ _ _ h₂) (h a b)

/-- What is taken first does not matter to a relation that only looks at the end. -/
theorem Takes.before {p : Parser α} {f : α → Parser β} {R : α → List Token → Prop}
    {S : β → List Token → Prop} (hS : ∀ b ts us, S b us → S b (ts ++ us)) (hp : Takes p R)
    (hf : ∀ a, Takes (f a) S) : Takes (p >>= f) S :=
  hp.bind hf fun _ b ts us _ h => hS b ts us h

theorem takes_pure (a : α) {R : α → List Token → Prop} (h : R a []) : Takes (pure a) R := by
  intro ls b rest hb
  cases hb
  exact ⟨[], rfl, h⟩

theorem takes_accept (s : String) :
    Takes (accept s) fun t ts => ts = t.toList ∧ ∀ x ∈ t, x.is s := by
  intro ls t rest h
  cases ls with
  | nil => cases h; exact ⟨[], rfl, rfl, by simp⟩
  | cons l ls =>
    simp only [accept] at h
    split at h
    · rename_i hl
      cases h
      exact ⟨[l], rfl, rfl, by simpa using hl⟩
    · cases h
      exact ⟨[], rfl, rfl, by simp⟩

theorem takes_expect (s : String) : Takes (expect s) fun t ts => ts = [t] ∧ t.is s := by
  intro ls t rest h
  cases ls with
  | nil => cases h
  | cons l ls =>
    simp only [expect] at h
    split at h
    · rename_i hl
      cases h
      exact ⟨[l], rfl, rfl, hl⟩
    · cases h

theorem takes_expectName (what : String) :
    Takes (expectName what) fun t ts => ts = [t] ∧ t.kind = .identifier := by
  intro ls t rest h
  cases ls with
  | nil => cases h
  | cons l ls =>
    simp only [expectName] at h
    split at h
    · rename_i hl
      cases h
      exact ⟨[l], rfl, rfl, hl⟩
    · cases h

/-- The run collected inside the brackets `stack` closes them all. -/
theorem nestAll_of_collectFrom {terminators : List String} {angles : Bool} {stack : List Token}
    {angle : Nat} {ls rest : List Lexeme} {ts : List Token}
    (h : collectFrom terminators angles stack angle ls = .ok (ts, rest)) :
    nestAll stack ts = some [] := by
  refine collectFrom_induction (P := fun stack _ ts _ => nestAll stack ts = some []) ?stop ?step h
  case stop => exact fun _ _ => rfl
  case step =>
    intro stack stack' l ls ts rest hnest ih
    rw [nestAll_cons, hnest]
    exact ih

/-- A collected run is well nested, and it is all that is taken. -/
theorem takes_collect (terminators : List String) (angles : Bool) :
    Takes (collect terminators angles) fun run ts => ts = run ∧ WellNested run := by
  intro ls run rest h
  obtain ⟨htokens, hrest⟩ := collectFrom_eq_ok h
  -- the run is known as tokens only; the lexemes it stands for are as many in front of the input
  refine ⟨ls.take run.length, ?_, ?_, nestAll_of_collectFrom h⟩
  · rw [hrest, List.take_append_drop]
  · have := congrArg (List.take run.length) htokens
    rw [← List.map_take, List.take_left] at this
    exact this

/-- The rest of a bracket group closes all open brackets, the outermost one last. -/
theorem takes_groupFrom (o : Token) (stack : List Token) :
    Takes (groupFrom o stack) fun close ts =>
      nestAll (o :: stack) ts = some [] ∧ ts.getLast? = some close ∧ close.closes?.isSome := by
  intro ls close rest h
  induction ls generalizing o stack with
  | nil => cases h
  | cons l ls ih =>
    unfold groupFrom at h
    split at h
    · cases h
    · rename_i hn
      cases h
      refine ⟨[l], rfl, by rw [List.map_singleton, nestAll_cons, hn]; rfl, rfl, ?_⟩
      rcases nest_cases hn with ⟨d, -, ⟨⟩⟩ | ⟨-, -, ⟨⟩⟩ | ⟨d, _, -, hd, -⟩
      rw [hd]
      rfl
    · rename_i hn
      obtain ⟨taken, rfl, hnest, hlast, hclose⟩ := ih _ _ h
      refine ⟨l :: taken, rfl, ?_, ?_, hclose⟩
      · rw [List.map_cons, nestAll_cons, hn]
        exact hnest
      · rw [List.map_cons, List.getLast?_cons, hlast]
        rfl

/-! ## Steps between open pairs -/

/-- The run `ts`, if its tokens are genuine, turns the open pairs `a` into `b`. -/
def Leads (a b : List Delimiter) (ts : List Token) : Prop :=
  (∀ t ∈ ts, t.Genuine) → Shifts a b ts

theorem Leads.nil (a : List Delimiter) : Leads a a [] :=
  fun _ => Shifts.nil a

theorem Leads.append {a b c : List Delimiter} {ts us : List Token} (h : Leads a b ts)
    (k : Leads b c us) : Leads a c (ts ++ us) :=
  fun hg => (h fun t ht => hg t (List.mem_append_left _ ht)).append
    (k fun t ht => hg t (List.mem_append_right _ ht))

theorem leads_of_is {t : Token} {s : String} (h : t.is s) (hs : Plain s) (a : List Delimiter) :
    Leads a a [t] :=
  fun _ => shifts_of_is h hs a

theorem leads_of_opener {t : Token} (d : Delimiter) (h : t.is d.opener) (a : List Delimiter) :
    Leads a (d :: a) [t] :=
  fun hg => shifts_of_opens? ((hg t (List.mem_singleton_self t)).opens?_of_is h) a

theorem leads_of_closer {t : Token} (d : Delimiter) (h : t.is d.closer) (a : List Delimiter) :
    Leads (d :: a) a [t] :=
  fun hg => shifts_of_closes? ((hg t (List.mem_singleton_self t)).closes?_of_is h) a

/-- The next token, between open pairs. -/
theorem leads_of_nextIs {s : String} {ls : List Lexeme} (h : nextIs s ls) (hs : Plain s)
    (a : List Delimiter) : Between ls ls.tail (Leads a a) := by
  obtain ⟨l, hls, hl⟩ := eq_cons_of_nextIs h
  exact ⟨[l], hls, leads_of_is hl hs a⟩

theorem leads_of_nextIs_opener {ls : List Lexeme} (d : Delimiter) (h : nextIs d.opener ls)
    (a : List Delimiter) : Between ls ls.tail (Leads a (d :: a)) := by
  obtain ⟨l, hls, hl⟩ := eq_cons_of_nextIs h
  exact ⟨[l], hls, leads_of_opener d hl a⟩

theorem leads_of_nextIs_closer {ls : List Lexeme} (d : Delimiter) (h : nextIs d.closer ls)
    (a : List Delimiter) : Between ls ls.tail (Leads (d :: a) a) := by
  obtain ⟨l, hls, hl⟩ := eq_cons_of_nextIs h
  exact ⟨[l], hls, leads_of_closer d hl a⟩

theorem WellNested.leads {ts : List Token} (h : WellNested ts) (a : List Delimiter) :
    Leads a a ts :=
  fun _ => (wellNested_iff_shifts.mp h).around a

/-- **A parser between open pairs**: started inside the open pairs `a`, what `p` takes leads into
the open pairs `b`, which may depend on the value read. -/
def Nests (a : List Delimiter) (p : Parser α) (b : α → List Delimiter) : Prop :=
  Takes p fun x ts => Leads a (b x) ts

/-- **One parser after another.** -/
theorem Nests.bind {a : List Delimiter} {b : α → List Delimiter} {c : β → List Delimiter}
    {p : Parser α} {f : α → Parser β} (hp : Nests a p b) (hf : ∀ x, Nests (b x) (f x) c) :
    Nests a (p >>= f) c :=
  Takes.bind hp hf fun _ _ _ _ => Leads.append

theorem nests_pure_to (b : α → List Delimiter) (x : α) : Nests (b x) (pure x) b :=
  takes_pure x (Leads.nil (b x))

theorem nests_pure (a : List Delimiter) (x : α) : Nests a (pure x) fun _ => a :=
  nests_pure_to (fun _ => a) x

theorem nests_fail (a : List Delimiter) (b : α → List Delimiter) {p : Parser α}
    (h : ∀ ls r, p ls ≠ .ok r) : Nests a p b :=
  fun ls _ _ hp => absurd hp (h ls _)

theorem nests_peek? (a : List Delimiter) : Nests a peek? fun _ => a := by
  intro ls x rest h
  cases h
  exact ⟨[], rfl, Leads.nil a⟩

theorem nests_accept {s : String} (hs : Plain s) (a : List Delimiter) :
    Nests a (accept s) fun _ => a := by
  refine (takes_accept s).mono fun t ts h => ?_
  obtain ⟨rfl, h⟩ := h
  cases t with
  | none => exact Leads.nil a
  | some t => exact leads_of_is (h t rfl) hs a

/-- An opening bracket that may be missing. -/
theorem nests_accept_opener (d : Delimiter) (a : List Delimiter) :
    Nests a (accept d.opener) fun t => if t.isSome then d :: a else a := by
  refine (takes_accept d.opener).mono fun t ts h => ?_
  obtain ⟨rfl, h⟩ := h
  cases t with
  | none => exact Leads.nil a
  | some t => exact leads_of_opener d (h t rfl) a

theorem nests_expect {s : String} (hs : Plain s) (a : List Delimiter) :
    Nests a (expect s) fun _ => a := by
  refine (takes_expect s).mono fun t ts h => ?_
  obtain ⟨rfl, h⟩ := h
  exact leads_of_is h hs a

theorem nests_expect_opener (d : Delimiter) (a : List Delimiter) :
    Nests a (expect d.opener) fun _ => d :: a := by
  refine (takes_expect d.opener).mono fun t ts h => ?_
  obtain ⟨rfl, h⟩ := h
  exact leads_of_opener d h a

theorem nests_expect_closer (d : Delimiter) (a : List Delimiter) :
    Nests (d :: a) (expect d.closer) fun _ => a := by
  refine (takes_expect d.closer).mono fun t ts h => ?_
  obtain ⟨rfl, h⟩ := h
  exact leads_of_closer d h a

theorem nests_expectName (what : String) (a : List Delimiter) :
    Nests a (expectName what) fun _ => a := by
  refine (takes_expectName what).mono fun t ts h => ?_
  obtain ⟨rfl, h⟩ := h
  intro _
  apply shifts_of_plain
  · simp [Token.opens?, h]
  · simp [Token.closes?, h]

theorem nests_collect (terminators : List String) (angles : Bool) (a : List Delimiter) :
    Nests a (collect terminators angles) fun _ => a := by
  refine (takes_collect terminators angles).mono fun run ts h => ?_
  obtain ⟨rfl, h⟩ := h
  exact WellNested.leads h a

/-- **A bracket group** leaves no bracket open. -/
theorem nests_group (d : Delimiter) (a : List Delimiter) :
    Nests a (group d.opener) fun _ => a := by
  intro ls g rest h
  obtain ⟨-, rfl⟩ | ⟨l, tail, close, rfl, hl, hclose, -⟩ := group_eq_ok h
  · exact ⟨[], rfl, Leads.nil a⟩
  · obtain ⟨taken, rfl, hnest, -⟩ := takes_groupFrom _ _ _ _ _ hclose
    refine ⟨l :: taken, rfl, fun hg => ?_⟩
    -- with its opening bracket in front the group is well nested, so it may stand anywhere
    have ho := (hg l.token (by simp)).opens?_of_is hl
    refine Shifts.around (wellNested_iff_shifts.mp ?_) a
    rw [WellNested, List.map_cons, nestAll_cons, nest_of_opens? ho]
    exact hnest

end Parser

end KlarAudit

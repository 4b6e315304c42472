import KlarAudit.Grammar.Delimiter
import KlarAudit.Grammar.Issue
import KlarAudit.Grammar.Lexeme

/-!
# Reading lexemes

A parser takes lexemes from the front of the input and gives a value and the lexemes that are left,
or an error. Whatever it takes, what is left is a suffix of the input, so a parser that takes at
least one lexeme can be repeated until the input ends.

## Main definitions

* `Parser α`: reads an `α` from the front of the input
* `Parser.accept`, `Parser.expect`, `Parser.expectName`: one lexeme
* `Parser.group`: a bracket group, up to its closing bracket
* `Parser.collect`: the run of tokens before a terminator
* `Parser.Shortens`, `Parser.Advances`: what is left is no longer, or is shorter, than the input

## Main results

* `Shortens.bind`, `Advances.bind_left`, `Advances.bind_right`: both carry over to sequences
* `shortens_collect`, `shortens_group`: the two ways to read a run of tokens
* `collectFrom_induction`: how a run that has been read came about
* `group_eq_ok`: what a bracket group that has been read looks like
-/

namespace KlarAudit

/-- The next token of `ls` is the keyword or operator `s`. -/
def nextIs (s : String) (ls : List Lexeme) : Bool :=
  ls.head?.any (·.token.is s)

theorem ne_nil_of_nextIs {s : String} {ls : List Lexeme} (h : nextIs s ls) : ls ≠ [] := by
  rintro rfl
  cases h

theorem length_tail_lt_of_nextIs {s : String} {ls : List Lexeme} (h : nextIs s ls) :
    ls.tail.length < ls.length := by
  cases ls with
  | nil => cases h
  | cons l ls => simp

/-- **A parser**: reads a value from the front of the lexemes, or fails. -/
abbrev Parser := StateT (List Lexeme) (Except SyntaxError)

namespace Parser

variable {α β : Type}

/-- The next lexeme, which stays in the input. -/
def peek? : Parser (Option Lexeme) :=
  fun ls => .ok (ls.head?, ls)

/-- A parser that fails. -/
def fail (e : SyntaxError) : Parser α :=
  fun _ => .error e

/-- The next token is the keyword or operator `s`. -/
def atSymbol (s : String) : Parser Bool :=
  fun ls => .ok (nextIs s ls, ls)

/-- The next token, if it is the keyword or operator `s`. -/
def accept (s : String) : Parser (Option Token)
  | [] => .ok (none, [])
  | l :: ls => if l.token.is s then .ok (some l.token, ls) else .ok (none, l :: ls)

/-- The next token, which must be the keyword or operator `s`. -/
def expect (s : String) : Parser Token
  | [] => .error (.atEnd (.noSymbol s none))
  | l :: ls =>
    if l.token.is s then .ok (l.token, ls)
    else .error (.at (.noSymbol s (some l.token.text)) l.token)

/-- The next token, which must be a name; `what` says of what. -/
def expectName (what : String) : Parser Token
  | [] => .error (.atEnd (.noName what none))
  | l :: ls =>
    if l.token.kind = .identifier then .ok (l.token, ls)
    else .error (.at (.noName what (some l.token.text)) l.token)

/-- The rest of a bracket group whose opening tokens are `o :: stack`: the lexemes up to the bracket
that closes the outermost one, which is returned. -/
def groupFrom (o : Token) (stack : List Token) : Parser Token
  | [] => .error (.at .unterminated o)
  | l :: ls =>
    match nest (o :: stack) l.token with
    | none => .error (.at (.mismatched l.token.text) l.token)
    | some [] => .ok (l.token, ls)
    | some (o :: stack) => groupFrom o stack ls

/-- **A bracket group**: when the next token is the opening bracket `s`, the group it opens is read;
the result is its opening and its closing token. -/
def group (s : String) : Parser (Option (Token × Token))
  | [] => .ok (none, [])
  | l :: ls =>
    if l.token.is s then
      (groupFrom l.token [] ls).map fun (close, ls) => (some (l.token, close), ls)
    else .ok (none, l :: ls)

/-- The number of open angle brackets after a token outside other brackets. -/
def angleAfter (angle : Nat) (t : Token) : Nat :=
  if t.isOperator "<" then angle + 1 else if t.isOperator ">" then angle - 1 else angle

/-- The run of tokens before a terminator, inside the brackets `stack` and `angle` open angle
brackets. -/
def collectFrom (terminators : List String) (angles : Bool) (stack : List Token) (angle : Nat) :
    Parser (List Token)
  | [] => match stack with
    | [] => .error (.atEnd (.noTerminator terminators))
    | o :: _ => .error (.at .unterminated o)
  | l :: ls =>
    let t := l.token
    if stack.isEmpty && angle == 0 && t.kind.isStructural && terminators.contains t.text then
      .ok ([], l :: ls)
    else
      match nest stack t with
      | none => .error (.at (.mismatched t.text) t)
      | some stack' =>
        let angle' := if angles && stack.isEmpty then angleAfter angle t else angle
        (collectFrom terminators angles stack' angle' ls).map fun (ts, ls) => (t :: ts, ls)

/-- **The run of tokens before a terminator** outside brackets; the terminator stays in the input.
The flag `angles` says whether angle brackets outside other brackets protect a terminator. The
terminators are given in order. -/
def collect (terminators : List String) (angles : Bool) : Parser (List Token) :=
  collectFrom terminators angles [] 0

/-! ## What is left of the input -/

/-- What the parser leaves is no longer than the input. -/
def Shortens (p : Parser α) : Prop :=
  ∀ ls a rest, p ls = .ok (a, rest) → rest.length ≤ ls.length

/-- What the parser leaves is shorter than the input. -/
def Advances (p : Parser α) : Prop :=
  ∀ ls a rest, p ls = .ok (a, rest) → rest.length < ls.length

theorem Advances.shortens {p : Parser α} (h : Advances p) : Shortens p :=
  fun ls a rest e => Nat.le_of_lt (h ls a rest e)

/-- A sequence succeeds when both parts do, the second on what the first leaves. -/
theorem bind_eq_ok {p : Parser α} {f : α → Parser β} {ls rest : List Lexeme} {b : β} :
    (p >>= f) ls = .ok (b, rest) ↔ ∃ a mid, p ls = .ok (a, mid) ∧ f a mid = .ok (b, rest) := by
  show (StateT.bind p f) ls = _ ↔ _
  unfold StateT.bind
  cases h : p ls with
  | error e => simp [bind, Except.bind]
  | ok r =>
    obtain ⟨a, mid⟩ := r
    simp only [bind, Except.bind, Except.ok.injEq, Prod.mk.injEq]
    exact ⟨fun h => ⟨a, mid, ⟨rfl, rfl⟩, h⟩, by rintro ⟨_, _, ⟨rfl, rfl⟩, h⟩; exact h⟩

theorem map_eq_ok {p : Parser α} {f : α → β} {ls rest : List Lexeme} {b : β} :
    (f <$> p) ls = .ok (b, rest) ↔ ∃ a, p ls = .ok (a, rest) ∧ f a = b := by
  show (StateT.map f p) ls = _ ↔ _
  unfold StateT.map
  cases h : p ls with
  | error e => simp [bind, Except.bind]
  | ok r => obtain ⟨a, mid⟩ := r; simp [bind, Except.bind, pure, Except.pure]; grind

theorem except_map_eq_ok {f : α → β} {x : Except SyntaxError α} {b : β} :
    x.map f = .ok b ↔ ∃ a, x = .ok a ∧ f a = b := by
  cases x <;> simp [Except.map]

theorem shortens_pure (a : α) : Shortens (pure a) := by
  intro ls b rest h
  cases h
  exact Nat.le_refl _

theorem advances_fail (e : SyntaxError) : Advances (fail e : Parser α) :=
  fun _ _ _ h => nomatch h

theorem Shortens.bind {p : Parser α} {f : α → Parser β} (hp : Shortens p)
    (hf : ∀ a, Shortens (f a)) : Shortens (p >>= f) := by
  intro ls b rest h
  obtain ⟨a, mid, h₁, h₂⟩ := bind_eq_ok.mp h
  exact Nat.le_trans (hf a mid b rest h₂) (hp ls a mid h₁)

theorem Advances.bind_left {p : Parser α} {f : α → Parser β} (hp : Advances p)
    (hf : ∀ a, Shortens (f a)) : Advances (p >>= f) := by
  intro ls b rest h
  obtain ⟨a, mid, h₁, h₂⟩ := bind_eq_ok.mp h
  exact Nat.lt_of_le_of_lt (hf a mid b rest h₂) (hp ls a mid h₁)

theorem Advances.bind_right {p : Parser α} {f : α → Parser β} (hp : Shortens p)
    (hf : ∀ a, Advances (f a)) : Advances (p >>= f) := by
  intro ls b rest h
  obtain ⟨a, mid, h₁, h₂⟩ := bind_eq_ok.mp h
  exact Nat.lt_of_lt_of_le (hf a mid b rest h₂) (hp ls a mid h₁)

theorem shortens_peek? : Shortens peek? := by
  intro ls a rest h
  cases h
  exact Nat.le_refl _

theorem shortens_accept (s : String) : Shortens (accept s) := by
  intro ls a rest h
  cases ls with
  | nil => cases h; exact Nat.le_refl _
  | cons l ls =>
    simp only [accept] at h
    split at h <;> cases h <;> simp

theorem advances_expect (s : String) : Advances (expect s) := by
  intro ls a rest h
  cases ls with
  | nil => cases h
  | cons l ls =>
    simp only [expect] at h
    split at h <;> cases h; simp

theorem advances_expectName (what : String) : Advances (expectName what) := by
  intro ls a rest h
  cases ls with
  | nil => cases h
  | cons l ls =>
    simp only [expectName] at h
    split at h <;> cases h; simp

theorem advances_groupFrom (o : Token) (stack : List Token) : Advances (groupFrom o stack) := by
  intro ls a rest h
  induction ls generalizing o stack with
  | nil => cases h
  | cons l ls ih =>
    unfold groupFrom at h
    split at h
    · cases h
    · cases h; simp
    · have := ih _ _ h
      simp only [List.length_cons]; omega

/-- **A bracket group** is read up to its closing token, or nothing is taken where none opens. -/
theorem group_eq_ok {s : String} {ls rest : List Lexeme} {g : Option (Token × Token)}
    (h : group s ls = .ok (g, rest)) :
    (g = none ∧ rest = ls) ∨ ∃ l tail close, ls = l :: tail ∧ l.token.is s ∧
      groupFrom l.token [] tail = .ok (close, rest) ∧ g = some (l.token, close) := by
  cases ls with
  | nil =>
    cases h
    exact .inl ⟨rfl, rfl⟩
  | cons l tail =>
    simp only [group] at h
    split at h
    · rename_i hl
      obtain ⟨⟨close, left⟩, hclose, hr⟩ := except_map_eq_ok.mp h
      cases hr
      exact .inr ⟨l, tail, close, rfl, hl, hclose, rfl⟩
    · cases h
      exact .inl ⟨rfl, rfl⟩

theorem shortens_group (s : String) : Shortens (group s) := by
  intro ls g rest h
  obtain ⟨-, rfl⟩ | ⟨l, tail, close, rfl, -, hclose, -⟩ := group_eq_ok h
  · exact Nat.le_refl _
  · exact Nat.le_succ_of_le (Nat.le_of_lt (advances_groupFrom _ _ _ _ _ hclose))

/-- **Induction over a collected run.** A statement about the open brackets, the input, the run and
what is left holds of every run when it holds in front of a terminator outside brackets, and when
it passes from the tokens behind the next one to all of them. -/
theorem collectFrom_induction {terminators : List String} {angles : Bool}
    {P : List Token → List Lexeme → List Token → List Lexeme → Prop}
    (stop : ∀ {l ls}, l.token.kind.isStructural → l.token.text ∈ terminators →
      P [] (l :: ls) [] (l :: ls))
    (step : ∀ {stack stack' l ls ts rest}, nest stack l.token = some stack' →
      P stack' ls ts rest → P stack (l :: ls) (l.token :: ts) rest)
    {stack : List Token} {angle : Nat} {ls rest : List Lexeme} {ts : List Token}
    (h : collectFrom terminators angles stack angle ls = .ok (ts, rest)) : P stack ls ts rest := by
  induction ls generalizing stack angle ts rest with
  | nil => unfold collectFrom at h; split at h <;> cases h
  | cons l ls ih =>
    unfold collectFrom at h
    dsimp only at h
    split at h
    · rename_i hstop
      cases h
      simp only [Bool.and_eq_true, List.isEmpty_iff, List.contains_iff_mem] at hstop
      obtain ⟨⟨⟨rfl, -⟩, hkind⟩, htext⟩ := hstop
      exact stop hkind htext
    · split at h
      · cases h
      · rename_i hnest
        obtain ⟨⟨run, left⟩, hrun, hr⟩ := except_map_eq_ok.mp h
        cases hr
        exact step hnest (ih hrun)

/-- The tokens of a collected run and what is left make up the input. -/
theorem collectFrom_eq_ok {terminators : List String} {angles : Bool} {stack : List Token}
    {angle : Nat} {ls rest : List Lexeme} {ts : List Token}
    (h : collectFrom terminators angles stack angle ls = .ok (ts, rest)) :
    ls.map Lexeme.token = ts ++ rest.map Lexeme.token ∧ rest = ls.drop ts.length := by
  refine collectFrom_induction (P := fun _ ls ts rest =>
    ls.map Lexeme.token = ts ++ rest.map Lexeme.token ∧ rest = ls.drop ts.length) ?stop ?step h
  case stop => exact fun _ _ => ⟨rfl, rfl⟩
  case step =>
    rintro stack stack' l ls ts rest - ⟨htokens, hrest⟩
    exact ⟨by simp [htokens], by simp [hrest]⟩

theorem shortens_collect (terminators : List String) (angles : Bool) :
    Shortens (collect terminators angles) := by
  intro ls ts rest h
  rw [(collectFrom_eq_ok h).2, List.length_drop]
  omega

end Parser

end KlarAudit

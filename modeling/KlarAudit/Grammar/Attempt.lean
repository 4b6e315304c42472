import KlarAudit.Grammar.Parser

/-!
# Attempts

Reading a declaration may recover from errors inside it. An attempt collects the issues recorded on
the way, which stay recorded even when the declaration as a whole turns out to be unreadable.

## Main definitions

* `Attempt α`: the issues recorded, and a value or an error
* `Attempt.record`: records an issue
* `Attempt.ofParser p ls`: runs a parser, which records nothing
-/

namespace KlarAudit

/-- **An attempt**: the issues recorded so far, and its outcome. -/
structure Attempt (α : Type) where
  /-- The issues recorded, in order. -/
  issues : List Issue
  /-- A value, or the error that ended the attempt. -/
  outcome : Except SyntaxError α

namespace Attempt

variable {α β : Type}

/-- An attempt that fails. -/
def fail (e : SyntaxError) : Attempt α :=
  ⟨[], .error e⟩

/-- Records an issue. -/
def record (i : Issue) : Attempt Unit :=
  ⟨[i], .ok ()⟩

/-- An attempt that records nothing. -/
def ofExcept (r : Except SyntaxError α) : Attempt α :=
  ⟨[], r⟩

/-- A parser run on the lexemes `ls`. -/
def ofParser (p : Parser α) (ls : List Lexeme) : Attempt (α × List Lexeme) :=
  ofExcept (p ls)

/-- One attempt after another: the issues add up, and the first error ends both. -/
def andThen (x : Attempt α) (f : α → Attempt β) : Attempt β :=
  match x.outcome with
  | .error e => ⟨x.issues, .error e⟩
  | .ok a => ⟨x.issues ++ (f a).issues, (f a).outcome⟩

instance : Monad Attempt where
  pure a := ⟨[], .ok a⟩
  bind := andThen

@[simp] theorem issues_pure (a : α) : (pure a : Attempt α).issues = [] := rfl

@[simp] theorem outcome_pure (a : α) : (pure a : Attempt α).outcome = .ok a := rfl

/-- A sequence succeeds when both attempts do. -/
theorem outcome_bind_eq_ok {x : Attempt α} {f : α → Attempt β} {b : β} :
    (x >>= f).outcome = .ok b ↔ ∃ a, x.outcome = .ok a ∧ (f a).outcome = .ok b := by
  show (x.andThen f).outcome = _ ↔ _
  unfold andThen
  cases x.outcome <;> simp

theorem outcome_map_eq_ok {x : Attempt α} {f : α → β} {b : β} :
    (f <$> x).outcome = .ok b ↔ ∃ a, x.outcome = .ok a ∧ f a = b := by
  show (x.andThen fun a => pure (f a)).outcome = _ ↔ _
  unfold andThen
  cases x.outcome <;> simp

end Attempt

end KlarAudit

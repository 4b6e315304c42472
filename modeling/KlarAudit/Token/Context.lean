import KlarAudit.Token.Basic

/-!
# Tokens in context

A check that looks for a pattern in a run of tokens looks at every token in turn, together with the
tokens around it.

## Main definitions

* `Context`: a token, the tokens before it and the tokens after it
* `Context.all ts`: every token of `ts` in its context
-/

namespace KlarAudit

/-- **A token in its context.** -/
structure Context where
  /-- The tokens before it, the nearest first. -/
  before : List Token
  /-- The token. -/
  token : Token
  /-- The tokens after it, the nearest first. -/
  after : List Token
deriving DecidableEq, Repr

namespace Context

/-- Every token of `ts` in its context, after the tokens `before`, nearest first. -/
def allFrom (before : List Token) : List Token → List Context
  | [] => []
  | t :: ts => ⟨before, t, ts⟩ :: allFrom (t :: before) ts

/-- **Every token of a run in its context**, in order. -/
def all (ts : List Token) : List Context :=
  allFrom [] ts

/-- The index of the token in its run. -/
def index (c : Context) : Nat :=
  c.before.length

/-- The whole run. -/
def run (c : Context) : List Token :=
  c.before.reverse ++ c.token :: c.after

theorem run_of_mem_allFrom {before ts : List Token} {c : Context} (h : c ∈ allFrom before ts) :
    c.run = before.reverse ++ ts := by
  induction ts generalizing before with
  | nil => cases h
  | cons t ts ih =>
    rcases List.mem_cons.mp h with rfl | h
    · rfl
    · simpa using ih h

/-- Every context is one of the run it is taken from. -/
theorem run_of_mem_all {ts : List Token} {c : Context} (h : c ∈ all ts) : c.run = ts := by
  simpa using run_of_mem_allFrom h

/-- A token in its context is one of the run. -/
theorem token_mem_of_mem_all {ts : List Token} {c : Context} (h : c ∈ all ts) :
    c.token ∈ ts := by
  rw [← run_of_mem_all h, run]
  exact List.mem_append_right _ List.mem_cons_self

/-- The tokens after a token are those of the run. -/
theorem mem_of_mem_after {ts : List Token} {c : Context} (h : c ∈ all ts) {t : Token}
    (ht : t ∈ c.after) : t ∈ ts := by
  rw [← run_of_mem_all h, run]
  exact List.mem_append_right _ (List.mem_cons_of_mem _ ht)

theorem mem_allFrom (seen before : List Token) (t : Token) (after : List Token) :
    ⟨before.reverse ++ seen, t, after⟩ ∈ allFrom seen (before ++ t :: after) := by
  induction before generalizing seen with
  | nil => exact List.mem_cons_self
  | cons b before ih =>
    refine List.mem_cons_of_mem _ ?_
    have hmem := ih (b :: seen)
    rwa [List.reverse_cons, List.append_assoc, List.singleton_append]

/-- Every token of a run is met in its context. -/
theorem mem_all (before : List Token) (t : Token) (after : List Token) :
    ⟨before.reverse, t, after⟩ ∈ all (before ++ t :: after) := by
  have hmem := mem_allFrom [] before t after
  rwa [List.append_nil] at hmem

theorem map_token_allFrom (seen ts : List Token) : (allFrom seen ts).map token = ts := by
  induction ts generalizing seen with
  | nil => rfl
  | cons t ts ih => rw [allFrom, List.map_cons, ih]

theorem exists_allFrom_split (seen before : List Token) (t : Token) (after : List Token) :
    ∃ front back, allFrom seen (before ++ t :: after) =
      front ++ ⟨before.reverse ++ seen, t, after⟩ :: back ∧
      front.map token = before ∧ back.map token = after := by
  induction before generalizing seen with
  | nil => exact ⟨[], allFrom (t :: seen) after, rfl, rfl, map_token_allFrom _ _⟩
  | cons b before ih =>
    obtain ⟨front, back, hsplit, hfront, hback⟩ := ih (b :: seen)
    refine ⟨⟨seen, b, before ++ t :: after⟩ :: front, back, ?_, by rw [List.map_cons, hfront], hback⟩
    rw [List.cons_append, allFrom, hsplit, List.reverse_cons, List.append_assoc,
      List.singleton_append, List.cons_append]

/-- The contexts of a run, split at one of its tokens. -/
theorem exists_all_split (before : List Token) (t : Token) (after : List Token) :
    ∃ front back, all (before ++ t :: after) = front ++ ⟨before.reverse, t, after⟩ :: back ∧
      front.map token = before ∧ back.map token = after := by
  have hsplit := exists_allFrom_split [] before t after
  rwa [List.append_nil] at hsplit

end Context

end KlarAudit

/-!
# What a check emits

A check emits its remarks one after another while it looks at a file. A step that needs something
that is not there fails and ends the check early, when some remarks may already have been emitted.

## Main definitions

* `CheckFailure`: why a check ended early
* `Emission α`: the values emitted, and the failure that ended the emission, if one did
* `Emission.after`, `Emission.each`: what is emitted after a step that may fail, and for each member
  of a list

## Main results

* `Sound.after`, `Sound.each`: an emission that does not fail is put together from parts that do not
* `each_eq_all`: what is emitted where nothing fails
-/

namespace KlarAudit

/-- Why a check ended early: the kind of the failure, and what it says. -/
structure CheckFailure where
  /-- The kind. -/
  kind : String
  /-- What it says. -/
  message : String
deriving DecidableEq, Repr, Inhabited

namespace CheckFailure

/-- An index lies outside a sequence; `sequence` says of what kind the sequence is. -/
def outOfRange (sequence : String) : CheckFailure :=
  ⟨"IndexError", sequence ++ " index out of range"⟩

/-- What is common to no sets at all is asked for. -/
def noSets : CheckFailure :=
  ⟨"TypeError", "unbound method set.intersection() needs an argument"⟩

end CheckFailure

/-- **An emission**: values, one after another, and the failure that ended it early, if one did. -/
structure Emission (α : Type) where
  /-- The values, in order. -/
  values : List α
  /-- The failure. -/
  failure : Option CheckFailure := none
deriving DecidableEq, Repr, Inhabited

namespace Emission

variable {α β : Type}

/-- The given values, without a failure. -/
def all (values : List α) : Emission α :=
  ⟨values, none⟩

/-- A failure before anything is emitted. -/
def error (f : CheckFailure) : Emission α :=
  ⟨[], some f⟩

/-- One emission after another; nothing comes after a failure. -/
def andThen (x y : Emission α) : Emission α :=
  match x.failure with
  | some f => ⟨x.values, some f⟩
  | none => ⟨x.values ++ y.values, y.failure⟩

/-- **What is emitted after a step** that may fail. -/
def after (step : Except CheckFailure β) (f : β → Emission α) : Emission α :=
  match step with
  | .error e => error e
  | .ok b => f b

/-- **What is emitted for each member** of a list, in order. -/
def each (f : β → Emission α) : List β → Emission α
  | [] => all []
  | b :: bs => (f b).andThen (each f bs)

/-- What `f` makes of the values. -/
def filterMap (f : α → Option β) (x : Emission α) : Emission β :=
  ⟨x.values.filterMap f, x.failure⟩

/-! ## Emissions that do not fail -/

/-- **The emission does not fail**, and its values satisfy `R`. -/
structure Sound (R : α → Prop) (x : Emission α) : Prop where
  /-- It does not end early. -/
  failure_eq : x.failure = none
  /-- Its values satisfy `R`. -/
  values : ∀ a ∈ x.values, R a

namespace Sound

variable {R : α → Prop} {S : β → Prop} {x y : Emission α}

theorem mono {T : α → Prop} (h : x.Sound R) (hT : ∀ a, R a → T a) : x.Sound T :=
  ⟨h.failure_eq, fun a ha => hT a (h.values a ha)⟩

theorem andThen (hx : x.Sound R) (hy : y.Sound R) : (x.andThen y).Sound R := by
  obtain ⟨hf, hxs⟩ := hx
  refine ⟨?_, fun a ha => ?_⟩
  · rw [Emission.andThen, hf]
    exact hy.failure_eq
  · rw [Emission.andThen, hf] at ha
    exact (List.mem_append.mp ha).elim (hxs a) (hy.values a)

/-- A step that does not fail. -/
theorem after {step : Except CheckFailure β} {f : β → Emission α} {b : β}
    (hstep : step = .ok b) (hf : (f b).Sound R) : (after step f).Sound R := by
  rw [hstep]
  exact hf

theorem each {f : β → Emission α} {bs : List β} (h : ∀ b ∈ bs, (f b).Sound R) :
    (each f bs).Sound R := by
  induction bs with
  | nil => exact ⟨rfl, fun a ha => absurd ha List.not_mem_nil⟩
  | cons b bs ih =>
    obtain ⟨hb, hbs⟩ := List.forall_mem_cons.mp h
    exact hb.andThen (ih hbs)

theorem filterMap {f : α → Option β} (hx : x.Sound R) (hf : ∀ a, R a → ∀ b ∈ f a, S b) :
    (x.filterMap f).Sound S := by
  refine ⟨hx.failure_eq, fun b hb => ?_⟩
  obtain ⟨a, ha, hb⟩ := List.mem_filterMap.mp hb
  exact hf a (hx.values a ha) b hb

end Sound

theorem sound_all {R : α → Prop} {values : List α} (h : ∀ a ∈ values, R a) :
    (all values).Sound R :=
  ⟨rfl, h⟩

theorem sound_all_filterMap {R : α → Prop} {f : β → Option α} {bs : List β}
    (h : ∀ b ∈ bs, ∀ a ∈ f b, R a) : (all (bs.filterMap f)).Sound R := by
  refine sound_all fun a ha => ?_
  obtain ⟨b, hb, ha⟩ := List.mem_filterMap.mp ha
  exact h b hb a ha

/-- What is emitted for the members of a list, if none of them fails. -/
theorem each_eq_all {f : β → Emission α} {bs : List β} (h : ∀ b ∈ bs, (f b).failure = none) :
    each f bs = all (bs.flatMap fun b => (f b).values) := by
  induction bs with
  | nil => rfl
  | cons b bs ih =>
    obtain ⟨hb, hbs⟩ := List.forall_mem_cons.mp h
    rw [each, andThen, hb, ih hbs]
    rfl

theorem mem_values_each {f : β → Emission α} {bs : List β} (h : ∀ b ∈ bs, (f b).failure = none)
    {a : α} : a ∈ (each f bs).values ↔ ∃ b ∈ bs, a ∈ (f b).values := by
  rw [each_eq_all h]
  exact List.mem_flatMap

end Emission

end KlarAudit

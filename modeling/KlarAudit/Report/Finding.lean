/-!
# Findings

A finding is one thing that an audit has to say about a file: which rule says it, how severe it is,
where, and what to do about it. Findings are reported in the order of their file, place, rule and
message.

## Main definitions

* `Severity`: how severe a finding is
* `Severity.AtLeast s t`: `s` is at least as severe as `t`
* `Finding`: a reported problem
* `Finding.order`: the order in which findings are reported
-/

namespace KlarAudit

/-- **How severe a finding is.** -/
inductive Severity where
  /-- Must be fixed. -/
  | critical
  /-- Should be fixed. -/
  | high
  /-- Worth fixing. -/
  | medium
  /-- A blemish. -/
  | low
  /-- A matter of taste. -/
  | suggestion
deriving DecidableEq, Repr, Inhabited

namespace Severity

/-- All severities, the most severe first. -/
def all : List Severity :=
  [critical, high, medium, low, suggestion]

/-- The name of a severity. -/
def label : Severity → String
  | critical => "critical"
  | high => "high"
  | medium => "medium"
  | low => "low"
  | suggestion => "suggestion"

/-- The severity of the given name. -/
def ofLabel? (s : String) : Option Severity :=
  all.find? (·.label == s)

/-- The rank of a severity; a higher one is more severe. -/
def rank : Severity → Nat
  | critical => 4
  | high => 3
  | medium => 2
  | low => 1
  | suggestion => 0

/-- The severity `s` is at least as severe as `t`. -/
def AtLeast (s t : Severity) : Prop :=
  t.rank ≤ s.rank

instance (s t : Severity) : Decidable (s.AtLeast t) :=
  inferInstanceAs (Decidable (_ ≤ _))

@[simp] theorem ofLabel?_label (s : Severity) : ofLabel? s.label = some s := by
  cases s <;> decide

end Severity

/-- **A finding.** -/
structure Finding where
  /-- The identifier of the rule. -/
  rule : String
  /-- How severe the problem is. -/
  severity : Severity
  /-- The file, as the report shows it. -/
  file : String
  /-- The line, from one. -/
  line : Int
  /-- The column, from one. -/
  column : Int
  /-- What the problem is. -/
  message : String
  /-- What to write instead. -/
  fix : Option String := none
deriving DecidableEq, Repr, Inhabited

namespace Finding

/-- **The order of findings**: by file, line, column, rule and message. Severity and fix do not
count, so two findings may be on a par without being equal. -/
def order : Finding → Finding → Ordering :=
  compareLex (compareOn file) <| compareLex (compareOn line) <| compareLex (compareOn column) <|
    compareLex (compareOn rule) (compareOn message)

/-- The finding `a` may stand before `b`. -/
def le (a b : Finding) : Bool :=
  (order a b).isLE

instance : Std.TransCmp order :=
  inferInstanceAs (Std.TransCmp (compareLex _ _))

theorem le_trans (a b c : Finding) (hab : le a b) (hbc : le b c) : le a c :=
  Std.TransCmp.isLE_trans hab hbc

theorem le_total (a b : Finding) : (le a b || le b a) = true := by
  unfold le
  rw [@Std.OrientedCmp.eq_swap _ order _ b a]
  cases order a b <;> rfl

end Finding

/-- The rule of findings that say that a file could not be read as a program. -/
def parseErrorRule : String :=
  "parse-error"

/-- The rule of findings that say that a file could not be read at all. -/
def ioErrorRule : String :=
  "io-error"

end KlarAudit

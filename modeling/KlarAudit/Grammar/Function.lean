import KlarAudit.Grammar.Generic
import KlarAudit.Grammar.Preamble

/-!
# Functions

A function has a parameter list, perhaps with a receiver, perhaps a return type and bounds, and then
a body or a semicolon. The body is read as one bracket group.

## Main definitions

* `Parser.Slot`: a receiver or a parameter
* `Parser.slots`: a parameter list
* `Parser.function`: a function

## Main results

* `slots_induction`: what holds of every way to read a parameter list
* `advances_function`: a function takes at least one lexeme
-/

namespace KlarAudit.Parser

/-- What stands between two commas of a parameter list. -/
inductive Slot where
  /-- The receiver, as written. -/
  | receiver (text : String)
  /-- A parameter. -/
  | param (p : Parameter)
deriving DecidableEq, Repr

/-- The slot that a run of tokens, whose first is `t`, describes: a receiver if it names `self`
before any colon, else a parameter, whose name is the last one before its colon. -/
def slotOfRun (t : Token) (ts : List Token) : Except SyntaxError Slot :=
  let run := t :: ts
  let colon := Run.colon? run
  let isReceiver := match run.findIdx? (·.text == "self"), colon with
    | none, _ => false
    | some _, none => true
    | some i, some k => i < k
  if isReceiver then .ok (.receiver (Run.render run))
  else
    match colon with
    | none => .error (.at (.noColon t.text) t)
    | some k =>
      match ((run.take k).filter (·.kind == .identifier)).getLast? with
      | none => .error (.at .noParameterName t)
      | some name => .ok (.param ⟨name.text, Run.render (run.drop (k + 1)), name.pos⟩)

/-- The slots that a run of tokens describes: none if it is empty. -/
def slotsOfRun : List Token → Except SyntaxError (List Slot)
  | [] => .ok []
  | t :: ts => (slotOfRun t ts).map ([·])

/-- **A parameter list**, after its opening bracket. -/
def slots (ls : List Lexeme) : Except SyntaxError (List Slot × List Lexeme) :=
  if nextIs ")" ls then .ok ([], ls.tail)
  else
    match _h : collect [")", ","] true ls with
    | .error e => .error e
    | .ok (run, rest) =>
      match slotsOfRun run with
      | .error e => .error e
      | .ok here =>
        if _hc : nextIs "," rest then (slots rest.tail).map fun (more, ls) => (here ++ more, ls)
        else (expect ")" rest).map fun (_, ls) => (here, ls)
termination_by ls.length
decreasing_by
  exact Nat.lt_of_lt_of_le (length_tail_lt_of_nextIs _hc) (shortens_collect _ _ _ _ _ _h)

/-- **Induction over a parameter list.** A statement about the input, the slots and what is left
holds of every list that is read when it holds of the closing bracket alone, when it passes from
the slots behind a comma to those of the run in front of it, and when it holds of a last run. -/
theorem slots_induction {P : List Lexeme → List Slot → List Lexeme → Prop}
    (close : ∀ {ls}, nextIs ")" ls → P ls [] ls.tail)
    (comma : ∀ {ls run left here more rest}, ¬ nextIs ")" ls →
      collect [")", ","] true ls = .ok (run, left) → slotsOfRun run = .ok here →
      nextIs "," left → P left.tail more rest → P ls (here ++ more) rest)
    (last : ∀ {ls run left here bracket rest}, ¬ nextIs ")" ls →
      collect [")", ","] true ls = .ok (run, left) → slotsOfRun run = .ok here →
      ¬ nextIs "," left → expect ")" left = .ok (bracket, rest) → P ls here rest)
    {ls rest : List Lexeme} {ss : List Slot} (h : slots ls = .ok (ss, rest)) : P ls ss rest := by
  fun_induction slots ls generalizing ss rest with
  | case1 ls hn =>
    cases h
    exact close hn
  | case2 ls hn e he => cases h
  | case3 ls hn run left he e hs => cases h
  | case4 ls hn run left he here hs hc ih =>
    obtain ⟨⟨more, rest'⟩, hr, hx⟩ := except_map_eq_ok.mp h
    cases hx
    exact comma hn he hs hc (ih hr)
  | case5 ls hn run left he here hs hc =>
    obtain ⟨⟨bracket, rest'⟩, hr, hx⟩ := except_map_eq_ok.mp h
    cases hx
    exact last hn he hs hc hr

theorem shortens_slots : Shortens slots := by
  intro ls ss rest h
  refine slots_induction (P := fun ls _ rest => rest.length ≤ ls.length) ?close ?comma ?last h
  case close =>
    intro ls _
    rw [List.length_tail]
    omega
  case comma =>
    intro ls run left here more rest _ hrun _ hc ih
    have := length_tail_lt_of_nextIs hc
    have := shortens_collect _ _ _ _ _ hrun
    omega
  case last =>
    intro ls run left here bracket rest _ hrun _ _ hclose
    have := advances_expect _ _ _ _ hclose
    have := shortens_collect _ _ _ _ _ hrun
    omega

/-- The body of a function, or the semicolon in its place: the span of the body, and where the
function ends. -/
def functionBody (name : String) : Parser (Option Span × Nat) := do
  match ← group "\x7b" with
  | some (o, c) => pure (some ⟨o.start, c.stop⟩, c.stop)
  | none =>
    match ← accept ";" with
    | some t => pure (none, t.stop)
    | none => fun ls => .error ⟨.noBody name, (ls.head?.map (.token ·.token)).getD .lastSignificant⟩

/-- **A function.** -/
def function (pre : Preamble) : Parser Declaration := do
  let _ ← expect "fn"
  let name ← expectName "function name"
  let generics ← generics
  let _ ← expect "("
  let slots ← slots
  let returnType ← typeAfter "->" [";", "where", "\x7b"]
  let bounds ← whereBounds
  let (body, stop) ← functionBody name.text
  let signature : Signature :=
    { generics := generics.bounding bounds
      params := slots.filterMap fun | .param p => some p | .receiver _ => none
      receiver := (slots.filterMap fun | .receiver r => some r | .param _ => none).getLast?
      returnType, body
      isUnsafe := pre.isUnsafe }
  pure
    { shape := .function signature
      name := name.text
      pos := name.pos
      isPublic := pre.isPublic
      doc := pre.doc
      span := ⟨pre.first.start, stop⟩ }

theorem shortens_functionBody (name : String) : Shortens (functionBody name) := by
  refine (shortens_group _).bind fun g => ?_
  cases g with
  | some _ => exact shortens_pure _
  | none =>
    refine (shortens_accept _).bind fun t => ?_
    cases t with
    | some _ => exact shortens_pure _
    | none => exact fun _ _ _ h => nomatch h

theorem advances_function (pre : Preamble) : Advances (function pre) :=
  (advances_expect _).bind_left fun _ => (advances_expectName _).shortens.bind fun _ =>
    shortens_generics.bind fun _ => (advances_expect _).shortens.bind fun _ =>
      shortens_slots.bind fun _ => (shortens_typeAfter _ _).bind fun _ =>
        shortens_whereBounds.bind fun _ => (shortens_functionBody _).bind fun _ => shortens_pure _

end KlarAudit.Parser

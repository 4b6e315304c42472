import KlarAudit.Grammar.Forest

/-!
# Reading declarations with their members

The readers of declarations and of bodies call each other. Their equations are stated here case by
case, and one induction follows a reading through both: a statement about declarations and a
statement about bodies hold together when each step preserves them. In a successful reading,
recovery is one of the steps and the failed member it skips is not.

## Main definitions

* `Tally`: counts along a reading

## Main results

* `fields_of_field`, `item_of_block`, `members_of_item`, `members_of_resync`: the equations
* `forest_induction`: induction over a reading
* `reading_induction`: induction over a successful reading
* `topLevel_induction`: induction over the declarations of a file
-/

namespace KlarAudit

/-! ## Attempts in sequence -/

namespace Attempt

variable {α β : Type}

theorem issues_bind_of_ok {x : Attempt α} {a : α} (h : x.outcome = .ok a) (f : α → Attempt β) :
    (x >>= f).issues = x.issues ++ (f a).issues := by
  show (x.andThen f).issues = _
  simp [andThen, h]

theorem issues_bind_of_error {x : Attempt α} {e : SyntaxError} (h : x.outcome = .error e)
    (f : α → Attempt β) : (x >>= f).issues = x.issues := by
  show (x.andThen f).issues = _
  simp [andThen, h]

theorem issues_ofParser_bind {p : Parser α} {ls rest : List Lexeme} {a : α}
    (h : p ls = .ok (a, rest)) (f : α × List Lexeme → Attempt β) :
    (ofParser p ls >>= f).issues = (f (a, rest)).issues :=
  issues_bind_of_ok (x := ofParser p ls) h f

/-- An attempt without issues is known by its outcome. -/
theorem eq_of_ok {x : Attempt α} {a : α} (hi : x.issues = []) (ho : x.outcome = .ok a) :
    x = ⟨[], .ok a⟩ := by
  obtain ⟨issues, outcome⟩ := x
  rw [show issues = [] from hi, show outcome = .ok a from ho]

theorem issues_map (f : α → β) (x : Attempt α) : (f <$> x).issues = x.issues := by
  show (x.andThen fun a => pure (f a)).issues = _
  unfold andThen
  cases x.outcome <;> simp

end Attempt

/-! ## The equations of the lists in a declaration -/

namespace Parser

theorem attributes_of_true {ls rest : List Lexeme} (h : oneAttribute ls = .ok (true, rest)) :
    attributes ls = attributes rest := by
  rw [attributes]
  split
  · rename_i h'
    rw [h] at h'
    cases h'
  · rename_i h'
    rw [h] at h'
    cases h'
  · rename_i h'
    rw [h] at h'
    cases h'
    rfl

theorem attributes_of_false {ls rest : List Lexeme} (h : oneAttribute ls = .ok (false, rest)) :
    attributes ls = .ok ((), rest) := by
  rw [attributes]
  split
  · rename_i h'
    rw [h] at h'
    cases h'
  · rename_i h'
    rw [h] at h'
    cases h'
    rfl
  · rename_i h'
    rw [h] at h'
    cases h'

theorem slots_of_close {ls : List Lexeme} (h : nextIs ")" ls) : slots ls = .ok ([], ls.tail) := by
  rw [slots, if_pos h]

theorem slots_of_run {ls left : List Lexeme} {run : List Token} {here : List Slot}
    (hn : ¬ nextIs ")" ls) (h : collect [")", ","] true ls = .ok (run, left))
    (hs : slotsOfRun run = .ok here) :
    slots ls =
      if nextIs "," left then (slots left.tail).map fun (more, ls) => (here ++ more, ls)
      else (expect ")" left).map fun (_, ls) => (here, ls) := by
  rw [slots, if_neg hn]
  split
  · rename_i h'
    rw [h] at h'
    cases h'
  · rename_i h'
    rw [h] at h'
    cases h'
    rw [hs]
    rfl

theorem variants_of_close {first : Token} {l : Lexeme} {tail : List Lexeme}
    (hl : l.token.is "\x7d") : variants first (l :: tail) = .ok (([], l.token), tail) := by
  rw [variants, if_pos hl]

theorem variants_of_variant {first : Token} {l : Lexeme} {tail left : List Lexeme} {v : Variant}
    (hl : ¬ l.token.is "\x7d") (h : variant (l :: tail) = .ok (v, left)) :
    variants first (l :: tail) =
      if nextIs "," left then
        (variants first left.tail).map fun ((vs, close), ls) => ((v :: vs, close), ls)
      else (expect "\x7d" left).map fun (close, ls) => (([v], close), ls) := by
  rw [variants, if_neg hl]
  split
  · rename_i h'
    rw [h] at h'
    cases h'
  · rename_i h'
    rw [h] at h'
    cases h'
    rfl

end Parser

/-! ## The equations of the fields of a structure -/

section Fields

variable {first : Token} {l : Lexeme} {tail : List Lexeme}

theorem fields_of_close (hl : l.token.is "\x7d") :
    fields first (l :: tail) = pure (([], l.token), tail) := by
  rw [fields, if_pos hl]

theorem fields_of_error {e : SyntaxError} (hl : ¬ l.token.is "\x7d")
    (h : Parser.field (l :: tail) = .error e) : fields first (l :: tail) = .fail e := by
  rw [fields, if_neg hl]
  split
  · rename_i h'
    rw [h] at h'
    cases h'
    rfl
  · rename_i h'
    rw [h] at h'
    cases h'

theorem fields_of_field {f : Field} {following : Option Token} {rest : List Lexeme}
    (hl : ¬ l.token.is "\x7d") (h : Parser.field (l :: tail) = .ok ((f, following), rest)) :
    fields first (l :: tail) =
      ⟨(following.map Issue.noComma).toList ++ (fields first (afterComma rest)).issues,
        (fields first (afterComma rest)).outcome.map fun r => ((f :: r.1.1, r.1.2), r.2)⟩ := by
  rw [fields, if_neg hl]
  split
  · rename_i h'
    rw [h] at h'
    cases h'
  · rename_i h'
    rw [h] at h'
    cases h'
    show (Attempt.andThen _ fun _ => Attempt.andThen _ _) = _
    cases following <;> unfold Attempt.andThen <;>
      cases (fields first (afterComma rest)).outcome <;>
      simp [recordMissing, Attempt.record, Except.map]

end Fields

/-- A structure whose heading and body have been read without an issue. -/
theorem structItem_of_body {pre : Preamble} {ls mid rest : List Lexeme} {name close : Token}
    {g : Generics} {fs : List Field} (hh : Parser.structHeading ls = .ok ((name, g), mid))
    (hb : structBody pre.first mid = ⟨[], .ok ((fs, close), rest)⟩) :
    structItem pre ls = ⟨[], .ok (structDeclaration pre name g fs close, rest)⟩ := by
  show Attempt.andThen (Attempt.ofExcept (Parser.structHeading ls)) _ = _
  rw [hh]
  show Attempt.mk ([] ++ (Attempt.andThen (structBody pre.first mid) _).issues)
    (Attempt.andThen (structBody pre.first mid) _).outcome = _
  rw [hb]
  rfl

/-- A declaration whose preamble has been read. -/
theorem opening_of_preamble {byPlace : Bool} {l : Lexeme} {tail after : List Lexeme}
    {pre : Preamble} (h : Parser.preamble byPlace l (l :: tail) = .ok (pre, after)) :
    opening byPlace (l :: tail) = openAfter pre after := by
  show Attempt.andThen (Attempt.ofExcept (Parser.preamble byPlace l (l :: tail))) _ = _
  rw [h]
  rfl

/-! ## The equations of the two readers -/

section Equations

variable {byPlace : Bool} {first : Token} {ls : List Lexeme} {l : Lexeme} {tail : List Lexeme}

theorem item_of_error {e : SyntaxError} (h : (opening byPlace ls).outcome = .error e) :
    item byPlace ls = ⟨(opening byPlace ls).issues, .error e⟩ := by
  rw [item]
  split
  · rename_i h'
    rw [h] at h'
    cases h'
    rfl
  · rename_i h'
    rw [h] at h'
    cases h'
  · rename_i h'
    rw [h] at h'
    cases h'

theorem item_of_complete {d : Option Declaration} {rest : List Lexeme}
    (h : (opening byPlace ls).outcome = .ok (.complete d, rest)) :
    item byPlace ls =
      ⟨(opening byPlace ls).issues, .ok ⟨d.map (.node · []), rest, opening_shorter h⟩⟩ := by
  rw [item]
  split
  · rename_i h'
    rw [h] at h'
    cases h'
  · rename_i h'
    rw [h] at h'
    cases h'
    rfl
  · rename_i h'
    rw [h] at h'
    cases h'

theorem item_of_block {b : Block} {rest : List Lexeme}
    (h : (opening byPlace ls).outcome = .ok (.block b, rest)) :
    item byPlace ls =
      ⟨(opening byPlace ls).issues ++ (members b.first b.publicMembers rest).issues,
        match (members b.first b.publicMembers rest).outcome with
        | .error e => .error e
        | .ok r =>
          .ok ⟨some (.node (b.declaration r.close) r.trees), r.rest,
            Nat.lt_trans r.shorter (opening_shorter h)⟩⟩ := by
  rw [item]
  split
  · rename_i h'
    rw [h] at h'
    cases h'
  · rename_i h'
    rw [h] at h'
    cases h'
  · rename_i h'
    rw [h] at h'
    cases h'
    rfl

theorem members_of_close (hl : l.token.is "\x7d") :
    members first byPlace (l :: tail) = pure ⟨[], l.token, tail, Nat.lt_succ_self _⟩ := by
  rw [members, if_pos hl]

theorem members_of_item {r : ItemResult (l :: tail)} (hl : ¬ l.token.is "\x7d")
    (h : (item byPlace (l :: tail)).outcome = .ok r) :
    members first byPlace (l :: tail) =
      ⟨(item byPlace (l :: tail)).issues ++ (members first byPlace r.rest).issues,
        match (members first byPlace r.rest).outcome with
        | .error e => .error e
        | .ok m =>
          .ok ⟨r.tree.toList ++ m.trees, m.close, m.rest, Nat.lt_trans m.shorter r.shorter⟩⟩ := by
  rw [members, if_neg hl]
  dsimp only
  split
  · rename_i h'
    rw [h] at h'
    cases h'
    rfl
  · rename_i h'
    rw [h] at h'
    cases h'

theorem members_of_end {e : SyntaxError} (hl : ¬ l.token.is "\x7d")
    (h : (item byPlace (l :: tail)).outcome = .error e)
    (hr : resyncInBody l.token 0 tail = none) :
    members first byPlace (l :: tail) = ⟨(item byPlace (l :: tail)).issues, .error e⟩ := by
  rw [members, if_neg hl]
  dsimp only
  rw [h]
  dsimp only
  split
  · rfl
  · rename_i h'
    rw [hr] at h'
    cases h'

theorem members_of_resync {e : SyntaxError} {rest : List Lexeme} (hl : ¬ l.token.is "\x7d")
    (h : (item byPlace (l :: tail)).outcome = .error e)
    (hr : resyncInBody l.token 0 tail = some rest) :
    members first byPlace (l :: tail) =
      ⟨(item byPlace (l :: tail)).issues ++
          ⟨e, rest.head?.map (·.token)⟩ :: (members first byPlace rest).issues,
        match (members first byPlace rest).outcome with
        | .error e => .error e
        | .ok m =>
          .ok ⟨m.trees, m.close, m.rest,
            Nat.lt_trans m.shorter (Nat.lt_succ_of_le (length_resyncInBody_le hr))⟩⟩ := by
  rw [members, if_neg hl]
  dsimp only
  rw [h]
  dsimp only
  split
  · rename_i h'
    rw [hr] at h'
    cases h'
  · rename_i h'
    rw [hr] at h'
    cases h'
    rfl

/-! What has been read ends with its last part. -/

theorem exists_body_of_item {b : Block} {rest : List Lexeme} {r : ItemResult ls}
    (h : (opening byPlace ls).outcome = .ok (.block b, rest))
    (hr : (item byPlace ls).outcome = .ok r) :
    ∃ m, (members b.first b.publicMembers rest).outcome = .ok m ∧
      r = ⟨some (.node (b.declaration m.close) m.trees), m.rest,
        Nat.lt_trans m.shorter (opening_shorter h)⟩ := by
  rw [item_of_block h] at hr
  cases hm : (members b.first b.publicMembers rest).outcome with
  | error e => simp only [hm] at hr; cases hr
  | ok m => simp only [hm] at hr; cases hr; exact ⟨m, rfl, rfl⟩

theorem exists_more_of_item {r : ItemResult (l :: tail)} {m : BodyResult (l :: tail)}
    (hl : ¬ l.token.is "\x7d") (h : (item byPlace (l :: tail)).outcome = .ok r)
    (hm : (members first byPlace (l :: tail)).outcome = .ok m) :
    ∃ m', (members first byPlace r.rest).outcome = .ok m' ∧
      m = ⟨r.tree.toList ++ m'.trees, m'.close, m'.rest, Nat.lt_trans m'.shorter r.shorter⟩ := by
  rw [members_of_item hl h] at hm
  cases hm' : (members first byPlace r.rest).outcome with
  | error e => simp only [hm'] at hm; cases hm
  | ok m' => simp only [hm'] at hm; cases hm; exact ⟨m', rfl, rfl⟩

theorem exists_more_of_resync {e : SyntaxError} {rest : List Lexeme} {m : BodyResult (l :: tail)}
    (hl : ¬ l.token.is "\x7d") (h : (item byPlace (l :: tail)).outcome = .error e)
    (hr : resyncInBody l.token 0 tail = some rest)
    (hm : (members first byPlace (l :: tail)).outcome = .ok m) :
    ∃ m', (members first byPlace rest).outcome = .ok m' ∧
      m = ⟨m'.trees, m'.close, m'.rest,
        Nat.lt_trans m'.shorter (Nat.lt_succ_of_le (length_resyncInBody_le hr))⟩ := by
  rw [members_of_resync hl h hr] at hm
  cases hm' : (members first byPlace rest).outcome with
  | error e => simp only [hm'] at hm; cases hm
  | ok m' => simp only [hm'] at hm; cases hm; exact ⟨m', rfl, rfl⟩

theorem topLevel_nil : topLevel [] = ([], []) := by
  rw [topLevel]

theorem topLevel_of_item {r : ItemResult (l :: tail)}
    (h : (item false (l :: tail)).outcome = .ok r) :
    topLevel (l :: tail) =
      ((item false (l :: tail)).issues ++ (topLevel r.rest).1,
        r.tree.toList ++ (topLevel r.rest).2) := by
  rw [topLevel]
  simp only [h]

theorem topLevel_of_error {e : SyntaxError} (h : (item false (l :: tail)).outcome = .error e) :
    topLevel (l :: tail) =
      ((item false (l :: tail)).issues ++
          ⟨e, (resync tail).head?.map (·.token)⟩ :: (topLevel (resync tail)).1,
        (topLevel (resync tail)).2) := by
  rw [topLevel]
  simp only [h]

/-! The same for what is read without an issue. -/

theorem item_of_complete_ok {d : Option Declaration} {rest : List Lexeme}
    (h : opening byPlace ls = ⟨[], .ok (.complete d, rest)⟩) :
    item byPlace ls =
      ⟨[], .ok ⟨d.map (.node · []), rest, opening_shorter (congrArg Attempt.outcome h)⟩⟩ := by
  have hi : (opening byPlace ls).issues = [] := congrArg Attempt.issues h
  rw [item_of_complete (congrArg Attempt.outcome h), hi]

theorem item_of_block_ok {b : Block} {rest : List Lexeme} {m : BodyResult rest}
    (h : opening byPlace ls = ⟨[], .ok (.block b, rest)⟩)
    (hm : members b.first b.publicMembers rest = ⟨[], .ok m⟩) :
    item byPlace ls =
      ⟨[], .ok ⟨some (.node (b.declaration m.close) m.trees), m.rest,
        Nat.lt_trans m.shorter (opening_shorter (congrArg Attempt.outcome h))⟩⟩ := by
  have hi : (opening byPlace ls).issues = [] := congrArg Attempt.issues h
  rw [item_of_block (congrArg Attempt.outcome h), hi, hm]
  rfl

theorem members_of_item_ok {r : ItemResult (l :: tail)} {m : BodyResult r.rest}
    (hl : ¬ l.token.is "\x7d") (h : item byPlace (l :: tail) = ⟨[], .ok r⟩)
    (hm : members first byPlace r.rest = ⟨[], .ok m⟩) :
    members first byPlace (l :: tail) =
      ⟨[], .ok ⟨r.tree.toList ++ m.trees, m.close, m.rest, Nat.lt_trans m.shorter r.shorter⟩⟩ := by
  rw [members_of_item hl (congrArg Attempt.outcome h), h, hm]
  rfl

end Equations

/-! ## Induction over a reading -/

/-- **Induction over a reading.** A statement `P` about declarations and a statement `Q` about
bodies hold of every input when every step preserves them: a declaration that cannot be opened, one
without members and one with members; the end of the input and the brace that ends a body, a member
that is read, and one that cannot be read, with or without a place to go on. -/
theorem forest_induction {P : Bool → List Lexeme → Prop} {Q : Token → Bool → List Lexeme → Prop}
    (failed : ∀ {byPlace ls e}, (opening byPlace ls).outcome = .error e → P byPlace ls)
    (complete : ∀ {byPlace ls d rest}, (opening byPlace ls).outcome = .ok (.complete d, rest) →
      P byPlace ls)
    (block : ∀ {byPlace ls b rest}, (opening byPlace ls).outcome = .ok (.block b, rest) →
      Q b.first b.publicMembers rest → P byPlace ls)
    (nil : ∀ {first byPlace}, Q first byPlace [])
    (close : ∀ {first byPlace l tail}, l.token.is "\x7d" → Q first byPlace (l :: tail))
    (member : ∀ {first byPlace l tail} {r : ItemResult (l :: tail)}, ¬ l.token.is "\x7d" →
      (item byPlace (l :: tail)).outcome = .ok r → P byPlace (l :: tail) →
      Q first byPlace r.rest → Q first byPlace (l :: tail))
    (ended : ∀ {first byPlace l tail e}, ¬ l.token.is "\x7d" →
      (item byPlace (l :: tail)).outcome = .error e → resyncInBody l.token 0 tail = none →
      P byPlace (l :: tail) → Q first byPlace (l :: tail))
    (skipped : ∀ {first byPlace l tail e rest}, ¬ l.token.is "\x7d" →
      (item byPlace (l :: tail)).outcome = .error e → resyncInBody l.token 0 tail = some rest →
      P byPlace (l :: tail) → Q first byPlace rest → Q first byPlace (l :: tail)) :
    (∀ byPlace ls, P byPlace ls) ∧ ∀ first byPlace ls, Q first byPlace ls := by
  -- the measure by which the two readers end, a body counting one more than a declaration
  suffices key : ∀ n, (∀ byPlace ls, 2 * ls.length < n → P byPlace ls) ∧
      ∀ first byPlace ls, 2 * ls.length + 1 < n → Q first byPlace ls from
    ⟨fun byPlace ls => (key _).1 byPlace ls (Nat.lt_succ_self _),
      fun first byPlace ls => (key _).2 first byPlace ls (Nat.lt_succ_self _)⟩
  intro n
  induction n with
  | zero =>
    constructor
    · intro _ _ h
      exact absurd h (Nat.not_lt_zero _)
    · intro _ _ _ h
      exact absurd h (Nat.not_lt_zero _)
  | succ n ih =>
    obtain ⟨ihItem, ihBody⟩ := ih
    constructor
    · intro byPlace ls hn
      match ho : (opening byPlace ls).outcome with
      | .error e => exact failed ho
      | .ok (.complete d, rest) => exact complete ho
      | .ok (.block b, rest) =>
        have hlt := opening_shorter ho
        exact block ho (ihBody _ _ _ (by omega))
    · intro first byPlace ls hn
      cases ls with
      | nil => exact nil
      | cons l tail =>
        simp only [List.length_cons] at hn
        have here := ihItem byPlace (l :: tail) (by simp only [List.length_cons]; omega)
        by_cases hl : l.token.is "\x7d"
        · exact close hl
        · cases hi : (item byPlace (l :: tail)).outcome with
          | ok r =>
            have hlt := r.shorter
            simp only [List.length_cons] at hlt
            exact member hl hi here (ihBody _ _ _ (by omega))
          | error e =>
            cases hr : resyncInBody l.token 0 tail with
            | none => exact ended hl hi hr here
            | some rest =>
              have hlt := length_resyncInBody_le hr
              exact skipped hl hi hr here (ihBody _ _ _ (by omega))

/-- **Induction over a successful reading.** A statement `P` about declarations and a statement `Q`
about bodies hold of everything that is read when every step preserves them: a declaration without
members, one with members, the brace that ends a body, a member that is read, and a member that is
skipped because it cannot be read. -/
theorem reading_induction {P : Bool → (ls : List Lexeme) → ItemResult ls → Prop}
    {Q : Token → Bool → (ls : List Lexeme) → BodyResult ls → Prop}
    (complete : ∀ {byPlace ls d rest} (h : (opening byPlace ls).outcome = .ok (.complete d, rest)),
      P byPlace ls ⟨d.map (.node · []), rest, opening_shorter h⟩)
    (block : ∀ {byPlace ls b rest} {m : BodyResult rest} (h :
        (opening byPlace ls).outcome = .ok (.block b, rest)),
      (members b.first b.publicMembers rest).outcome = .ok m →
      Q b.first b.publicMembers rest m →
      P byPlace ls ⟨some (.node (b.declaration m.close) m.trees), m.rest,
        Nat.lt_trans m.shorter (opening_shorter h)⟩)
    (close : ∀ {first byPlace l tail} (h : tail.length < (l :: tail).length),
      l.token.is "\x7d" → Q first byPlace (l :: tail) ⟨[], l.token, tail, h⟩)
    (member : ∀ {first byPlace l tail} {r : ItemResult (l :: tail)} {m : BodyResult r.rest},
      ¬ l.token.is "\x7d" → (item byPlace (l :: tail)).outcome = .ok r →
      (members first byPlace r.rest).outcome = .ok m →
      P byPlace (l :: tail) r → Q first byPlace r.rest m →
      Q first byPlace (l :: tail)
        ⟨r.tree.toList ++ m.trees, m.close, m.rest, Nat.lt_trans m.shorter r.shorter⟩)
    (skipped : ∀ {first byPlace l tail e rest} {m : BodyResult rest}
        (h : m.rest.length < (l :: tail).length),
      ¬ l.token.is "\x7d" → (item byPlace (l :: tail)).outcome = .error e →
      resyncInBody l.token 0 tail = some rest →
      (members first byPlace rest).outcome = .ok m → Q first byPlace rest m →
      Q first byPlace (l :: tail) ⟨m.trees, m.close, m.rest, h⟩) :
    (∀ byPlace ls r, (item byPlace ls).outcome = .ok r → P byPlace ls r) ∧
      ∀ first byPlace ls m, (members first byPlace ls).outcome = .ok m →
        Q first byPlace ls m := by
  -- what cannot be read has no result, which leaves the five cases of the statement
  refine forest_induction (P := fun byPlace ls => ∀ r, _ = _ → P byPlace ls r)
    (Q := fun first byPlace ls => ∀ m, _ = _ → Q first byPlace ls m)
    ?failed ?complete ?block ?nil ?close ?member ?ended ?skipped
  case failed =>
    intro byPlace ls e ho r hr
    rw [item_of_error ho] at hr
    cases hr
  case complete =>
    intro byPlace ls d rest ho r hr
    rw [item_of_complete ho] at hr
    cases hr
    exact complete ho
  case block =>
    intro byPlace ls b rest ho ih r hr
    obtain ⟨m, hm, rfl⟩ := exists_body_of_item ho hr
    exact block ho hm (ih m hm)
  case nil =>
    intro first byPlace m hm
    rw [members] at hm
    cases hm
  case close =>
    intro first byPlace l tail hl m hm
    rw [members_of_close hl] at hm
    cases hm
    exact close _ hl
  case member =>
    intro first byPlace l tail r hl hi ihItem ihBody m hm
    obtain ⟨m', hm', rfl⟩ := exists_more_of_item hl hi hm
    exact member hl hi hm' (ihItem r hi) (ihBody m' hm')
  case ended =>
    intro first byPlace l tail e hl hi hr _ m hm
    rw [members_of_end hl hi hr] at hm
    cases hm
  case skipped =>
    intro first byPlace l tail e rest hl hi hr _ ih m hm
    obtain ⟨m', hm', rfl⟩ := exists_more_of_resync hl hi hr hm
    exact skipped _ hl hi hr hm' (ih m' hm')

/-- Induction over the declarations of a file: one that is read, or one that cannot be read. -/
theorem topLevel_induction {P : List Lexeme → Prop} (nil : P [])
    (read : ∀ {l tail} {r : ItemResult (l :: tail)}, (item false (l :: tail)).outcome = .ok r →
      P r.rest → P (l :: tail))
    (skipped : ∀ {l tail e}, (item false (l :: tail)).outcome = .error e → P (resync tail) →
      P (l :: tail)) (ls : List Lexeme) : P ls := by
  induction ls using topLevel.induct with
  | case1 => exact nil
  | case2 l tail here r h issues trees heq ih => exact read h ih
  | case3 l tail here e h rest issues trees heq ih => exact skipped h ih

/-! ## Tallies -/

/-- **A tally** of a reading: what counts for a declaration that is read whole and for a member that
is skipped, and how the counts add up. -/
structure Tally (α : Type) where
  /-- The count of nothing. -/
  zero : α
  /-- The counts of two stretches, one after the other. -/
  add : α → α → α
  /-- The count of a declaration without members, which starts the input. -/
  whole : Bool → List Lexeme → α
  /-- The count of a member that is skipped, which starts the input. -/
  skipped : Bool → List Lexeme → α

namespace Tally

variable {α : Type}

mutual

/-- The tally of a declaration that is read. -/
def item (T : Tally α) (byPlace : Bool) (ls : List Lexeme) : α :=
  match _h : (opening byPlace ls).outcome with
  | .error _ => T.zero
  | .ok (.complete _, _) => T.whole byPlace ls
  | .ok (.block b, rest) => members T b.publicMembers rest
termination_by 2 * ls.length
decreasing_by
  have := opening_shorter _h
  omega

/-- The tally of a body that is read. -/
def members (T : Tally α) (byPlace : Bool) (ls : List Lexeme) : α :=
  match ls with
  | [] => T.zero
  | l :: tail =>
    if l.token.is "\x7d" then T.zero
    else
      match (KlarAudit.item byPlace (l :: tail)).outcome with
      | .ok r => T.add (item T byPlace (l :: tail)) (members T byPlace r.rest)
      | .error _ =>
        match _h : resyncInBody l.token 0 tail with
        | none => T.zero
        | some rest => T.add (T.skipped byPlace (l :: tail)) (members T byPlace rest)
termination_by 2 * ls.length + 1
decreasing_by
  · omega
  · have := r.shorter; omega
  · have := length_resyncInBody_le _h
    simp only [List.length_cons]
    omega

end

variable (T : Tally α) {byPlace : Bool} {ls : List Lexeme} {l : Lexeme} {tail : List Lexeme}

theorem item_of_complete {d : Option Declaration} {rest : List Lexeme}
    (h : (opening byPlace ls).outcome = .ok (.complete d, rest)) :
    T.item byPlace ls = T.whole byPlace ls := by
  rw [item]
  split
  · rename_i h'
    rw [h] at h'
    cases h'
  · rfl
  · rename_i h'
    rw [h] at h'
    cases h'

theorem item_of_block {b : Block} {rest : List Lexeme}
    (h : (opening byPlace ls).outcome = .ok (.block b, rest)) :
    T.item byPlace ls = T.members b.publicMembers rest := by
  rw [item]
  split
  · rename_i h'
    rw [h] at h'
    cases h'
  · rename_i h'
    rw [h] at h'
    cases h'
  · rename_i h'
    rw [h] at h'
    cases h'
    rfl

theorem members_of_close (hl : l.token.is "\x7d") : T.members byPlace (l :: tail) = T.zero := by
  rw [members, if_pos hl]

theorem members_of_item {r : ItemResult (l :: tail)} (hl : ¬ l.token.is "\x7d")
    (h : (KlarAudit.item byPlace (l :: tail)).outcome = .ok r) :
    T.members byPlace (l :: tail) =
      T.add (T.item byPlace (l :: tail)) (T.members byPlace r.rest) := by
  rw [members, if_neg hl, h]

theorem members_of_resync {e : SyntaxError} {rest : List Lexeme} (hl : ¬ l.token.is "\x7d")
    (h : (KlarAudit.item byPlace (l :: tail)).outcome = .error e)
    (hr : resyncInBody l.token 0 tail = some rest) :
    T.members byPlace (l :: tail) =
      T.add (T.skipped byPlace (l :: tail)) (T.members byPlace rest) := by
  rw [members, if_neg hl, h]
  dsimp only
  split
  · rename_i h'
    rw [hr] at h'
    cases h'
  · rename_i h'
    rw [hr] at h'
    cases h'
    rfl

end Tally

end KlarAudit

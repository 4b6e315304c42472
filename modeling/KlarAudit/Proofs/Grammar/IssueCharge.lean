import KlarAudit.Proofs.Grammar.Recovery

/-!
# Charging issues to tokens

Every issue is charged to a token: that of a declaration that is skipped to the first token of the
declaration, that of a missing comma to the token before which it is missing. Reading moves on, so
the issues that count for good are charged to later and later tokens. But a declaration that holds
members can still turn out to be unreadable when issues have been recorded inside it. It is dropped
then and its issues are not: reading goes back, and what it holds is read and reported once more.

## Main definitions

* `Charge`: an issue, the token it is charged to, and whether it was recorded in something dropped
* `Charge.Sound`: the issue is what reading from the token gives
* `charges`: the issues of a file, charged along the reading
* `Within ls cs`: the charges `cs` are of the input `ls`, and go back only to drop

## Main results

* `accounts_item`: the charges of a declaration, or of the members of a body, are their issues
* `accounts_topLevel`: the charges of a file are its issues
-/

namespace KlarAudit

/-! ## Charges -/

/-- **An issue charged to a token**, with the input that starts there. -/
structure Charge where
  /-- The token, with the comments before it. -/
  lexeme : Lexeme
  /-- The input behind the token. -/
  behind : List Lexeme
  /-- The issue. -/
  issue : Issue
  /-- The issue was recorded inside a declaration that has been dropped. -/
  dropped : Bool

namespace Charge

/-- The token. -/
def token (c : Charge) : Token :=
  c.lexeme.token

/-- The input from the token on. -/
def input (c : Charge) : List Lexeme :=
  c.lexeme :: c.behind

/-- The charge when the declaration around it is dropped. -/
def drop (c : Charge) : Charge :=
  { c with dropped := true }

/-- **The issue is that of the token**: a comma is missing before the token, or what starts with the
token is a declaration or a member that cannot be read. -/
inductive Sound : Charge → Prop
  /-- A field ends in front of the token without a comma. -/
  | comma {before : List Lexeme} {f : Field} {l : Lexeme} {behind : List Lexeme} {dropped : Bool}
      (h : Parser.field before = .ok ((f, some l.token), l :: behind)) :
      Sound ⟨l, behind, .noComma l.token, dropped⟩
  /-- A member that is skipped up to `rest`. -/
  | member {byPlace : Bool} {l : Lexeme} {behind rest : List Lexeme} {e : SyntaxError}
      {dropped : Bool} (h : (item byPlace (l :: behind)).outcome = .error e)
      (hr : resyncInBody l.token 0 behind = some rest) :
      Sound ⟨l, behind, ⟨e, rest.head?.map (·.token)⟩, dropped⟩
  /-- A declaration of the file that is skipped. -/
  | declaration {l : Lexeme} {behind : List Lexeme} {e : SyntaxError} {dropped : Bool}
      (h : (item false (l :: behind)).outcome = .error e) :
      Sound ⟨l, behind, ⟨e, (resync behind).head?.map (·.token)⟩, dropped⟩

theorem Sound.drop {c : Charge} (h : c.Sound) : c.drop.Sound := by
  cases h with
  | comma h => exact .comma h
  | member h hr => exact .member h hr
  | declaration h => exact .declaration h

end Charge

/-! ## Charging along the reading -/

/-- A missing comma, charged to the next field. -/
def commaCharge : (following : Option Token) → (rest : List Lexeme) → List Charge
  | some t, l :: behind => [⟨l, behind, .noComma t, false⟩]
  | _, _ => []

/-- **The missing commas between fields**, charged to the fields behind them. -/
def fieldCharges (ls : List Lexeme) : List Charge :=
  match ls with
  | [] => []
  | l :: tail =>
    if l.token.is "\x7d" then []
    else
      match _h : Parser.field (l :: tail) with
      | .error _ => []
      | .ok ((_, following), rest) => commaCharge following rest ++ fieldCharges (afterComma rest)
termination_by ls.length
decreasing_by
  exact Nat.lt_of_le_of_lt (length_afterComma_le _) (Parser.advances_field _ _ _ _h)

/-- The charges of a structure. -/
def structCharges (ls : List Lexeme) : List Charge :=
  match Parser.structHeading ls with
  | .error _ => []
  | .ok (_, rest) => if nextIs "\x7b" rest then fieldCharges rest.tail else []

/-- The charges of what follows a preamble: only structures recover from errors on their own. -/
def chargesAfter (ls : List Lexeme) : List Charge :=
  if ls.head?.bind (·.token.introduces?) = some .struct then structCharges ls else []

/-- The charges of a declaration up to its members. -/
def openingCharges (byPlace : Bool) (ls : List Lexeme) : List Charge :=
  match ls with
  | [] => []
  | l :: _ =>
    match Parser.preamble byPlace l ls with
    | .error _ => []
    | .ok (_, after) => chargesAfter after

mutual

/-- The charges of a declaration with its members, whether it can be read or not. -/
def itemCharges (byPlace : Bool) (ls : List Lexeme) : List Charge :=
  match _h : (opening byPlace ls).outcome with
  | .ok (.block b, rest) => bodyCharges b.publicMembers rest
  | _ => openingCharges byPlace ls
termination_by 2 * ls.length
decreasing_by
  have := opening_shorter _h
  omega

/-- **The charges of a body.** When a member is skipped, the issues recorded inside it are dropped,
and its own is charged to its first token. -/
def bodyCharges (byPlace : Bool) (ls : List Lexeme) : List Charge :=
  match ls with
  | [] => []
  | l :: tail =>
    if l.token.is "\x7d" then []
    else
      let here := itemCharges byPlace (l :: tail)
      match (item byPlace (l :: tail)).outcome with
      | .ok r => here ++ bodyCharges byPlace r.rest
      | .error e =>
        match _h : resyncInBody l.token 0 tail with
        | none => here
        | some rest =>
          here.map Charge.drop ++
            ⟨l, tail, ⟨e, rest.head?.map (·.token)⟩, false⟩ :: bodyCharges byPlace rest
termination_by 2 * ls.length + 1
decreasing_by
  · omega
  · have := r.shorter; omega
  · have := length_resyncInBody_le _h
    simp only [List.length_cons]
    omega

end

/-- **The charges of a file.** -/
def charges (ls : List Lexeme) : List Charge :=
  match ls with
  | [] => []
  | l :: tail =>
    let here := itemCharges false (l :: tail)
    match (item false (l :: tail)).outcome with
    | .ok r => here ++ charges r.rest
    | .error e =>
      here.map Charge.drop ++
        ⟨l, tail, ⟨e, (resync tail).head?.map (·.token)⟩, false⟩ :: charges (resync tail)
termination_by ls.length
decreasing_by
  · exact r.shorter
  · exact Nat.lt_succ_of_le (length_resync_le tail)

section Equations

variable {byPlace : Bool} {ls : List Lexeme} {l : Lexeme} {tail : List Lexeme}

theorem fieldCharges_of_close (hl : l.token.is "\x7d") : fieldCharges (l :: tail) = [] := by
  rw [fieldCharges, if_pos hl]

theorem fieldCharges_of_error {e : SyntaxError} (hl : ¬ l.token.is "\x7d")
    (h : Parser.field (l :: tail) = .error e) : fieldCharges (l :: tail) = [] := by
  rw [fieldCharges, if_neg hl]
  split
  · rfl
  · rename_i h'
    rw [h] at h'
    cases h'

theorem fieldCharges_of_field {f : Field} {following : Option Token} {rest : List Lexeme}
    (hl : ¬ l.token.is "\x7d") (h : Parser.field (l :: tail) = .ok ((f, following), rest)) :
    fieldCharges (l :: tail) = commaCharge following rest ++ fieldCharges (afterComma rest) := by
  rw [fieldCharges, if_neg hl]
  split
  · rename_i h'
    rw [h] at h'
    cases h'
  · rename_i h'
    rw [h] at h'
    cases h'
    rfl

theorem itemCharges_of_error {e : SyntaxError} (h : (opening byPlace ls).outcome = .error e) :
    itemCharges byPlace ls = openingCharges byPlace ls := by
  rw [itemCharges]
  split
  · rename_i h'
    rw [h] at h'
    cases h'
  · rfl

theorem itemCharges_of_complete {d : Option Declaration} {rest : List Lexeme}
    (h : (opening byPlace ls).outcome = .ok (.complete d, rest)) :
    itemCharges byPlace ls = openingCharges byPlace ls := by
  rw [itemCharges]
  split
  · rename_i h'
    rw [h] at h'
    cases h'
  · rfl

theorem itemCharges_of_block {b : Block} {rest : List Lexeme}
    (h : (opening byPlace ls).outcome = .ok (.block b, rest)) :
    itemCharges byPlace ls = bodyCharges b.publicMembers rest := by
  rw [itemCharges]
  split
  · rename_i h'
    rw [h] at h'
    cases h'
    rfl
  · rename_i h'
    exact absurd h (h' b rest)

theorem bodyCharges_of_close (hl : l.token.is "\x7d") : bodyCharges byPlace (l :: tail) = [] := by
  rw [bodyCharges, if_pos hl]

theorem bodyCharges_of_item {r : ItemResult (l :: tail)} (hl : ¬ l.token.is "\x7d")
    (h : (item byPlace (l :: tail)).outcome = .ok r) :
    bodyCharges byPlace (l :: tail) =
      itemCharges byPlace (l :: tail) ++ bodyCharges byPlace r.rest := by
  rw [bodyCharges, if_neg hl, h]

theorem bodyCharges_of_end {e : SyntaxError} (hl : ¬ l.token.is "\x7d")
    (h : (item byPlace (l :: tail)).outcome = .error e)
    (hr : resyncInBody l.token 0 tail = none) :
    bodyCharges byPlace (l :: tail) = itemCharges byPlace (l :: tail) := by
  rw [bodyCharges, if_neg hl, h]
  dsimp only
  split
  · rfl
  · rename_i h'
    rw [hr] at h'
    cases h'

theorem bodyCharges_of_resync {e : SyntaxError} {rest : List Lexeme} (hl : ¬ l.token.is "\x7d")
    (h : (item byPlace (l :: tail)).outcome = .error e)
    (hr : resyncInBody l.token 0 tail = some rest) :
    bodyCharges byPlace (l :: tail) = (itemCharges byPlace (l :: tail)).map Charge.drop ++
      ⟨l, tail, ⟨e, rest.head?.map (·.token)⟩, false⟩ :: bodyCharges byPlace rest := by
  rw [bodyCharges, if_neg hl, h]
  dsimp only
  split
  · rename_i h'
    rw [hr] at h'
    cases h'
  · rename_i h'
    rw [hr] at h'
    cases h'
    rfl

theorem charges_of_item {r : ItemResult (l :: tail)}
    (h : (item false (l :: tail)).outcome = .ok r) :
    charges (l :: tail) = itemCharges false (l :: tail) ++ charges r.rest := by
  rw [charges, h]

theorem charges_of_error {e : SyntaxError} (h : (item false (l :: tail)).outcome = .error e) :
    charges (l :: tail) = (itemCharges false (l :: tail)).map Charge.drop ++
      ⟨l, tail, ⟨e, (resync tail).head?.map (·.token)⟩, false⟩ :: charges (resync tail) := by
  rw [charges, h]

end Equations

/-! ## Charges of an input -/

/-- **The charges `cs` are of the input `ls`**, and go back only where something is dropped. -/
structure Within (ls : List Lexeme) (cs : List Charge) : Prop where
  /-- They are charged to tokens of the input. -/
  input : ∀ c ∈ cs, c.input <:+ ls
  /-- Their issues are those of the tokens. -/
  sound : ∀ c ∈ cs, c.Sound
  /-- Behind an issue that is not dropped only later tokens are charged. -/
  onward : cs.Pairwise fun c d => c.dropped = false → d.input.length < c.input.length
  /-- Behind a dropped issue comes that of the declaration around it, which starts farther in
  front. -/
  back : ∀ c later, c :: later <:+ cs → c.dropped →
    ∃ d ∈ later, d.dropped = false ∧ c.input.length < d.input.length

namespace Within

variable {ls mid rest : List Lexeme} {cs ds : List Charge} {c : Charge}

theorem nil (ls : List Lexeme) : Within ls [] where
  input := List.forall_mem_nil _
  sound := List.forall_mem_nil _
  onward := List.Pairwise.nil
  back := by
    intro c later h
    cases List.suffix_nil.mp h

theorem mono (h : Within mid cs) (hmid : mid <:+ ls) : Within ls cs :=
  { h with input := fun c hc => (h.input c hc).trans hmid }

/-- A charge that is not dropped, in front of charges to later tokens. -/
theorem cons (hc : c.Sound) (hd : c.dropped = false) (h : Within c.behind cs) :
    Within c.input (c :: cs) where
  input := List.forall_mem_cons.mpr
    ⟨List.suffix_rfl, fun d hd => (h.input d hd).trans (List.suffix_cons _ _)⟩
  sound := List.forall_mem_cons.mpr ⟨hc, h.sound⟩
  onward := List.pairwise_cons.mpr
    ⟨fun d hd _ => Nat.lt_succ_of_le (h.input d hd).length_le, h.onward⟩
  back := by
    intro b later hb hdropped
    rcases List.suffix_cons_iff.mp hb with heq | hb
    · cases heq
      rw [hd] at hdropped
      cases hdropped
    · exact h.back b later hb hdropped

/-- One stretch of the input after another. -/
theorem append (h : Within ls cs)
    (habove : ∀ c ∈ cs, c.dropped = false → mid.length < c.input.length) (k : Within mid ds)
    (hmid : mid <:+ ls) : Within ls (cs ++ ds) where
  input := List.forall_mem_append.mpr ⟨h.input, (k.mono hmid).input⟩
  sound := List.forall_mem_append.mpr ⟨h.sound, k.sound⟩
  onward := List.pairwise_append.mpr ⟨h.onward, k.onward, fun c hc d hd hkept =>
    Nat.lt_of_le_of_lt (k.input d hd).length_le (habove c hc hkept)⟩
  back := by
    have hback := h.back
    clear h habove
    induction cs with
    | nil => exact k.back
    | cons b cs ih =>
      intro c later hc hdropped
      rcases List.suffix_cons_iff.mp hc with heq | hc
      · cases heq
        obtain ⟨d, hd, hlt⟩ := hback b cs List.suffix_rfl hdropped
        exact ⟨d, List.mem_append_left _ hd, hlt⟩
      · exact ih (fun c later hc => hback c later (hc.trans (List.suffix_cons _ _))) c later hc
          hdropped

/-- **Something is dropped**: the issues recorded in it are behind the token `c` that its own issue
is charged to. -/
theorem skip (h : Within c.behind cs) (hc : c.Sound) (hd : c.dropped = false)
    (k : Within rest ds) (hrest : rest <:+ c.behind) :
    Within c.input (cs.map Charge.drop ++ c :: ds) := by
  have hmore : Within c.input (c :: ds) := cons hc hd (k.mono hrest)
  have hinside : ∀ b ∈ cs, b.input.length < c.input.length := fun b hb =>
    Nat.lt_succ_of_le (h.input b hb).length_le
  refine ⟨?_, ?_, ?_, ?_⟩
  · refine List.forall_mem_append.mpr ⟨List.forall_mem_map.mpr fun b hb => ?_, hmore.input⟩
    exact (h.input b hb).trans (List.suffix_cons _ _)
  · exact List.forall_mem_append.mpr
      ⟨List.forall_mem_map.mpr fun b hb => (h.sound b hb).drop, hmore.sound⟩
  · refine List.pairwise_append.mpr ⟨?_, hmore.onward, ?_⟩
    · exact List.pairwise_map.mpr (List.pairwise_of_forall fun _ _ hdropped => by cases hdropped)
    · intro b hb d _ hdropped
      obtain ⟨_, _, rfl⟩ := List.mem_map.mp hb
      cases hdropped
  · have hback := hmore.back
    clear h k hmore
    induction cs with
    | nil => exact hback
    | cons b cs ih =>
      intro a later ha hdropped
      rcases List.suffix_cons_iff.mp ha with heq | ha
      · cases heq
        exact ⟨c, by simp, hd, hinside b List.mem_cons_self⟩
      · exact ih (fun b hb => hinside b (List.mem_cons_of_mem _ hb)) a later ha hdropped

theorem of_cons (h : Within ls (c :: cs)) : Within ls cs where
  input := fun d hd => h.input d (List.mem_cons_of_mem _ hd)
  sound := fun d hd => h.sound d (List.mem_cons_of_mem _ hd)
  onward := (List.pairwise_cons.mp h.onward).2
  back := fun d later hd => h.back d later (hd.trans (List.suffix_cons _ _))

/-- Behind an issue that is not dropped the others are of the input behind its token. -/
theorem behind (h : Within ls (c :: cs)) (hc : c.dropped = false) : Within c.behind cs :=
  { h.of_cons with
    input := by
      intro d hd
      have hbehind : c.behind <:+ ls :=
        (List.suffix_cons _ _).trans (h.input c List.mem_cons_self)
      refine List.suffix_of_suffix_length_le (h.of_cons.input d hd) hbehind ?_
      exact Nat.le_of_lt_succ ((List.pairwise_cons.mp h.onward).1 d hd hc) }

/-- **Issues that are not dropped** have tokens of their own, in order. -/
theorem sublist_kept (h : Within ls cs) :
    ((cs.filter (!·.dropped)).map (·.lexeme)).Sublist ls := by
  induction cs generalizing ls with
  | nil => exact List.nil_sublist ls
  | cons c cs ih =>
    cases hc : c.dropped with
    | true =>
      rw [List.filter_cons_of_neg (by simp [hc])]
      exact ih h.of_cons
    | false =>
      rw [List.filter_cons_of_pos (by simp [hc])]
      exact ((ih (h.behind hc)).cons_cons c.lexeme).trans
        (h.input c List.mem_cons_self).sublist

end Within

/-- **The charges account for an attempt** on the input `ls`: they are its issues, and what a
successful attempt leaves is behind the tokens charged for good. -/
structure Accounts {α : Type} (ls : List Lexeme) (x : Attempt α) (rest : α → List Lexeme)
    (cs : List Charge) : Prop where
  /-- The tokens charged are those of the input. -/
  within : Within ls cs
  /-- The issues are those recorded. -/
  issues : cs.map (·.issue) = x.issues
  /-- What is left is behind the tokens, those of dropped issues apart. -/
  above : ∀ a, x.outcome = .ok a → ∀ c ∈ cs, c.dropped = false → (rest a).length < c.input.length

namespace Accounts

variable {α β : Type} {ls mid : List Lexeme} {x : Attempt α} {rest : α → List Lexeme}
  {cs : List Charge}

theorem none (h : x.issues = []) : Accounts ls x rest [] :=
  ⟨.nil ls, h.symm, fun _ _ => List.forall_mem_nil _⟩

theorem mono (h : Accounts mid x rest cs) (hmid : mid <:+ ls) : Accounts ls x rest cs :=
  { h with within := h.within.mono hmid }

end Accounts

/-- What is shorter than the input is left of what is behind its first lexeme. -/
theorem suffix_tail_of_shorter {ls rest : List Lexeme} (h : rest <:+ ls)
    (hlt : rest.length < ls.length) : rest <:+ ls.tail := by
  refine List.suffix_of_suffix_length_le h (List.tail_suffix ls) ?_
  rw [List.length_tail]
  exact Nat.le_sub_one_of_lt hlt

/-! ## Missing commas -/

/-- The first token of the next field is where the reading of the fields goes on. -/
theorem Parser.following_of_fieldType {name : Token} {isPublic : Bool} {ls rest : List Lexeme}
    {f : Field} {t : Token} (h : fieldType name isPublic ls = .ok ((f, some t), rest)) :
    ∃ l tail, rest = l :: tail ∧ l.token = t := by
  obtain ⟨u, us, left, hcollect, ⟨-, -, ⟨⟩, -⟩ | ⟨k, next, -, hnext, -, ⟨⟩, rfl⟩⟩ :=
    fieldType_eq_ok h
  obtain ⟨htokens, -⟩ := collectFrom_eq_ok hcollect
  -- the token stands in the run, and the run in the input, at the index where reading goes on
  have hrun : (ls.map Lexeme.token)[k + 1]? = some t := by
    have hk : k + 1 < (u :: us).length := by
      have := (List.getElem?_eq_some_iff.mp hnext).1
      simp only [List.length_cons]
      omega
    rw [htokens, List.getElem?_append_left hk, List.getElem?_cons_succ]
    exact hnext
  rw [List.getElem?_map] at hrun
  obtain ⟨l, hl, htoken⟩ := Option.map_eq_some_iff.mp hrun
  refine ⟨l, ls.drop (k + 2), ?_, htoken⟩
  obtain ⟨hlt, rfl⟩ := List.getElem?_eq_some_iff.mp hl
  exact List.drop_eq_getElem_cons hlt

theorem Parser.following_of_field {ls rest : List Lexeme} {f : Field} {t : Token}
    (h : field ls = .ok ((f, some t), rest)) : ∃ l tail, rest = l :: tail ∧ l.token = t := by
  obtain ⟨_, _, -, h⟩ := bind_eq_ok.mp h
  obtain ⟨_, _, -, h⟩ := bind_eq_ok.mp h
  obtain ⟨_, _, -, h⟩ := bind_eq_ok.mp h
  obtain ⟨_, _, -, h⟩ := bind_eq_ok.mp h
  exact following_of_fieldType h

theorem tail_afterComma_suffix (l : Lexeme) (tail : List Lexeme) :
    (afterComma (l :: tail)).tail <:+ tail := by
  rcases Parser.afterComma_cases (l :: tail) with h | ⟨c, h, -⟩
  · rw [h]
    exact List.suffix_refl tail
  · rw [← (List.cons.inj h).2]
    exact List.tail_suffix tail

/-- Fields that are read leave what the fields behind the first one leave. -/
theorem exists_rest_of_field {first : Token} {l : Lexeme} {tail left : List Lexeme} {f : Field}
    {following : Option Token} {r : (List Field × Token) × List Lexeme}
    (hl : ¬ l.token.is "\x7d") (hf : Parser.field (l :: tail) = .ok ((f, following), left))
    (hr : (fields first (l :: tail)).outcome = .ok r) :
    ∃ r', (fields first (afterComma left)).outcome = .ok r' ∧ r.2 = r'.2 := by
  rw [fields_of_field hl hf] at hr
  cases hmore : (fields first (afterComma left)).outcome with
  | error e => rw [hmore] at hr; cases hr
  | ok r' => rw [hmore] at hr; cases hr; exact ⟨r', rfl, rfl⟩

/-- **The missing commas of a structure** are charged to tokens behind the start of its first
field. -/
theorem accounts_fields (first : Token) (ls : List Lexeme) :
    Accounts ls.tail (fields first ls) (·.2) (fieldCharges ls) := by
  induction ls using fields.induct with
  | case1 =>
    rw [fields, fieldCharges]
    exact .none rfl
  | case2 l tail hc =>
    rw [fields_of_close hc, fieldCharges_of_close hc]
    exact .none rfl
  | case3 l tail hc e he =>
    rw [fields_of_error hc he, fieldCharges_of_error hc he]
    exact .none rfl
  | case4 l tail hc f following left hf ih =>
    rw [fieldCharges_of_field hc hf]
    -- a field takes at least its name, so that the next one is read from the tail
    have hleft : left <:+ tail :=
      suffix_tail_of_shorter (Parser.takes_field _ _ _ hf).suffix (Parser.advances_field _ _ _ hf)
    cases following with
    | none =>
      have hcomma : (afterComma left).tail <:+ tail :=
        ((List.tail_suffix _).trans (Parser.leads_afterComma left []).suffix).trans hleft
      refine ⟨ih.within.mono hcomma, ?_, fun r hr => ?_⟩
      · rw [fields_of_field hc hf]
        exact ih.issues
      · obtain ⟨r', hr', heq⟩ := exists_rest_of_field hc hf hr
        rw [heq]
        exact ih.above r' hr'
    | some t =>
      -- the comma is charged to the name of the next field, the others to what follows this name
      obtain ⟨l', behind, rfl, rfl⟩ := Parser.following_of_field hf
      have hmore : Within behind (fieldCharges (afterComma (l' :: behind))) :=
        ih.within.mono (tail_afterComma_suffix l' behind)
      refine ⟨(Within.cons (.comma hf) rfl hmore).mono hleft, ?_, fun r hr => ?_⟩
      · rw [fields_of_field hc hf]
        exact congrArg (Issue.noComma l'.token :: ·) ih.issues
      · obtain ⟨r', hr', heq⟩ := exists_rest_of_field hc hf hr
        have hshort := fields_shorter hr'
        have hcomma := length_afterComma_le (l' :: behind)
        rw [heq]
        refine List.forall_mem_cons.mpr ⟨fun _ => ?_, ih.above r' hr'⟩
        exact Nat.lt_of_lt_of_le hshort hcomma

/-- **The missing commas of a structure** are charged to tokens behind its first one. -/
theorem accounts_structItem (pre : Preamble) (ls : List Lexeme) :
    Accounts ls.tail (structItem pre ls) (·.2) (structCharges ls) := by
  cases hhead : Parser.structHeading ls with
  | error e =>
    rw [structCharges, hhead]
    exact .none (Attempt.issues_bind_of_error (e := e) hhead _)
  | ok r =>
    obtain ⟨⟨name, generics⟩, mid⟩ := r
    rw [structCharges, hhead]
    dsimp only
    have hmid : mid <:+ ls.tail :=
      suffix_tail_of_shorter (Parser.nests_structHeading [] _ _ _ hhead).suffix
        (Parser.advances_structHeading _ _ _ hhead)
    have hbody : Accounts ls.tail (structBody pre.first mid) (·.2)
        (if nextIs "\x7b" mid then fieldCharges mid.tail else []) := by
      unfold structBody
      split
      · have hfields : mid.tail.tail <:+ mid := (List.tail_suffix _).trans (List.tail_suffix _)
        exact (accounts_fields pre.first mid.tail).mono (hfields.trans hmid)
      · exact .none rfl
    -- behind the body nothing is recorded, and what it leaves is what the structure leaves
    refine ⟨hbody.within, ?_, fun r hr => ?_⟩
    · rw [hbody.issues, structItem, Attempt.issues_ofParser_bind hhead]
      cases ho : (structBody pre.first mid).outcome with
      | error e => exact (Attempt.issues_bind_of_error ho _).symm
      | ok r =>
        dsimp only
        rw [Attempt.issues_bind_of_ok ho, Attempt.issues_pure, List.append_nil]
    · obtain ⟨_, hhead', hr⟩ := Attempt.outcome_bind_eq_ok.mp hr
      cases hhead.symm.trans hhead'
      obtain ⟨r', hr', hr⟩ := Attempt.outcome_bind_eq_ok.mp hr
      cases hr
      exact hbody.above r' hr'

/-! ## Declarations without members -/


theorem accounts_openAfter (pre : Preamble) (ls : List Lexeme) :
    Accounts ls.tail (openAfter pre ls) (·.2) (chargesAfter ls) := by
  cases ls with
  | nil => exact .none rfl
  | cons l tail =>
    cases hi : l.token.introduces? with
    | none =>
      rw [chargesAfter, List.head?_cons, Option.bind_some, hi, if_neg nofun]
      simp only [openAfter, hi]
      exact .none rfl
    | some i =>
      rw [chargesAfter, List.head?_cons, Option.bind_some, hi]
      simp only [openAfter, hi]
      cases i with
      | struct =>
        have hstruct := accounts_structItem pre (l :: tail)
        refine ⟨hstruct.within, hstruct.issues.trans (Attempt.issues_map _ _).symm, ?_⟩
        intro r hr
        obtain ⟨r', hr', rfl⟩ := Attempt.outcome_map_eq_ok.mp hr
        exact hstruct.above r' hr'
      | _ => exact .none rfl

/-- **What is recorded while a declaration is opened** is charged to tokens behind its first one. -/
theorem accounts_opening (byPlace : Bool) (ls : List Lexeme) :
    Accounts ls.tail (opening byPlace ls) (·.2) (openingCharges byPlace ls) := by
  cases ls with
  | nil => exact .none rfl
  | cons l tail =>
    cases hpre : Parser.preamble byPlace l (l :: tail) with
    | error e =>
      rw [openingCharges, hpre]
      exact .none (Attempt.issues_bind_of_error (e := e) hpre _)
    | ok r =>
      obtain ⟨pre, after⟩ := r
      rw [openingCharges, hpre, opening_of_preamble hpre]
      refine (accounts_openAfter pre after).mono ?_
      refine List.suffix_of_suffix_length_le ?_ (List.suffix_cons l tail) ?_
      · exact (List.tail_suffix _).trans (Parser.nests_preamble byPlace l [] _ _ _ hpre).suffix
      · have := Parser.shortens_preamble _ _ _ _ _ hpre
        simp only [List.length_cons, List.length_tail] at this ⊢
        omega

/-- While a declaration is opened nothing is dropped. -/
theorem dropped_of_mem_openingCharges {byPlace : Bool} {ls : List Lexeme} {c : Charge}
    (h : c ∈ openingCharges byPlace ls) : c.dropped = false := by
  have hcomma {following : Option Token} {rest : List Lexeme}
      (h : c ∈ commaCharge following rest) : c.dropped = false := by
    unfold commaCharge at h
    split at h
    · rw [List.mem_singleton.mp h]
    · cases h
  have hfields (ls : List Lexeme) (h : c ∈ fieldCharges ls) : c.dropped = false := by
    fun_induction fieldCharges ls with
    | case4 l tail _ _ _ _ _ ih => exact (List.mem_append.mp h).elim hcomma ih
    | _ => cases h
  unfold openingCharges chargesAfter structCharges at h
  -- only the fields of a structure charge anything
  grind

/-- There are fewer issues than tokens when a declaration is opened. -/
theorem length_issues_opening_lt (byPlace : Bool) {ls : List Lexeme} (hls : ls ≠ []) :
    (opening byPlace ls).issues.length < ls.length := by
  have hopening := accounts_opening byPlace ls
  have hkept : (openingCharges byPlace ls).filter (!·.dropped) = openingCharges byPlace ls :=
    List.filter_eq_self.mpr fun c hc => by rw [dropped_of_mem_openingCharges hc]; rfl
  have hlen := hopening.within.sublist_kept.length_le
  rw [hkept, List.length_map, List.length_tail] at hlen
  have hpos := List.length_pos_iff.mpr hls
  rw [← hopening.issues, List.length_map]
  omega

/-! ## Declarations and bodies -/

/-- **A declaration with its members**, whether it can be read or not: its issues are charged to
tokens behind its first one. Those of a body are charged to the tokens of the body. -/
theorem accounts_item :
    (∀ byPlace ls, Accounts ls.tail (item byPlace ls) (·.rest) (itemCharges byPlace ls)) ∧
    ∀ first byPlace ls,
      Accounts ls (members first byPlace ls) (·.rest) (bodyCharges byPlace ls) := by
  refine forest_induction ?failed ?complete ?block ?nil ?close ?member ?ended ?skipped
  case failed =>
    intro byPlace ls e h
    have hopening := accounts_opening byPlace ls
    rw [item_of_error h, itemCharges_of_error h]
    exact ⟨hopening.within, hopening.issues, fun r hr => by cases hr⟩
  case complete =>
    intro byPlace ls d rest h
    have hopening := accounts_opening byPlace ls
    rw [item_of_complete h, itemCharges_of_complete h]
    refine ⟨hopening.within, hopening.issues, ?_⟩
    rintro _ ⟨⟩
    exact hopening.above _ h
  case block =>
    intro byPlace ls b rest h ih
    obtain ⟨hheading, hi⟩ := opening_of_block h
    have hrest : rest <:+ ls.tail := suffix_tail_of_shorter hheading.suffix (opening_shorter h)
    rw [itemCharges_of_block h]
    refine ⟨ih.within.mono hrest, ?_, fun r hr => ?_⟩
    · rw [item_of_block h, hi, ih.issues, List.nil_append]
    · obtain ⟨m, hm, rfl⟩ := exists_body_of_item h hr
      exact ih.above m hm
  case nil =>
    intro first byPlace
    rw [members, bodyCharges]
    exact .none rfl
  case close =>
    intro first byPlace l tail hl
    rw [members_of_close hl, bodyCharges_of_close hl]
    exact .none rfl
  case member =>
    intro first byPlace l tail r hl hr ihItem ihBody
    have hitem : Within (l :: tail) (itemCharges byPlace (l :: tail)) :=
      ihItem.within.mono (List.suffix_cons l tail)
    rw [bodyCharges_of_item hl hr]
    refine ⟨hitem.append (ihItem.above r hr) ihBody.within (suffix_of_item hr), ?_, fun m hm => ?_⟩
    · rw [members_of_item hl hr, List.map_append, ihItem.issues, ihBody.issues]
    · obtain ⟨m', hm', rfl⟩ := exists_more_of_item hl hr hm
      -- what the body leaves is behind the member as well
      refine List.forall_mem_append.mpr ⟨fun c hc hkept => ?_, ihBody.above m' hm'⟩
      exact Nat.lt_trans m'.shorter (ihItem.above r hr c hc hkept)
  case ended =>
    intro first byPlace l tail e hl he hs ihItem
    rw [members_of_end hl he hs, bodyCharges_of_end hl he hs]
    exact ⟨ihItem.within.mono (List.suffix_cons l tail), ihItem.issues, fun r hr => by cases hr⟩
  case skipped =>
    intro first byPlace l tail e rest hl he hs ihItem ihBody
    have hrest : rest <:+ tail := (counts_of_resyncInBody hs).suffix
    rw [bodyCharges_of_resync hl he hs]
    refine ⟨ihItem.within.skip (.member he hs) rfl ihBody.within hrest, ?_, fun m hm => ?_⟩
    · rw [members_of_resync hl he hs]
      simp [Charge.drop, Function.comp_def, ihItem.issues, ihBody.issues]
    · obtain ⟨m', hm', rfl⟩ := exists_more_of_resync hl he hs hm
      refine List.forall_mem_append.mpr ⟨?_, List.forall_mem_cons.mpr ⟨fun _ => ?_, ?_⟩⟩
      · -- the body may end in front of what has been dropped
        intro c hc hkept
        obtain ⟨_, _, rfl⟩ := List.mem_map.mp hc
        cases hkept
      · exact Nat.lt_trans m'.shorter (Nat.lt_succ_of_le hrest.length_le)
      · exact ihBody.above m' hm'

/-- **A file**: its issues are charged to its tokens. -/
theorem accounts_topLevel (ls : List Lexeme) :
    Within ls (charges ls) ∧ (charges ls).map (·.issue) = (topLevel ls).1 := by
  induction ls using topLevel_induction with
  | nil =>
    rw [charges, topLevel_nil]
    exact ⟨.nil [], rfl⟩
  | @read l tail r h ih =>
    have hitem := accounts_item.1 false (l :: tail)
    have hwithin : Within (l :: tail) (itemCharges false (l :: tail)) :=
      hitem.within.mono (List.suffix_cons l tail)
    rw [charges_of_item h, topLevel_of_item h]
    refine ⟨hwithin.append (hitem.above r h) ih.1 (suffix_of_item h), ?_⟩
    rw [List.map_append, hitem.issues, ih.2]
  | @skipped l tail e h ih =>
    have hitem := accounts_item.1 false (l :: tail)
    rw [charges_of_error h, topLevel_of_error h]
    refine ⟨hitem.within.skip (.declaration h) rfl ih.1 (List.dropWhile_suffix _), ?_⟩
    simp [Charge.drop, Function.comp_def, hitem.issues, ih.2]

end KlarAudit

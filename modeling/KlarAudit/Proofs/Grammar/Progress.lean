import KlarAudit.Proofs.Grammar.DeclarationStart
import KlarAudit.Proofs.Grammar.IssueCharge
import Mathlib.Logic.Relation

/-!
# Reading ends

Reading moves back in three places: after a declaration that cannot be read, at the top level as in
a body, it goes back to where the declaration started and searches from there, and where the comma
between two fields is missing it goes back to the second one. It ends nevertheless, because each of
these stops beyond the start of what was read before: what a loop or a declaration leaves is a
proper suffix of what it found.

The loops and declarations that are under way nest without bound, so what decreases from one turn to
the next is a pair: the lexemes that are left and, where a turn leaves them as they are, the rank of
what is read. The loops that are missing here, those over a run of tokens, a bracket group or an
import, and the search after an error, take one lexeme at a time.

## Main definitions

* `cursor`, `GetsBeyond`: how many lexemes have been taken, and that these are more than before
* `Iteration`: what the loops inside a declaration do in one iteration
* `Point`, `Turn`: where reading stands, and where it turns to from there
* `Progress`: reading gets on from every lexeme

## Main results

* `Turn.advances`: a turn moves the cursor on, or turns to something of lower rank
* `wellFounded_turn`: every sequence of turns ends
* `topLevel_turn`, `turns_to_end`, `turns_to_close`: the turns in which a file and a body are read
* `progress_ofTokens`: reading makes progress on every token sequence
-/

namespace KlarAudit

/-! ## The cursor -/

/-- **The cursor** when `rest` is left of the input `all`: the number of lexemes taken. -/
def cursor (all rest : List Lexeme) : Nat :=
  all.length - rest.length

/-- **What is left of the input starts beyond the lexeme `k`**, at the end of the input at the
latest. -/
structure GetsBeyond (all : List Lexeme) (k : Nat) (rest : List Lexeme) : Prop where
  /-- The cursor is strictly beyond. -/
  beyond : k < cursor all rest
  /-- The cursor does not leave the input. -/
  within : cursor all rest ≤ all.length
  /-- What is left is what stands from the cursor on. -/
  rest_eq : rest = all.drop (cursor all rest)

variable {all ls rest tail : List Lexeme} {k : Nat}

theorem GetsBeyond.of_suffix (hls : all.drop k = ls) (hs : rest <:+ ls)
    (hlt : rest.length < ls.length) : GetsBeyond all k rest := by
  subst hls
  rw [List.length_drop] at hlt
  refine ⟨?_, Nat.sub_le _ _, ?_⟩
  · unfold cursor
    omega
  · exact List.suffix_iff_eq_drop.mp (hs.trans (List.drop_suffix k all))

/-- What is left behind a lexeme that was taken. -/
theorem GetsBeyond.of_suffix_tail {l : Lexeme} (hl : all.drop k = l :: tail) (hs : rest <:+ tail) :
    GetsBeyond all k rest :=
  .of_suffix hl (hs.trans (List.suffix_cons l tail)) (Nat.lt_succ_of_le hs.length_le)

/-! ## One iteration of a loop -/

/-- **The loops inside a declaration.** -/
inductive Loop where
  /-- The attributes in front of a declaration, a field or a variant. -/
  | attributes
  /-- The fields of a structure. -/
  | fields
  /-- The variants of an enumeration. -/
  | variants
  /-- The parameters of a function. -/
  | parameters
deriving DecidableEq, Repr

/-- **One iteration of a loop** that does not fail: at `ls` it leaves `rest`. -/
inductive Iteration : Loop → (ls rest : List Lexeme) → Prop where
  /-- An attribute. -/
  | ofAttribute {ls rest : List Lexeme} (h : Parser.oneAttribute ls = .ok (true, rest)) :
    Iteration .attributes ls rest
  /-- A field, and the comma behind it if it is there. -/
  | ofField {ls rest : List Lexeme} {r : Field × Option Token}
    (h : Parser.field ls = .ok (r, rest)) : Iteration .fields ls (afterComma rest)
  /-- A variant, and the comma behind it if it is there. -/
  | ofVariant {ls rest : List Lexeme} {v : Variant} (h : Parser.variant ls = .ok (v, rest)) :
    Iteration .variants ls (afterComma rest)
  /-- A parameter, which may be empty, and the comma behind it if it is there. -/
  | ofParameter {ls rest : List Lexeme} {run : List Token} (hclose : ¬ nextIs ")" ls)
    (h : Parser.collect [")", ","] true ls = .ok (run, rest)) :
    Iteration .parameters ls (afterComma rest)

theorem afterComma_suffix (ls : List Lexeme) : afterComma ls <:+ ls :=
  (Parser.leads_afterComma ls []).suffix

/-- A run of tokens is empty only in front of a terminator. -/
theorem Parser.nextIs_of_collect_nil {terminators : List String} {angles : Bool}
    (h : collect terminators angles ls = .ok ([], rest)) :
    rest = ls ∧ ∃ s ∈ terminators, nextIs s ls := by
  refine collectFrom_induction (P := fun _ ls run rest =>
    run = [] → rest = ls ∧ ∃ s ∈ terminators, nextIs s ls) ?stop ?step h rfl
  case stop =>
    intro l ls hkind htext _
    exact ⟨rfl, l.token.text, htext, by simp [nextIs, Token.is, hkind]⟩
  case step => exact fun _ _ hnil => absurd hnil (List.cons_ne_nil _ _)

namespace Iteration

variable {a : Loop}

theorem suffix (h : Iteration a ls rest) : rest <:+ ls := by
  cases h with
  | ofAttribute h => exact (Parser.nests_oneAttribute [] _ _ _ h).suffix
  | ofField h =>
    obtain ⟨taken, rfl, -⟩ := Parser.takes_field _ _ _ h
    exact (afterComma_suffix _).trans (List.suffix_append taken _)
  | ofVariant h => exact (afterComma_suffix _).trans (Parser.nests_variant [] _ _ _ h).suffix
  | ofParameter hclose h =>
    exact (afterComma_suffix _).trans (Parser.nests_collect _ _ [] _ _ _ h).suffix

/-- An iteration takes at least one lexeme. -/
theorem shorter (h : Iteration a ls rest) : rest.length < ls.length := by
  cases h with
  | ofAttribute h => exact Parser.oneAttribute_eq_ok_true h
  | ofField h => exact (length_afterComma_le _).trans_lt (Parser.advances_field _ _ _ h)
  | ofVariant h => exact (length_afterComma_le _).trans_lt (Parser.advances_variant _ _ _ h)
  | @ofParameter ls rest run hclose h =>
    cases run with
    | cons t ts =>
      refine (length_afterComma_le _).trans_lt ?_
      obtain ⟨htokens, -⟩ := Parser.collectFrom_eq_ok h
      have hlength := congrArg List.length htokens
      simp only [List.length_map, List.length_append, List.length_cons] at hlength
      omega
    | nil =>
      -- nothing stands in front of the comma, so the comma itself is what is taken
      obtain ⟨rfl, s, hs, hnext⟩ := Parser.nextIs_of_collect_nil h
      simp only [List.mem_cons, List.not_mem_nil, or_false] at hs
      rcases hs with rfl | rfl
      · exact absurd hnext hclose
      · rw [afterComma, if_pos hnext]
        exact length_tail_lt_of_nextIs hnext

theorem getsBeyond (h : Iteration a (all.drop k) rest) : GetsBeyond all k rest :=
  .of_suffix rfl h.suffix h.shorter

end Iteration

/-! ## Stepping back to the next field -/

/-- **The colon of the field** that is read from the lexeme `k` on is the lexeme behind `m`, which
names the field. -/
structure FieldColon (all : List Lexeme) (k : Nat) (f : Field) (m : Nat) : Prop where
  /-- What stands before the name is part of the field. -/
  start_le : k ≤ m
  /-- The name. -/
  name : ∃ l, all[m]? = some l ∧ l.token.text = f.name ∧ l.token.pos = f.pos
  /-- The colon. -/
  colon : ∃ l, all[m + 1]? = some l ∧ l.token.is ":"

/-- The lexeme that a parser takes is the one at the cursor. -/
theorem getElem?_of_drop_eq {l : Lexeme} {tail : List Lexeme} (h : all.drop k = l :: tail) :
    all[k]? = some l ∧ all.drop (k + 1) = tail := by
  refine ⟨?_, ?_⟩
  · rw [← List.head?_drop, h]
    rfl
  · rw [← List.tail_drop, h]
    rfl

/-- **A field ends behind its colon**, also where the comma after it is missing. -/
theorem exists_fieldColon {f : Field} {following : Option Token}
    (h : Parser.field (all.drop k) = .ok ((f, following), rest)) :
    ∃ m, FieldColon all k f m ∧ GetsBeyond all (m + 1) rest := by
  obtain ⟨⟨⟩, marked, hattributes, h⟩ := Parser.bind_eq_ok.mp h
  obtain ⟨mark, named, hmark, h⟩ := Parser.bind_eq_ok.mp h
  obtain ⟨name, coloned, hname, h⟩ := Parser.bind_eq_ok.mp h
  obtain ⟨colon, typed, hcolon, htype⟩ := Parser.bind_eq_ok.mp h
  -- the attributes and the mark lead to the name, at the lexeme `m`
  have hfront : named <:+ all.drop k :=
    (Parser.nests_accept (by decide) [] _ _ _ hmark).suffix.trans
      (Parser.nests_attributes [] _ _ _ hattributes).suffix
  obtain ⟨m, hkm, hm⟩ : ∃ m, k ≤ m ∧ all.drop m = named := by
    obtain ⟨taken, htaken⟩ := hfront
    refine ⟨k + taken.length, Nat.le_add_right _ _, ?_⟩
    rw [← List.drop_drop, ← htaken, List.drop_left]
  obtain ⟨front, rfl, hfront, -⟩ := Parser.takes_expectName _ _ _ _ hname
  obtain ⟨l, rfl, rfl⟩ := List.map_eq_singleton_iff.mp hfront
  obtain ⟨hl, hm⟩ := getElem?_of_drop_eq hm
  obtain ⟨front, rfl, hfront, his⟩ := Parser.takes_expect _ _ _ _ hcolon
  obtain ⟨c, rfl, rfl⟩ := List.map_eq_singleton_iff.mp hfront
  obtain ⟨taken, rfl, ⟨t, ts, -, hf⟩, -⟩ := Parser.takes_fieldType _ _ _ _ _ htype
  refine ⟨m, ⟨hkm, ⟨l, hl, ?_⟩, c, (getElem?_of_drop_eq hm).1, his⟩, ?_⟩
  · rw [show f = _ from hf]
    exact ⟨rfl, rfl⟩
  · exact .of_suffix_tail hm (List.suffix_append taken rest)

/-! ## Declarations and recovery -/

theorem GetsBeyond.resync {l : Lexeme} (hl : all.drop k = l :: tail) :
    GetsBeyond all k (resync tail) :=
  .of_suffix_tail hl (List.dropWhile_suffix _)

/-- Behind a member that cannot be read. -/
theorem GetsBeyond.member {l : Lexeme} (hl : all.drop k = l :: tail)
    (hr : resyncInBody l.token 0 tail = some rest) : GetsBeyond all k rest :=
  .of_suffix_tail hl (counts_of_resyncInBody hr).suffix

/-- Where no member follows, nothing is left. -/
theorem GetsBeyond.resyncInBody {l : Lexeme} (hl : all.drop k = l :: tail) :
    GetsBeyond all k ((resyncInBody l.token 0 tail).getD []) := by
  cases hr : KlarAudit.resyncInBody l.token 0 tail with
  | none => exact .of_suffix_tail hl List.nil_suffix
  | some rest => exact .member hl hr

theorem GetsBeyond.item {byPlace : Bool} {r : ItemResult ls} (hls : all.drop k = ls)
    (h : (item byPlace ls).outcome = .ok r) : GetsBeyond all k r.rest :=
  .of_suffix hls (suffix_of_item h) r.shorter

theorem GetsBeyond.opening {byPlace : Bool} {o : Opening}
    (h : (opening byPlace (all.drop k)).outcome = .ok (o, rest)) : GetsBeyond all k rest :=
  .of_suffix rfl (suffix_of_opening h) (opening_shorter h)

/-! ## Turns -/

/-- **What is being read.** -/
inductive Activity where
  /-- The declarations of a file. -/
  | file
  /-- A declaration; `byPlace` is its visibility if it is not marked. -/
  | item (byPlace : Bool)
  /-- The members of a body, with the same flag. -/
  | body (byPlace : Bool)
  /-- A loop inside a declaration. -/
  | loop (a : Loop)
deriving DecidableEq, Repr

/-- **Where reading stands**: what is being read, and at which lexeme. -/
structure Point where
  /-- What is being read. -/
  activity : Activity
  /-- The number of lexemes taken. -/
  cursor : Nat
deriving DecidableEq, Repr

/-- **Where reading turns to** from a point: the next iteration of the same loop, or what is called
in this one. Reading makes no other turns, but it does not make all of these: a list inside a
declaration may start anywhere behind the first lexeme here, and go on without a comma. -/
inductive Turn (all : List Lexeme) : Point → Point → Prop where
  /-- A declaration of the file is read. -/
  | declaration {k : Nat} (hk : k < all.length) : Turn all ⟨.file, k⟩ ⟨.item false, k⟩
  /-- The declaration was read. -/
  | declared {k : Nat} {l : Lexeme} {tail : List Lexeme} {r : ItemResult (l :: tail)}
    (hl : all.drop k = l :: tail) (h : (item false (l :: tail)).outcome = .ok r) :
    Turn all ⟨.file, k⟩ ⟨.file, cursor all r.rest⟩
  /-- The declaration could not be read. -/
  | undeclared {k : Nat} {l : Lexeme} {tail : List Lexeme} {e : SyntaxError}
    (hl : all.drop k = l :: tail) (h : (item false (l :: tail)).outcome = .error e) :
    Turn all ⟨.file, k⟩ ⟨.file, cursor all (resync tail)⟩
  /-- The members of a declaration are read. -/
  | members {byPlace : Bool} {k : Nat} {b : Block} {rest : List Lexeme}
    (h : (opening byPlace (all.drop k)).outcome = .ok (.block b, rest)) :
    Turn all ⟨.item byPlace, k⟩ ⟨.body b.publicMembers, cursor all rest⟩
  /-- A member is read. -/
  | member {byPlace : Bool} {k : Nat} {l : Lexeme} {tail : List Lexeme}
    (hl : all.drop k = l :: tail) (hclose : ¬ l.token.is "\x7d") :
    Turn all ⟨.body byPlace, k⟩ ⟨.item byPlace, k⟩
  /-- The member was read. -/
  | gained {byPlace : Bool} {k : Nat} {l : Lexeme} {tail : List Lexeme} {r : ItemResult (l :: tail)}
    (hl : all.drop k = l :: tail) (hclose : ¬ l.token.is "\x7d")
    (h : (item byPlace (l :: tail)).outcome = .ok r) :
    Turn all ⟨.body byPlace, k⟩ ⟨.body byPlace, cursor all r.rest⟩
  /-- The member could not be read, and behind it there is a place to go on. -/
  | lost {byPlace : Bool} {k : Nat} {l : Lexeme} {tail rest : List Lexeme} {e : SyntaxError}
    (hl : all.drop k = l :: tail) (hclose : ¬ l.token.is "\x7d")
    (h : (item byPlace (l :: tail)).outcome = .error e)
    (hr : resyncInBody l.token 0 tail = some rest) :
    Turn all ⟨.body byPlace, k⟩ ⟨.body byPlace, cursor all rest⟩
  /-- The attributes of a declaration are read. -/
  | preamble {byPlace : Bool} {k : Nat} :
    Turn all ⟨.item byPlace, k⟩ ⟨.loop .attributes, k⟩
  /-- A list inside a declaration is read. -/
  | list {byPlace : Bool} {k n : Nat} {a : Loop} (ha : a ≠ .attributes) (hkn : k < n)
    (hn : n ≤ all.length) : Turn all ⟨.item byPlace, k⟩ ⟨.loop a, n⟩
  /-- The attributes of an element are read. -/
  | annotated {k : Nat} {a : Loop} (ha : a = .fields ∨ a = .variants) :
    Turn all ⟨.loop a, k⟩ ⟨.loop .attributes, k⟩
  /-- An element was read. -/
  | element {k : Nat} {a : Loop} {rest : List Lexeme} (h : Iteration a (all.drop k) rest) :
    Turn all ⟨.loop a, k⟩ ⟨.loop a, cursor all rest⟩

/-- The rank of what is read: what is called without a lexeme being taken ranks lower. -/
def Activity.rank : Activity → Nat
  | .loop .attributes => 0
  | .loop _ => 1
  | .item _ => 2
  | .file | .body _ => 3

theorem Activity.rank_le (a : Activity) : a.rank ≤ 3 := by
  rcases a with _ | _ | _ | a
  case loop => cases a <;> simp [rank]
  all_goals simp [rank]

/-- **A turn gets on**: the cursor moves on inside the input, or it stays and the rank drops. -/
theorem Turn.advances {p q : Point} (h : Turn all p q) :
    p.cursor < q.cursor ∧ q.cursor ≤ all.length ∨
      q.cursor = p.cursor ∧ q.activity.rank < p.activity.rank := by
  have beyond {k : Nat} {rest : List Lexeme} (h : GetsBeyond all k rest) :
      k < KlarAudit.cursor all rest ∧ KlarAudit.cursor all rest ≤ all.length :=
    ⟨h.beyond, h.within⟩
  cases h with
  | declaration => exact .inr ⟨rfl, by simp [Activity.rank]⟩
  | declared hl h => exact .inl (beyond (.item hl h))
  | undeclared hl => exact .inl (beyond (.resync hl))
  | members h => exact .inl (beyond (.opening h))
  | member => exact .inr ⟨rfl, by simp [Activity.rank]⟩
  | gained hl _ h => exact .inl (beyond (.item hl h))
  | lost hl _ _ hr => exact .inl (beyond (.member hl hr))
  | preamble => exact .inr ⟨rfl, by simp [Activity.rank]⟩
  | list _ hkn hn => exact .inl ⟨hkn, hn⟩
  | annotated ha => exact .inr ⟨rfl, by rcases ha with rfl | rfl <;> simp [Activity.rank]⟩
  | element h => exact .inl (beyond h.getsBeyond)

/-- Reading never leaves the input. -/
theorem cursor_le_of_turns {p q : Point} (hp : p.cursor ≤ all.length)
    (h : Relation.ReflTransGen (Turn all) p q) : q.cursor ≤ all.length := by
  induction h with
  | refl => exact hp
  | tail _ hturn ih =>
    rcases hturn.advances with ⟨-, hle⟩ | ⟨heq, -⟩
    · exact hle
    · exact heq.trans_le ih

/-- **Every sequence of turns ends.** -/
theorem wellFounded_turn (all : List Lexeme) : WellFounded fun q p => Turn all p q := by
  -- the ranks are below four, so a lexeme taken outweighs them
  let remaining := fun p : Point => 4 * (all.length - p.cursor) + p.activity.rank
  refine Subrelation.wf ?_ (measure remaining).wf
  intro q p hturn
  change remaining q < remaining p
  have hrank := q.activity.rank_le
  simp only [remaining]
  rcases hturn.advances with ⟨hlt, hle⟩ | ⟨heq, hlt⟩
  · omega
  · omega

/-! ## Reading turn by turn -/

/-- **The declarations of a file are read turn by turn**: what is read from a lexeme on is what one
turn adds to what is read from where it leads. -/
theorem topLevel_turn (hk : k < all.length) :
    ∃ n issues trees, Turn all ⟨.file, k⟩ ⟨.file, n⟩ ∧
      topLevel (all.drop k) =
        (issues ++ (topLevel (all.drop n)).1, trees ++ (topLevel (all.drop n)).2) := by
  obtain ⟨l, tail, hl⟩ : ∃ l tail, all.drop k = l :: tail :=
    ⟨_, _, List.drop_eq_getElem_cons hk⟩
  cases h : (item false (l :: tail)).outcome with
  | ok r =>
    refine ⟨_, (item false (l :: tail)).issues, r.tree.toList, .declared hl h, ?_⟩
    rw [← (GetsBeyond.item hl h).rest_eq, hl]
    exact topLevel_of_item h
  | error e =>
    let here := (item false (l :: tail)).issues ++ [⟨e, (resync tail).head?.map (·.token)⟩]
    refine ⟨_, here, [], .undeclared hl h, ?_⟩
    rw [← (GetsBeyond.resync hl).rest_eq, hl, topLevel_of_error h]
    simp [here]

/-- **Reading a file ends at its end.** -/
theorem turns_to_end {k : Nat} (hk : k ≤ all.length) :
    Relation.ReflTransGen (Turn all) ⟨.file, k⟩ ⟨.file, all.length⟩ := by
  rcases hk.eq_or_lt with rfl | hlt
  · exact .refl
  · obtain ⟨n, _, _, hturn, -⟩ := topLevel_turn hlt
    obtain ⟨hkn, hn⟩ : k < n ∧ n ≤ all.length := by
      rcases hturn.advances with hlt | ⟨-, hrank⟩
      · exact hlt
      · exact absurd hrank (Nat.lt_irrefl _)
    exact .head hturn (turns_to_end hn)
termination_by all.length - k

/-- **Reading a body ends at the brace that closes it**, if the body can be read. -/
theorem turns_to_close {first : Token} {byPlace : Bool} {m : BodyResult ls}
    (hls : all.drop k = ls) (h : (members first byPlace ls).outcome = .ok m) :
    ∃ n c, Relation.ReflTransGen (Turn all) ⟨.body byPlace, k⟩ ⟨.body byPlace, n⟩ ∧
      all.drop n = c :: m.rest ∧ c.token = m.close := by
  refine (reading_induction (P := fun _ _ _ => True) (Q := fun _ byPlace ls m =>
    ∀ k, all.drop k = ls → ∃ n c,
      Relation.ReflTransGen (Turn all) ⟨.body byPlace, k⟩ ⟨.body byPlace, n⟩ ∧
        all.drop n = c :: m.rest ∧ c.token = m.close)
    ?complete ?block ?close ?member ?skipped).2 _ _ _ _ h k hls
  case complete => exact fun _ => trivial
  case block => exact fun _ _ _ => trivial
  case close =>
    intro first byPlace l tail _ _ k hk
    exact ⟨k, l, .refl, hk, rfl⟩
  case member =>
    intro first byPlace l tail r m hl hi _ _ ih k hk
    obtain ⟨n, c, hturns, hn, hc⟩ := ih _ (GetsBeyond.item hk hi).rest_eq.symm
    exact ⟨n, c, .head (.gained hk hl hi) hturns, hn, hc⟩
  case skipped =>
    intro first byPlace l tail e rest m _ hl hi hr _ ih k hk
    obtain ⟨n, c, hturns, hn, hc⟩ := ih _ (GetsBeyond.member hk hr).rest_eq.symm
    exact ⟨n, c, .head (.lost hk hl hi hr) hturns, hn, hc⟩

/-! ## Progress -/

/-- **Reading makes progress** on the input `all`, from whichever lexeme it goes on. -/
structure Progress (all : List Lexeme) : Prop where
  /-- A declaration that is read ends strictly beyond where it started. -/
  item : ∀ byPlace k (r : ItemResult (all.drop k)),
    (item byPlace (all.drop k)).outcome = .ok r → GetsBeyond all k r.rest
  /-- Recovery at the top level ends strictly beyond the start of the declaration that failed. -/
  resync : ∀ k l tail, all.drop k = l :: tail → GetsBeyond all k (resync tail)
  /-- So does recovery in a body, also where it runs into the end of the input. -/
  resyncInBody : ∀ k l tail, all.drop k = l :: tail →
    GetsBeyond all k ((resyncInBody l.token 0 tail).getD [])
  /-- Every iteration of a loop ends strictly beyond where it started. -/
  iteration : ∀ a k rest, Iteration a (all.drop k) rest → GetsBeyond all k rest
  /-- A field ends strictly beyond its colon; if the comma after it is missing, at the first token
  of the next field. -/
  field : ∀ k f following rest, Parser.field (all.drop k) = .ok ((f, following), rest) →
    (∃ m, FieldColon all k f m ∧ GetsBeyond all (m + 1) rest) ∧
      ∀ t ∈ following, rest.head?.map (·.token) = some t
  /-- The declarations of a file are read turn by turn. -/
  file : ∀ k < all.length, ∃ n issues trees, Turn all ⟨.file, k⟩ ⟨.file, n⟩ ∧
    topLevel (all.drop k) =
      (issues ++ (topLevel (all.drop n)).1, trees ++ (topLevel (all.drop n)).2)
  /-- The end of the file is reached. -/
  fileEnd : Relation.ReflTransGen (Turn all) ⟨.file, 0⟩ ⟨.file, all.length⟩
  /-- So is the end of a body that can be read. -/
  bodyEnd : ∀ first byPlace k (m : BodyResult (all.drop k)),
    (members first byPlace (all.drop k)).outcome = .ok m → ∃ n c,
      Relation.ReflTransGen (Turn all) ⟨.body byPlace, k⟩ ⟨.body byPlace, n⟩ ∧
        all.drop n = c :: m.rest ∧ c.token = m.close
  /-- Every point that is reached from the start lies in the input. -/
  within : ∀ p, Relation.ReflTransGen (Turn all) ⟨.file, 0⟩ p → p.cursor ≤ all.length
  /-- There is no infinite sequence of turns. -/
  ends : WellFounded fun q p => Turn all p q

/-- **Reading makes progress on every token sequence**, whose lexemes are as many as its significant
tokens. -/
theorem progress_ofTokens (ts : List Token) :
    (Lexeme.ofTokens ts).length = (significant ts).length ∧ Progress (Lexeme.ofTokens ts) := by
  refine ⟨?_, ?_⟩
  · rw [← Lexeme.map_token_ofTokens, List.length_map]
  · refine
      { item := fun _ _ _ h => .item rfl h
        resync := fun _ _ _ hl => .resync hl
        resyncInBody := fun _ _ _ hl => .resyncInBody hl
        iteration := fun _ _ _ h => h.getsBeyond
        field := ?_
        file := fun _ hk => topLevel_turn hk
        fileEnd := turns_to_end (Nat.zero_le _)
        bodyEnd := fun _ _ _ _ h => turns_to_close rfl h
        within := fun _ h => cursor_le_of_turns (Nat.zero_le _) h
        ends := wellFounded_turn _ }
    rintro k f following rest h
    refine ⟨exists_fieldColon h, ?_⟩
    rintro t rfl
    obtain ⟨l, tail, rfl, rfl⟩ := Parser.following_of_field h
    rfl

end KlarAudit

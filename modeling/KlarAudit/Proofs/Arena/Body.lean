import KlarAudit.Arena.Parse
import KlarAudit.Proofs.Grammar.Recovery

/-!
# The bodies of containers

Every module, trait or implementation in the arena has been read from a stretch of the input: its
heading, the brace that opens its body, what stands in the body, and the brace at which its extent
ends. Whatever malformed members the body holds, the count of open braces stays positive up to that
last brace. The last brace is the partner of the first unless recovery has entered braces without
counting them, and then it is the partner of one of these.

## Main definitions

* `Body ls d`: the stretch of `ls` that the container `d` has been read from
* `Body.Matched`: the body ends with the partner of the brace that opens it
* `Body.loose`: the braces that are entered uncounted in the body

## Main results

* `matched_iff_of_container`: the body of every container in the arena of a text, and the exact
  condition under which it is matched
-/

namespace KlarAudit

/-- **The body of a container**: where in `ls` the declaration `d` has been read. -/
structure Body (ls : List Lexeme) (d : Declaration) where
  /-- The declaration, opened. -/
  block : Block
  /-- The visibility of the declaration by its place. -/
  byPlace : Bool
  /-- What stands before the declaration. -/
  before : List Lexeme
  /-- The heading, up to the brace that opens the body. -/
  heading : List Lexeme
  /-- The brace that opens the body. -/
  opener : Lexeme
  /-- What stands in the body. -/
  inner : List Lexeme
  /-- The last token of the declaration. -/
  closer : Lexeme
  /-- What stands behind the declaration. -/
  after : List Lexeme
  /-- The parts make up the input. -/
  split : ls = before ++ (heading ++ opener :: (inner ++ closer :: after))
  /-- The heading has been read up to and with its brace. -/
  opened : (opening byPlace (heading ++ opener :: (inner ++ closer :: after))).outcome =
    .ok (.block block, inner ++ closer :: after)
  /-- The extent of the declaration ends with its last token. -/
  closed : d = block.declaration closer.token
  /-- The body is opened by a brace. -/
  opener_is : opener.token.is "\x7b"
  /-- The last token is a closing brace. -/
  closer_is : closer.token.is "\x7d"

namespace Body

variable {ls : List Lexeme} {d : Declaration}

/-- The extent starts with the first token of the heading. -/
theorem span_start (body : Body ls d) :
    (body.heading ++ [body.opener]).head?.map (fun l => (l.token.start : Int)) =
      some d.span.start := by
  obtain ⟨l, tail, hl, hfirst, -⟩ := block_of_opening body.opened
  have hd : d.span.start = l.token.start := by
    rw [← hfirst]
    exact congrArg (·.span.start) body.closed
  rw [hd]
  cases hh : body.heading with
  | nil =>
    rw [hh] at hl
    cases hl
    rfl
  | cons m more =>
    rw [hh] at hl
    cases hl
    rfl

/-- The extent stops with the last token. -/
theorem span_stop (body : Body ls d) : d.span.stop = body.closer.token.stop :=
  congrArg (·.span.stop) body.closed

/-- **The body is matched**: behind its opening brace, the count of open braces stays positive until
the last token, which brings it to zero. -/
def Matched (body : Body ls d) : Prop :=
  (∀ ts, ts <+: body.inner.map Lexeme.token → ∃ n, bracesAfter 1 ts = some (n + 1)) ∧
    bracesAfter 1 ((body.inner ++ [body.closer]).map Lexeme.token) = some 0

/-- The braces that are entered uncounted in the body. -/
def loose (body : Body ls d) : Nat :=
  looseBraces.members body.block.publicMembers (body.inner ++ body.closer :: body.after)

/-- The input from the heading on. -/
theorem drop_before (body : Body ls d) : ls.drop body.before.length =
    body.heading ++ body.opener :: (body.inner ++ body.closer :: body.after) :=
  (congrArg (List.drop _) body.split).trans List.drop_left

/-- The lexeme behind what stands before the heading is where the extent starts. -/
theorem start_drop_before (body : Body ls d) :
    (ls.drop body.before.length).head?.map (fun l => (l.token.start : Int)) =
      some d.span.start := by
  rw [body.drop_before, ← body.span_start]
  simp only [List.head?_append, List.head?_cons]

/-- The braces that are entered uncounted in the body of the first declaration. -/
theorem map_opening_eq_loose (body : Body ls d) (h : body.before.length = 0) :
    (opening body.byPlace ls).outcome.toOption.map
      (fun r => looseBraces.members body.block.publicMembers r.2) = some body.loose := by
  have hdrop := body.drop_before
  rw [h, List.drop_zero] at hdrop
  have hopened : (opening body.byPlace ls).outcome =
      .ok (.block body.block, body.inner ++ body.closer :: body.after) :=
    (congrArg (fun left => (opening body.byPlace left).outcome) hdrop).trans body.opened
  rw [hopened]
  rfl

end Body

/-- A run that never closes more braces than it opens keeps an open brace open. -/
theorem exists_bracesAfter_of_prefix {ts us : List Token} {k : Nat}
    (h : bracesAfter 0 us = some k) (hp : ts <+: us) : ∃ n, bracesAfter 1 ts = some (n + 1) := by
  obtain ⟨vs, rfl⟩ := hp
  rw [bracesAfter_append] at h
  obtain ⟨n, hn, -⟩ := Option.bind_eq_some_iff.mp h
  exact ⟨n, bracesAfter_add hn 1⟩

/-! ## Where declarations have been read -/

/-- The declaration, if it is a container, has been read from `ls`, and its body leaves those braces
open that are entered uncounted. -/
def ReadFrom (ls : List Lexeme) (d : Declaration) : Prop :=
  d.shape.isContainer → ∃ body : Body ls d, Counts 0 body.loose (body.inner.map Lexeme.token)

namespace DeclTree

/-- All declarations of a tree satisfy `R`. -/
inductive All (R : Declaration → Prop) : DeclTree → Prop where
  /-- The declaration at the root and all below it. -/
  | node {d : Declaration} {ts : List DeclTree} (h : R d) (hs : ∀ t ∈ ts, All R t) :
    All R (node d ts)

mutual

theorem All.of_mem_flattenTree {R : Declaration → Prop} {index : Nat} {parent : Option Nat}
    (t : DeclTree) (ht : t.All R) {e : Entry} (he : e ∈ flattenTree index parent t) : R e.decl :=
  match t with
  | DeclTree.node d ts => by
    obtain ⟨h, hs⟩ := ht
    rw [flattenTree] at he
    rcases List.mem_cons.mp he with rfl | he
    · exact h
    · exact All.of_mem_flattenForest ts hs he

theorem All.of_mem_flattenForest {R : Declaration → Prop} {index : Nat} {parent : Option Nat}
    (ts : List DeclTree) (hts : ∀ t ∈ ts, t.All R) {e : Entry}
    (he : e ∈ flattenForest index parent ts) : R e.decl :=
  match ts with
  | [] => by cases he
  | t :: ts => by
    rw [flattenForest] at he
    rcases List.mem_append.mp he with he | he
    · exact All.of_mem_flattenTree t (hts t List.mem_cons_self) he
    · exact All.of_mem_flattenForest ts (fun t ht => hts t (List.mem_cons_of_mem _ ht)) he

end

end DeclTree

/-- A container that has been read, with its body. -/
theorem readFrom_of_block {byPlace : Bool} {all ls rest : List Lexeme} {b : Block}
    {m : BodyResult rest} (h : (opening byPlace ls).outcome = .ok (.block b, rest))
    (hm : (members b.first b.publicMembers rest).outcome = .ok m) (hls : ls <:+ all) :
    ReadFrom all (b.declaration m.close) := by
  intro _
  obtain ⟨before, hall⟩ := hls
  obtain ⟨-, -, -, -, -, heading, opener, hls, ho⟩ := block_of_opening h
  obtain ⟨closer, hclose, hc, inner, hrest, hinner⟩ := counts_item.2 _ _ _ _ hm
  refine ⟨⟨b, byPlace, before, heading, opener, inner, closer, m.rest, ?_, ?_, ?_, ho, ?_⟩, ?_⟩
  · rw [← hall, hls, ← hrest]
  · rw [← hrest, ← hls]
    exact h
  · rw [hclose]
  · rw [hclose]
    exact hc
  · rw [congrArg (looseBraces.members b.publicMembers) hrest] at hinner
    exact hinner

section All

variable {R : Declaration → Prop} {all : List Lexeme}
  (complete : ∀ {byPlace ls d rest}, ls <:+ all →
    (opening byPlace ls).outcome = .ok (.complete (some d), rest) → R d)
  (block : ∀ {byPlace ls b rest} {m : BodyResult rest}, ls <:+ all →
    (opening byPlace ls).outcome = .ok (.block b, rest) →
    (members b.first b.publicMembers rest).outcome = .ok m → R (b.declaration m.close))

include complete block

/-- What holds of every declaration opened at a suffix of the input holds of all declarations read
from there. -/
theorem all_item :
    (∀ byPlace ls (r : ItemResult ls), (item byPlace ls).outcome = .ok r →
      ls <:+ all → ∀ t ∈ r.tree, t.All R) ∧
    ∀ first byPlace ls (m : BodyResult ls), (members first byPlace ls).outcome = .ok m →
      ls <:+ all → ∀ t ∈ m.trees, t.All R := by
  refine reading_induction ?complete ?block ?close ?member ?skipped
  case complete =>
    intro byPlace ls d rest h hls t ht
    obtain ⟨d, rfl, rfl⟩ := Option.map_eq_some_iff.mp ht
    exact .node (complete hls h) (by simp)
  case block =>
    rintro byPlace ls b rest m h hm ih hls t ⟨⟩
    exact .node (block hls h hm) (ih ((opening_of_block h).1.suffix.trans hls))
  case close =>
    intro first byPlace l tail _ hl hls t ht
    cases ht
  case member =>
    intro first byPlace l tail r m hl hr hm ihItem ihBody hls t ht
    rcases List.mem_append.mp ht with ht | ht
    · exact ihItem hls t (by simpa using ht)
    · exact ihBody ((suffix_of_item hr).trans hls) t ht
  case skipped =>
    intro first byPlace l tail e rest m _ hl he hs hm ih hls
    exact ih ((counts_skipped byPlace hl hs).suffix.trans hls)

/-- **Every declaration of a file** has been opened at a suffix of the input. -/
theorem all_topLevel (ls : List Lexeme) (hls : ls <:+ all) :
    ∀ t ∈ (topLevel ls).2, t.All R := by
  induction ls using topLevel_induction with
  | nil => simp [topLevel_nil]
  | @read l tail r h ih =>
    rw [topLevel_of_item h]
    intro t ht
    rcases List.mem_append.mp ht with ht | ht
    · exact (all_item complete block).1 _ _ _ h hls t (by simpa using ht)
    · exact ih ((suffix_of_item h).trans hls) t ht
  | @skipped l tail e h ih =>
    rw [topLevel_of_error h]
    have hskipped : resync tail <:+ l :: tail :=
      (List.dropWhile_suffix _).trans (List.suffix_cons l tail)
    exact ih (hskipped.trans hls)

end All

/-- Every declaration of a file has been read from the file. -/
theorem readFrom_topLevel (all ls : List Lexeme) (hls : ls <:+ all) :
    ∀ t ∈ (topLevel ls).2, t.All (ReadFrom all) := by
  refine all_topLevel ?_ (fun hls h hm => readFrom_of_block h hm hls) ls hls
  intro byPlace ls d rest _ h hc
  rw [not_isContainer_of_opening h] at hc
  cases hc

/-- **A declaration without members** in the arena of a text has been read whole from a suffix of
its lexemes. -/
theorem exists_opening_of_mem {text : String} {e : Entry}
    (he : e ∈ (parse (scan text)).arena.entries) (hc : e.decl.shape.isContainer = false) :
    ∃ byPlace ls rest, ls <:+ Lexeme.ofTokens (scan text) ∧
      (opening byPlace ls).outcome = .ok (.complete (some e.decl), rest) := by
  refine DeclTree.All.of_mem_flattenForest (R := fun d => d.shape.isContainer = false →
    ∃ byPlace ls rest, ls <:+ Lexeme.ofTokens (scan text) ∧
      (opening byPlace ls).outcome = .ok (.complete (some d), rest)) _ ?_ he hc
  refine all_topLevel (fun hls h _ => ⟨_, _, _, hls, h⟩) ?_ _ (List.suffix_refl _)
  intro byPlace ls b rest m _ h _ hcontainer
  obtain ⟨-, -, -, -, hb, -⟩ := block_of_opening h
  rw [show (b.declaration m.close).shape = b.heading.shape from rfl, hb] at hcontainer
  cases hcontainer

/-! ## The bodies in the arena of a text -/

/-- **The body of a container** in the arena of a text. The count of open braces stays positive from
the brace that opens the body to the last token of the container, and then there are as many open
braces as recovery has entered without counting them. So the last token is the partner of the brace
that opens the body exactly if there are none. -/
theorem matched_iff_of_container (text : String) {i : Nat} {e : Entry}
    (h : (parse (scan text)).arena.entries[i]? = some e) (hc : e.decl.shape.isContainer) :
    ∃ body : Body (Lexeme.ofTokens (scan text)) e.decl,
      e.decl.span.stop = body.closer.token.stop ∧
      (∀ ts, ts <+: body.inner.map Lexeme.token → ∃ n, bracesAfter 1 ts = some (n + 1)) ∧
      bracesAfter 1 ((body.inner ++ [body.closer]).map Lexeme.token) = some body.loose ∧
      (body.Matched ↔ body.loose = 0) := by
  -- the entry comes from a tree of the file, and every declaration in these has been read
  have hread : ReadFrom (Lexeme.ofTokens (scan text)) e.decl :=
    DeclTree.All.of_mem_flattenForest _ (readFrom_topLevel _ _ (List.suffix_refl _))
      (List.mem_of_getElem? h)
  obtain ⟨body, hbody⟩ := hread hc
  have hg := genuine_ofTokens_scan text
  rw [body.split] at hg
  have hinner := hbody fun t ht => hg t (by simp at ht ⊢; grind)
  have hpositive (ts : List Token) (hts : ts <+: body.inner.map Lexeme.token) :=
    exists_bracesAfter_of_prefix hinner hts
  have hclose : body.closer.token.closes? = some .brace :=
    (hg _ (by simp)).closes?_of_is (d := .brace) body.closer_is
  have hend : bracesAfter 1 ((body.inner ++ [body.closer]).map Lexeme.token) = some body.loose := by
    rw [List.map_append, bracesAfter_append, ← Nat.zero_add 1, bracesAfter_add hinner 1,
      Option.bind_some, List.map_singleton, bracesAfter_cons, countBrace_of_closes? hclose]
    rfl
  refine ⟨body, body.span_stop, hpositive, hend, ?_⟩
  rw [Body.Matched, hend]
  constructor
  · rintro ⟨-, hzero⟩
    exact Option.some.inj hzero
  · intro hzero
    exact ⟨hpositive, by rw [hzero]⟩

/-- A module with a member that starts with a brace. -/
def skippedBrace : String :=
  "mod m \x7b\n    \x7b \x7d\n    fn f() \x7b\x7d\n\x7d"

/-- The brace that the member starts with is entered uncounted. -/
theorem loose_of_skippedBrace {d : Declaration} (hd : d.span.start = 0)
    (body : Body (Lexeme.ofTokens (scan skippedBrace)) d) : body.loose = 1 := by
  have hlength : (Lexeme.ofTokens (scan skippedBrace)).length = 12 := by decide +kernel
  have hfirst : ∀ n < 12, ((Lexeme.ofTokens (scan skippedBrace)).drop n).head?.map
      (fun l => (l.token.start : Int)) = some 0 → n = 0 := by decide +kernel
  have hloose : ∀ byPlace isPublic,
      (opening byPlace (Lexeme.ofTokens (scan skippedBrace))).outcome.toOption.map
        (fun r => looseBraces.members isPublic r.2) = some 1 := by decide +kernel
  -- nothing stands before the module, so its body is what is left when it has been opened
  have hbefore : body.before.length = 0 := by
    have hsum := congrArg List.length body.split
    rw [hlength, List.length_append, List.length_append, List.length_cons] at hsum
    exact hfirst _ (by omega) (hd ▸ body.start_drop_before)
  have hone := (body.map_opening_eq_loose hbefore).symm.trans (hloose _ _)
  exact Option.some.inj hone

/-- The module is in the arena, but its extent stops with the brace that closes the member, so that
its body is not matched. -/
theorem exists_body_of_skippedBrace :
    ∃ e, (parse (scan skippedBrace)).arena.entries[0]? = some e ∧ e.decl.shape.isContainer ∧
      e.decl.span = ⟨0, 15⟩ ∧
      ∃ body : Body (Lexeme.ofTokens (scan skippedBrace)) e.decl,
        body.closer.token.stop = 15 ∧ body.loose = 1 ∧ ¬ body.Matched := by
  have hfirst : (parse (scan skippedBrace)).arena.entries[0]?.map
      (fun e => (e.decl.shape.isContainer, e.decl.span)) = some (true, ⟨0, 15⟩) := by
    decide +kernel
  obtain ⟨e, he, hfacts⟩ := Option.map_eq_some_iff.mp hfirst
  obtain ⟨hc, hspan⟩ := Prod.mk.inj hfacts
  obtain ⟨body, hcloser, -, -, hiff⟩ := matched_iff_of_container skippedBrace he hc
  have hloose := loose_of_skippedBrace (by rw [hspan]) body
  have hstop : (15 : Int) = body.closer.token.stop := (congrArg Span.stop hspan).symm.trans hcloser
  refine ⟨e, he, hc, hspan, body, by omega, hloose, fun hmatched => ?_⟩
  exact absurd (hiff.mp hmatched) (by omega)

end KlarAudit

import KlarAudit.Proofs.Arena.Starts
import KlarAudit.Proofs.Arena.UnsafeAudit
import KlarAudit.Proofs.Grammar.DocBlock
import KlarAudit.Proofs.Report.Selection
import Mathlib.Data.List.Flatten
import Mathlib.Data.List.Nodup

/-!
# Declarations and their documentation

A declaration is documented by the comments right above its first token or, failing that, above the
first token behind its attributes. Declarations start on stretches of the tokens of their own, so no
comment documents two of them. The public declarations without documentation are counted twice, in
the result for the file and by a rule, and the two counts agree.

## Main definitions

* `DeclHead ts`: the attributes of a declaration in the tokens `ts`, and the token behind them
* `DeclHead.Pairs h d block`: the declaration `d` is documented by the comments `block`
* `Arena.Documented`, `FileResult.CountsDocumented`: documentation is paired and counted exactly

## Main results

* `DeclHead.eq_of_start`: where a declaration starts determines its head
* `documentation_exact`: how declarations are paired with comments, and counted
-/

namespace KlarAudit

open DeclTree (declarationsIn)

/-! ## Heads of declarations in the tokens -/

/-- **The head of a declaration** in the tokens `ts`: its attributes, comments among them, and the
first token behind them, which is a mark or the keyword. -/
@[ext]
structure DeclHead (ts : List Token) where
  /-- What stands before the declaration. -/
  before : List Token
  /-- The attributes, and all comments between them and the token behind. -/
  attributes : List Token
  /-- The first token behind the attributes. -/
  next : Token
  /-- What stands behind. -/
  after : List Token
  /-- The parts make up the tokens. -/
  split : ts = before ++ (attributes ++ next :: after)
  /-- The declaration starts with no comment. -/
  plain : (attributes.headD next).isComment = false
  /-- But for comments, the attributes are attributes as they are written. -/
  written : ∃ as : List {a : List Lexeme // IsAttribute a},
    significant attributes = (as.map Subtype.val).flatten.map Lexeme.token
  /-- The token behind them is a mark or introduces a declaration. -/
  next_is : ∃ w ∈ startWords, next.is w

namespace DeclHead

variable {ts : List Token}

/-- The first token of the declaration. -/
def first (h : DeclHead ts) : Token :=
  h.attributes.headD h.next

/-- **The declaration is documented**: its first token is or, failing that, if there are attributes,
the first token behind them. -/
def Documented (h : DeclHead ts) : Prop :=
  Documents h.before h.first ∨ h.attributes ≠ [] ∧ Documents (h.before ++ h.attributes) h.next

/-- The tokens from the first one on, comments apart, are the attributes and what is behind. -/
theorem significant_eq (h : DeclHead ts) :
    significant (h.attributes ++ h.next :: h.after) =
      significant h.attributes ++ h.next :: significant h.after := by
  obtain ⟨w, -, hw⟩ := h.next_is
  exact significant_append_cons hw h.attributes h.after

theorem exists_tail (h : DeclHead ts) :
    ∃ tail, h.attributes ++ h.next :: h.after = h.first :: tail := by
  unfold first
  cases h.attributes with
  | nil => exact ⟨_, rfl⟩
  | cons t more => exact ⟨_, rfl⟩

theorem first_mem (h : DeclHead ts) : h.first ∈ ts := by
  obtain ⟨tail, htail⟩ := h.exists_tail
  have hmem : h.first ∈ h.before ++ (h.attributes ++ h.next :: h.after) := by
    rw [htail]
    simp
  rwa [← h.split] at hmem

/-- What follows the attributes is found by the reader of attributes. -/
theorem read_attributes (h : DeclHead ts) :
    Parser.attributes ((significant (h.attributes ++ h.next :: h.after)).map Lexeme.alone) =
      .ok ((), (h.next :: significant h.after).map Lexeme.alone) := by
  obtain ⟨as, has⟩ := h.written
  rw [h.significant_eq, has]
  exact attributes_of_startWord h.next_is

/-- **The head of a declaration** is determined by where the declaration starts. -/
theorem eq_of_start (ho : Ordered ts) {h h' : DeclHead ts}
    (hstart : h.first.start = h'.first.start) : h = h' := by
  have hfirst : h.first = h'.first := ho.eq_of_start_eq h.first_mem h'.first_mem hstart
  obtain ⟨tail, htail⟩ := h.exists_tail
  obtain ⟨tail', htail'⟩ := h'.exists_tail
  rw [← hfirst] at htail'
  have hts : ts = h.before ++ h.first :: tail := h.split.trans (by rw [htail])
  have hts' : ts = h'.before ++ h.first :: tail' := h'.split.trans (by rw [htail'])
  obtain ⟨hbefore, rfl⟩ : h.before = h'.before ∧ tail = tail' := by
    rw [hts] at ho
    exact ho.append_cons_inj (hts.symm.trans hts')
  -- one reading of the tokens gives both heads the same token behind the attributes
  have hread := h.read_attributes
  rw [htail, ← htail', h'.read_attributes] at hread
  have hbehind := congrArg (List.map Lexeme.token) (Prod.mk.inj (Except.ok.inj hread)).2
  rw [map_token_map_alone, map_token_map_alone] at hbehind
  have hnext : h.next = h'.next := (List.cons.inj hbehind).1.symm
  have hsplit : h.attributes ++ h.next :: h.after = h'.attributes ++ h.next :: h'.after := by
    rw [htail, ← htail', hnext]
  have hordered : Ordered (h.attributes ++ h.next :: h.after) := by
    rw [h.split] at ho
    exact ho.right
  obtain ⟨hattributes, hafter⟩ := hordered.append_cons_inj hsplit
  exact DeclHead.ext hbefore hattributes hnext hafter

/-- **A declaration paired with comments**: the declaration `d` has the head `h`, and `block` are
the comments that document it. -/
structure Pairs (h : DeclHead ts) (d : Declaration) (block : List Token) : Prop where
  /-- The declaration starts with the first token of the head. -/
  span : d.span.start = h.first.start
  /-- Unless it is an implementation, it has documentation just if it is documented. -/
  doc_iff : d.shape.isImpl = false → (d.doc.isSome ↔ h.Documented)
  /-- An implementation has none. -/
  impl : d.shape.isImpl → d.doc = none
  /-- The comments above the first token. -/
  above_first : d.doc.isSome → Documents h.before h.first → DocBlock h.before block
  /-- Failing these, the comments above the first token behind the attributes. -/
  above_next : d.doc.isSome → ¬ Documents h.before h.first →
    DocBlock (h.before ++ h.attributes) block
  /-- The documentation is what the comments amount to. -/
  renders : ∀ doc, d.doc = some doc → doc.Renders block
  /-- Without documentation there are no such comments. -/
  empty : d.doc = none → block = []

end DeclHead

namespace DeclStart

/-- The lexeme above which the documentation stands: the first one or, if there is none above it,
the one behind the attributes. -/
def anchor (s : DeclStart) : Lexeme :=
  if s.first.doc?.isSome then s.first else s.next.1

theorem doc?_eq (s : DeclStart) : s.doc? = s.anchor.doc? := by
  unfold doc? anchor
  cases h : s.first.doc? with
  | none => simp
  | some doc => simp [h]

theorem anchor_mem (s : DeclStart) : s.anchor ∈ s.lexemes := by
  unfold anchor
  split
  · exact List.mem_of_mem_head? s.head?_lexemes
  · simp [lexemes]

/-- The comments that documentation is made of stand before the lexemes of the start. -/
theorem docBlock_sublist (s : DeclStart) :
    s.anchor.docBlock.Sublist (s.lexemes.flatMap (·.lead)) := by
  refine s.anchor.docBlock_suffix.sublist.trans ?_
  rw [List.flatMap_def]
  exact List.sublist_flatten_of_mem (List.mem_map_of_mem s.anchor_mem)

/-- **The head that a start has** in the tokens `ts`: its lexemes stand in their places there. -/
structure HasHead {ts : List Token} (s : DeclStart) (head : DeclHead ts) : Prop where
  /-- The place of the first lexeme. -/
  first : ∃ before after, s.first.StandsAt ts before after ∧ head.before = before ++ s.first.lead
  /-- The first token. -/
  first_eq : head.first = s.first.token
  /-- The place of the lexeme behind the attributes. -/
  next : ∃ before after, s.next.1.StandsAt ts before after ∧
    head.before ++ head.attributes = before ++ s.next.1.lead
  /-- The token behind the attributes. -/
  next_eq : head.next = s.next.1.token
  /-- Without attributes the two lexemes are the same. -/
  bare : head.attributes = [] → s.first = s.next.1

/-- **A start among the lexemes** of a token sequence has a head in the tokens. -/
theorem exists_hasHead {ts : List Token} {s : DeclStart} (h : s.lexemes <:+: Lexeme.ofTokens ts) :
    ∃ head : DeclHead ts, s.HasHead head := by
  obtain ⟨front, back, hlexemes⟩ := h
  cases hfront : s.front with
  | nil =>
    have hfirst : s.first = s.next.1 := by rw [first, hfront]; rfl
    have hsplit : Lexeme.ofTokens ts = front ++ s.next.1 :: back := by
      rw [← hlexemes, lexemes, hfront]
      simp
    obtain ⟨before, after, hnext, -, -⟩ := exists_standsAt hsplit
    let head : DeclHead ts :=
      { before := before ++ s.next.1.lead
        attributes := []
        next := s.next.1.token
        after
        split := by rw [hnext.split, List.append_assoc]; rfl
        plain := hnext.plain
        written := ⟨[], rfl⟩
        next_is := s.next.2 }
    refine ⟨head, ⟨before, after, hfirst ▸ hnext, ?_⟩, ?_, ⟨before, after, hnext, ?_⟩, rfl, ?_⟩
    · rw [hfirst]
    · rw [hfirst]
      rfl
    · exact List.append_nil _
    · exact fun _ => hfirst
  | cons l more =>
    have hfirst : s.first = l := by rw [first, hfront]; rfl
    have hsplit : Lexeme.ofTokens ts = front ++ l :: (more ++ s.next.1 :: back) := by
      rw [← hlexemes, lexemes, hfront]
      simp
    -- the lexeme behind the attributes is looked for behind the first one
    obtain ⟨before, behind, hl, hbehind, -⟩ := exists_standsAt hsplit
    obtain ⟨between, after, hnext, -, hbetween⟩ := exists_standsAt hbehind
    have hwritten : significant (l.token :: (between ++ s.next.1.lead)) =
        s.front.map Lexeme.token := by
      rw [hl.significant_cons, significant_append, hbetween, hnext.significant_lead,
        List.append_nil, hfront, List.map_cons]
    let head : DeclHead ts :=
      { before := before ++ l.lead
        attributes := l.token :: (between ++ s.next.1.lead)
        next := s.next.1.token
        after
        split := by rw [hl.split, hnext.split]; simp
        plain := hl.plain
        written := ⟨s.attributes, hwritten⟩
        next_is := s.next.2 }
    refine ⟨head, ⟨before, behind, hfirst ▸ hl, ?_⟩, ?_, ⟨_, after, hl.behind hnext, ?_⟩, rfl, ?_⟩
    · rw [hfirst]
    · rw [hfirst]
      rfl
    · simp [head]
    · exact fun hnone => absurd hnone (List.cons_ne_nil _ _)

end DeclStart

/-! ## Documentation is paired with declarations -/

section Pairing

variable {ts : List Token} (hlines : ts.Pairwise fun a b => a.endLine ≤ b.line)

include hlines

/-- **A declaration is paired** with the comments above its start. -/
theorem exists_pairs {s : DeclStart} {d : Declaration} (h : s.Opens (Lexeme.ofTokens ts) d) :
    ∃ head : DeclHead ts, head.Pairs d (if d.shape.isImpl then [] else s.anchor.docBlock) := by
  obtain ⟨head, hhead⟩ := DeclStart.exists_hasHead h.located
  obtain ⟨before, after, hfirst, hbefore⟩ := hhead.first
  obtain ⟨before', after', hnext, hattributes⟩ := hhead.next
  have habove : s.first.doc?.isSome ↔ Documents head.before head.first := by
    rw [hfirst.documented_iff, hbefore, hhead.first_eq]
  have hbehind : s.next.1.doc?.isSome ↔ Documents (head.before ++ head.attributes) head.next := by
    rw [hnext.documented_iff, hattributes, hhead.next_eq]
  have hspan : d.span.start = head.first.start := by rw [h.begins.span, hhead.first_eq]
  refine ⟨head, ?_⟩
  have hdoc := h.begins.doc
  cases himpl : d.shape.isImpl with
  | true =>
    have hnone : d.doc = none := by simpa [himpl] using hdoc
    refine ⟨hspan, by simp [himpl], fun _ => hnone, ?_, ?_, ?_, fun _ => rfl⟩
    all_goals simp [hnone]
  | false =>
    have hdoc : d.doc = s.anchor.doc? := by simpa [himpl, s.doc?_eq] using hdoc
    simp only [Bool.false_eq_true, if_false]
    constructor
    case span => exact hspan
    case doc_iff =>
      intro _
      rw [hdoc, ← s.doc?_eq, DeclStart.doc?, Option.isSome_or, Bool.or_eq_true, habove, hbehind]
      refine or_congr_right' fun hnot => ⟨fun hdocuments => ⟨fun hnone => ?_, hdocuments⟩, (·.2)⟩
      -- without attributes the token behind them is the first one, and that is not documented
      have hfirst_documented : s.first.doc?.isSome := by
        rw [hhead.bare hnone]
        exact hbehind.mpr hdocuments
      exact hnot (habove.mp hfirst_documented)
    case impl => simp [himpl]
    case above_first =>
      intro _ hdocuments
      have hsome : s.first.doc?.isSome := habove.mpr hdocuments
      have hanchor : s.anchor = s.first := if_pos hsome
      rw [hanchor, hbefore]
      exact hfirst.docBlock hlines hsome
    case above_next =>
      intro hsome hnot
      have hanchor : s.anchor = s.next.1 := if_neg fun hfirst_some => hnot (habove.mp hfirst_some)
      rw [hdoc, hanchor] at hsome
      rw [hanchor, hattributes]
      exact hnext.docBlock hlines hsome
    case renders =>
      intro doc hrenders
      exact Lexeme.renders_of_doc? (hdoc.symm.trans hrenders)
    case empty =>
      intro hnone
      by_contra hne
      have hsome := (Lexeme.isSome_doc?_iff _).mpr hne
      rw [← hdoc, hnone] at hsome
      cases hsome

/-- Declarations that start one after another are paired with comments one after another. -/
theorem exists_blocks {starts : List DeclStart} {ds : List Declaration}
    (h : List.Forall₂ (DeclStart.Opens (Lexeme.ofTokens ts)) starts ds) :
    ∃ blocks : List (List Token),
      List.Forall₂ (fun d block => ∃ head : DeclHead ts, head.Pairs d block) ds blocks ∧
      blocks.flatten.Sublist ((starts.flatMap DeclStart.lexemes).flatMap (·.lead)) := by
  induction h with
  | nil => exact ⟨[], .nil, .slnil⟩
  | @cons s d starts ds hd _ ih =>
    obtain ⟨blocks, hpairs, hblocks⟩ := ih
    refine ⟨_, .cons (exists_pairs hlines hd) hpairs, ?_⟩
    rw [List.flatten_cons, List.flatMap_cons, List.flatMap_append]
    refine List.Sublist.append ?_ hblocks
    split
    · exact List.nil_sublist _
    · exact s.docBlock_sublist

end Pairing

/-- The tokens of a text are distinct. -/
theorem nodup_scan (text : String) : (scan text).Nodup := by
  refine (ordered_scan text).pairwise_start.imp fun hlt heq => ?_
  exact absurd (congrArg Token.start heq) (Nat.ne_of_lt hlt)

/-- **Documentation is paired exactly** with the declarations in the tokens `ts`. -/
structure Arena.Documented (a : Arena) (ts : List Token) : Prop where
  /-- The head of a declaration is determined by where the declaration starts. -/
  unique : ∀ h h' : DeclHead ts, h.first.start = h'.first.start → h = h'
  /-- Every declaration is paired with the comments that document it, no comment with two. -/
  paired : ∃ blocks : List (List Token),
    List.Forall₂ (fun d block => ∃ head : DeclHead ts, head.Pairs d block) a.declarations blocks ∧
      blocks.Pairwise List.Disjoint

/-- **The declarations of a text are documented** by comments of their own. -/
theorem documented_parse (text : String) :
    (parse (scan text)).arena.Documented (scan text) := by
  refine ⟨fun h h' => DeclHead.eq_of_start (ordered_scan text), ?_⟩
  have hgenuine : ∀ l ∈ Lexeme.ofTokens (scan text), l.token.Genuine := fun l hl =>
    genuine_ofTokens_scan text _ (List.mem_map_of_mem hl)
  obtain ⟨starts, hstarts, hlexemes⟩ := startedIn_topLevel hgenuine _ (List.suffix_refl _)
  obtain ⟨blocks, hpairs, hblocks⟩ := exists_blocks (pairwise_endLine_scan text) hstarts
  have hdeclared : (parse (scan text)).arena.declarations =
      declarationsIn (topLevel (Lexeme.ofTokens (scan text))).2 :=
    DeclTree.map_decl_flattenForest ..
  refine ⟨blocks, hdeclared ▸ hpairs, ?_⟩
  have hscan : blocks.flatten.Sublist (scan text) :=
    hblocks.trans ((hlexemes.flatMap _).trans (leads_sublist _))
  exact (List.nodup_flatten.mp ((nodup_scan text).sublist hscan)).2

/-! ## Documentation is counted -/

/-- The rules that a rule set enables find each public declaration without documentation once, if
the rule on documentation is among them. -/
theorem countP_missingDoc {s : RuleSet} (hs : s.enables missingDocRule) (path text : String) :
    (auditText path text (s.enabledRules builtinRules)).findings.countP
        (·.rule == missingDocRule.id) =
      ((parse (scan text)).arena.publicDeclarations.filter (·.doc.isNone)).length := by
  -- neither the issues of the parser nor another rule bear the identifier
  have hissues (issues : List ParseIssue) :
      (issues.map (·.finding path)).countP (·.rule == missingDocRule.id) = 0 := by
    have hne : parseErrorRule ≠ missingDocRule.id := by decide
    rw [List.countP_map, List.countP_eq_zero]
    simp [ParseIssue.finding, hne]
  have hrules : (s.enabledRules builtinRules).filter (·.id == missingDocRule.id) =
      [missingDocRule] := by
    have hbuiltin : builtinRules.filter (·.id == missingDocRule.id) = [missingDocRule] := rfl
    rw [RuleSet.enabledRules, List.filter_comm, hbuiltin, List.filter_singleton, hs]
    rfl
  have hrun : ∀ f ∈ missingDocRule.run (Subject.ofText path text),
      (f.rule == missingDocRule.id) = true := fun f hf =>
    beq_iff_eq.mpr (Rule.rule_of_mem_run hf)
  rw [findings_auditText, List.countP_append, hissues, Nat.zero_add, List.countP_eq_length_filter,
    filter_runRules (q := (·.id == missingDocRule.id)), hrules, runRules, List.flatMap_singleton,
    List.filter_eq_self.mpr hrun]
  · -- one finding for each remark, and one remark for each declaration
    rw [Rule.run]
    simp [missingDocRule, Emission.all, Subject.ofText, TokenStream.ofText]
  · intro r _ hr f hf
    rw [Rule.rule_of_mem_run hf]
    exact hr

/-- **Documentation is counted exactly** in the result for a file: its public declarations are
documented, or the rule on documentation finds them. -/
def FileResult.CountsDocumented (r : FileResult) : Prop :=
  r.publicCount = r.documentedCount + r.findings.countP (·.rule == missingDocRule.id)

theorem countsDocumented_auditFile {s : RuleSet} (hs : s.enables missingDocRule) (fs : FileSystem)
    (path display : String) :
    (auditFile fs (s.enabledRules builtinRules) path display).CountsDocumented := by
  unfold FileResult.CountsDocumented auditFile
  split
  · rfl
  · rename_i bytes _
    rw [countP_missingDoc hs]
    let declared := (parse (scan (Utf8.decodeLossy bytes))).arena.publicDeclarations
    show (declared.length : Int) = (declared.filter (·.doc.isSome)).length + _
    have hcounts := List.length_eq_length_filter_add (l := declared) (·.doc.isSome)
    simp only [Option.not_isSome] at hcounts
    exact_mod_cast hcounts

/-- **Documentation is paired and counted exactly.** The declarations of a text are documented by
the comments right above their first token or, failing that, above the first token behind their
attributes, as far up as no free line comes between, and no comment documents two of them. In the
result for a file, every public declaration is documented or found by the rule on documentation, if
that rule is enabled. -/
theorem documentation_exact :
    (∀ text : String, (parse (scan text)).arena.Documented (scan text)) ∧
    ∀ (s : RuleSet) (fs : FileSystem) (path display : String), s.enables missingDocRule →
      (auditFile fs (s.enabledRules builtinRules) path display).CountsDocumented :=
  ⟨documented_parse, fun _ fs path display hs => countsDocumented_auditFile hs fs path display⟩

/-- Three functions, the second with an attribute above its documentation, and the third without
documentation. -/
def threeFunctions : String :=
  "/// one\n/// two\npub fn f() \x7b\x7d\n@x\n/// three\nfn g() \x7b\x7d\npub fn h() \x7b\x7d\n"

/-- A directory with the three functions in a file. -/
def oneDocumented : FileSystem :=
  { root := .directory [("a.kl", .file threeFunctions.toUTF8.toList)] }

/-- Two of the three functions are documented, and one of the two public ones is found. -/
theorem documented_threeFunctions :
    (parse (scan threeFunctions)).arena.declarations.map (fun d => d.doc.map (·.text)) =
      [some "/// one\n/// two", some "/// three", none] ∧
    (parse (scan threeFunctions)).arena.Documented (scan threeFunctions) ∧
    ({} : RuleSet).enables missingDocRule ∧
    (auditFile oneDocumented (({} : RuleSet).enabledRules builtinRules) "a.kl" "a.kl").publicCount =
      2 ∧
    (auditFile oneDocumented (({} : RuleSet).enabledRules builtinRules) "a.kl"
      "a.kl").CountsDocumented := by
  have henabled : ({} : RuleSet).enables missingDocRule := rfl
  obtain ⟨hpaired, hcounted⟩ := documentation_exact
  refine ⟨by decide +kernel, hpaired threeFunctions, henabled, by decide +kernel, ?_⟩
  exact hcounted {} oneDocumented "a.kl" "a.kl" henabled

end KlarAudit

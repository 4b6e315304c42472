import KlarAudit.Proofs.Arena.Justification

/-!
# The documentation above a token

The documentation of a declaration is the longest unbroken run of documentation comments right above
one of its tokens. It is looked for in the comments of a lexeme only, backwards and line by line.
Since a significant token stands before these comments, nothing is missed, and since no token ends
on a later line than the next one starts on, the walk finds exactly this run.

## Main definitions

* `DocBlock before block`: the longest run of documentation comments at the end of `before`
* `Documents before t`: the comment before the token `t` documents it
* `DocComment.Renders doc block`: what the comments of a block amount to
* `Lexeme.StandsAt l ts before after`: the place of a lexeme in the tokens

## Main results

* `docBlock_of_docRun`: what the walk finds
* `Lexeme.StandsAt.documented_iff`, `Lexeme.StandsAt.docBlock`: the documentation above a lexeme
* `exists_standsAt`: every lexeme stands in its place
* `leads_sublist`: the comments of the lexemes are comments of the tokens, in order
-/

namespace KlarAudit

/-! ## Blocks of documentation -/

/-- **A documentation run**: documentation comments at the end of `before`, each of which ends on
the line on which the next one starts or on the line above. -/
structure DocRun (before run : List Token) : Prop where
  /-- The run stands at the end. -/
  suffix : run <:+ before
  /-- It consists of documentation comments. -/
  docs : ∀ c ∈ run, c.kind = .docComment
  /-- There is no free line in it. -/
  unbroken : Unbroken run

/-- **A documentation block**: the longest documentation run. -/
structure DocBlock (before block : List Token) : Prop extends DocRun before block where
  /-- Every run is a part of it. -/
  longest : ∀ run, DocRun before run → run <:+ block

/-- **The token is documented**: the token right before it is a documentation comment that ends on
the line above or later. -/
def Documents (before : List Token) (t : Token) : Prop :=
  ∃ c ∈ before.getLast?, c.kind = .docComment ∧ t.line ≤ c.endLine + 1

/-- **What a block amounts to**: its texts, one a line, from the line on which the first comment
starts to the line on which the last one ends. -/
structure DocComment.Renders (doc : DocComment) (block : List Token) : Prop where
  /-- The texts are joined. -/
  text : doc.text = Text.joinWith "\n" (block.map (·.text))
  /-- The first line. -/
  line : block.head?.map (·.line) = some doc.line
  /-- The last line. -/
  endLine : block.getLast?.map (·.endLine) = some doc.endLine

/-! ## The walk upwards -/

/-- **Documentation read upwards** from the token `t`: the tokens `us` above start with the run,
nearest first. -/
structure DocsAbove (t : Token) (us run : List Token) : Prop where
  /-- The run comes first. -/
  nearest : run <+: us
  /-- It consists of documentation comments. -/
  docs : ∀ c ∈ run, c.kind = .docComment
  /-- Each is reached from the one below it, the first one from `t`. -/
  reaches : (t :: run).IsChain Token.Reaches

open Lexeme (docRun)

theorem docRun_of_reaches {t c : Token} (hc : c.kind = .docComment) (h : t.Reaches c)
    (us : List Token) : docRun (t.line - 1) (c :: us) = c :: docRun (c.line - 1) us := by
  have hline : t.line ≤ c.endLine + 1 := h
  rw [docRun, if_pos ⟨hc, by omega⟩]

theorem docRun_of_not_reaches {t c : Token} (h : ¬ (c.kind = .docComment ∧ t.Reaches c))
    (us : List Token) : docRun (t.line - 1) (c :: us) = [] := by
  rw [docRun, if_neg]
  rintro ⟨hc, hline⟩
  have hreaches : t.line ≤ c.endLine + 1 := by omega
  exact h ⟨hc, hreaches⟩

/-- What the walk finds is documentation read upwards. -/
theorem docsAbove_docRun (t : Token) (us : List Token) :
    DocsAbove t us (docRun (t.line - 1) us) := by
  -- a comment that is reached takes the place of the token for those above it
  induction us generalizing t with
  | nil => exact ⟨List.nil_prefix, by simp [docRun], .singleton t⟩
  | cons c us ih =>
    by_cases h : c.kind = .docComment ∧ t.Reaches c
    · obtain ⟨hc, hreaches⟩ := h
      rw [docRun_of_reaches hc hreaches]
      obtain ⟨hnearest, hdocs, hchain⟩ := ih c
      refine ⟨(List.prefix_cons_inj c).mpr hnearest, ?_, ?_⟩
      · exact List.forall_mem_cons.mpr ⟨hc, hdocs⟩
      · exact List.isChain_cons_cons.mpr ⟨hreaches, hchain⟩
    · rw [docRun_of_not_reaches h]
      exact ⟨List.nil_prefix, by simp, .singleton t⟩

/-- The walk misses nothing that can be read upwards. -/
theorem DocsAbove.nearest_docRun {t : Token} {us run : List Token} (h : DocsAbove t us run) :
    run <+: docRun (t.line - 1) us := by
  induction run generalizing t us with
  | nil => exact List.nil_prefix
  | cons c run ih =>
    obtain ⟨hnearest, hdocs, hchain⟩ := h
    obtain ⟨us, rfl, hbehind⟩ := List.cons_prefix_iff.mp hnearest
    obtain ⟨hc, hdocs⟩ := List.forall_mem_cons.mp hdocs
    obtain ⟨hreaches, hchain⟩ := List.isChain_cons_cons.mp hchain
    rw [docRun_of_reaches hc hreaches]
    exact (List.prefix_cons_inj c).mpr (ih ⟨hbehind, hdocs, hchain⟩)

/-- The walk does not go past a token that is no documentation comment. -/
theorem docRun_append {us vs : List Token} (hvs : ∀ c ∈ vs.head?, c.kind ≠ .docComment)
    (below : Nat) : docRun below (us ++ vs) = docRun below us := by
  induction us generalizing below with
  | nil =>
    cases vs with
    | nil => rfl
    | cons c vs =>
      have hc : c.kind ≠ .docComment := hvs c rfl
      simp [docRun, hc]
  | cons c us ih =>
    rw [List.cons_append, docRun, docRun, ih]

section Block

variable {before run block : List Token} {t : Token}

/-- Documentation read upwards is a documentation run that the token reaches. -/
theorem docsAbove_iff (hlines : before.Pairwise fun a b => a.endLine ≤ b.line) :
    DocsAbove t before.reverse run.reverse ↔
      DocRun before run ∧ ∀ c ∈ run.getLast?, t.Reaches c := by
  have hchain : (t :: run.reverse).IsChain Token.Reaches ↔
      run.reverse.IsChain Token.Reaches ∧ ∀ c ∈ run.getLast?, t.Reaches c := by
    rw [List.isChain_cons, List.head?_reverse, and_comm]
  constructor
  · rintro ⟨hnearest, hdocs, hreaches⟩
    have hsuffix : run <:+ before := List.reverse_prefix.mp hnearest
    have hdocs : ∀ c ∈ run, c.kind = .docComment := fun c hc =>
      hdocs c (List.mem_reverse.mpr hc)
    obtain ⟨hrun, hlast⟩ := hchain.mp hreaches
    have hunbroken := (unbroken_iff (hlines.sublist hsuffix.sublist)).mpr
      ⟨fun c hc => by simp [Token.isComment, hdocs c hc, TokenKind.isComment], hrun⟩
    exact ⟨⟨hsuffix, hdocs, hunbroken⟩, hlast⟩
  · rintro ⟨⟨hsuffix, hdocs, hunbroken⟩, hlast⟩
    obtain ⟨-, hrun⟩ := (unbroken_iff (hlines.sublist hsuffix.sublist)).mp hunbroken
    refine ⟨List.reverse_prefix.mpr hsuffix, ?_, hchain.mpr ⟨hrun, hlast⟩⟩
    intro c hc
    exact hdocs c (List.mem_reverse.mp hc)

/-- The walk finds something just when the token is documented. -/
theorem docRun_ne_nil_iff :
    docRun (t.line - 1) before.reverse ≠ [] ↔ Documents before t := by
  unfold Documents
  rw [← List.head?_reverse]
  cases before.reverse with
  | nil => simp [docRun]
  | cons c us =>
    by_cases h : c.kind = .docComment ∧ t.Reaches c
    · rw [docRun_of_reaches h.1 h.2]
      exact ⟨fun _ => ⟨c, rfl, h⟩, fun _ => List.cons_ne_nil _ _⟩
    · rw [docRun_of_not_reaches h]
      simpa [Token.Reaches] using h

/-- **What the walk finds** is the documentation block. -/
theorem docBlock_of_docRun (hlines : before.Pairwise fun a b => a.endLine ≤ b.line)
    (hblock : block = (docRun (t.line - 1) before.reverse).reverse) (hne : block ≠ []) :
    DocBlock before block := by
  have hwalk : docRun (t.line - 1) before.reverse = block.reverse := by simp [hblock]
  have habove := docsAbove_docRun t before.reverse
  rw [hwalk] at habove
  obtain ⟨hrun, hreaches⟩ := (docsAbove_iff hlines).mp habove
  refine ⟨hrun, fun run h => ?_⟩
  rcases eq_or_ne run [] with rfl | hrun_ne
  · exact List.nil_suffix
  · -- both end with the last token, and so the token reaches this run as well
    have hlast : run.getLast? = block.getLast? := by
      obtain ⟨front, hfront⟩ := h.suffix
      obtain ⟨front', hfront'⟩ := hrun.suffix
      rw [← List.getLast?_append_of_ne_nil front hrun_ne, hfront, ← hfront',
        List.getLast?_append_of_ne_nil front' hne]
    have hup := ((docsAbove_iff hlines).mpr ⟨h, hlast ▸ hreaches⟩).nearest_docRun
    rw [hwalk] at hup
    exact List.reverse_prefix.mp hup

end Block

/-! ## Lexemes in their place -/

/-- **The place of a lexeme** in the tokens `ts`: between `before` and `after` stand its comments
and its token, and the comments are all that stand before the token. -/
structure Lexeme.StandsAt (l : Lexeme) (ts before after : List Token) : Prop where
  /-- The parts make up the tokens. -/
  split : ts = before ++ (l.lead ++ l.token :: after)
  /-- The lead consists of comments. -/
  comments : ∀ c ∈ l.lead, c.isComment
  /-- The token is no comment. -/
  plain : l.token.isComment = false
  /-- No comment stands before the lead. -/
  whole : ∀ c ∈ before.getLast?, c.isComment = false

theorem ofTokensAfter_eq_cons {lead ts : List Token} {l : Lexeme} {back : List Lexeme}
    (h : Lexeme.ofTokensAfter lead ts = l :: back) :
    ∃ comments after, ts = comments ++ l.token :: after ∧ l.lead = lead.reverse ++ comments ∧
      (∀ c ∈ comments, c.isComment) ∧ l.token.isComment = false ∧
      Lexeme.ofTokens after = back := by
  -- the comments gathered so far are `lead`, the last one first
  induction ts generalizing lead with
  | nil => cases h
  | cons t ts ih =>
    rw [Lexeme.ofTokensAfter] at h
    split at h
    · rename_i ht
      obtain ⟨comments, after, rfl, hlead, hcomments, hl, hback⟩ := ih h
      refine ⟨t :: comments, after, rfl, ?_, List.forall_mem_cons.mpr ⟨ht, hcomments⟩, hl, hback⟩
      simp [hlead]
    · rename_i ht
      obtain ⟨rfl, hback⟩ := List.cons.inj h
      exact ⟨[], ts, rfl, by simp, by simp, by simpa using ht, hback⟩

/-- A lexeme behind another one. -/
theorem Lexeme.StandsAt.behind {l m : Lexeme} {ts before behind front after : List Token}
    (hl : l.StandsAt ts before behind) (hm : m.StandsAt behind front after) :
    m.StandsAt ts (before ++ (l.lead ++ l.token :: front)) after := by
  refine ⟨?_, hm.comments, hm.plain, ?_⟩
  · rw [hl.split, hm.split]
    simp
  · intro c hc
    rw [← List.append_assoc, List.getLast?_append_of_ne_nil _ (List.cons_ne_nil _ _),
      List.getLast?_cons] at hc
    cases hlast : front.getLast? with
    | none =>
      obtain rfl : l.token = c := by simpa [hlast] using hc
      exact hl.plain
    | some b =>
      obtain rfl : b = c := by simpa [hlast] using hc
      exact hm.whole b hlast

/-- The grammar sees nothing of what stands before the token. -/
theorem Lexeme.StandsAt.significant_lead {l : Lexeme} {ts before after : List Token}
    (h : l.StandsAt ts before after) : significant l.lead = [] := by
  simpa [significant] using h.comments

theorem Lexeme.StandsAt.significant_cons {l : Lexeme} {ts before after : List Token}
    (h : l.StandsAt ts before after) (us : List Token) :
    significant (l.token :: us) = l.token :: significant us :=
  KlarAudit.significant_cons h.plain us

/-- **Every lexeme stands in its place**, behind the lexemes before it. -/
theorem exists_standsAt {ts : List Token} {front back : List Lexeme} {l : Lexeme}
    (h : Lexeme.ofTokens ts = front ++ l :: back) :
    ∃ before after, l.StandsAt ts before after ∧ Lexeme.ofTokens after = back ∧
      significant before = front.map Lexeme.token := by
  -- the first lexeme, which is the case for each later one with the others before it
  have hfirst {ts : List Token} {l : Lexeme} {back : List Lexeme}
      (h : Lexeme.ofTokens ts = l :: back) :
      ∃ after, l.StandsAt ts [] after ∧ Lexeme.ofTokens after = back := by
    obtain ⟨comments, after, rfl, hlead, hcomments, hl, hback⟩ := ofTokensAfter_eq_cons h
    obtain rfl : l.lead = comments := by simpa using hlead
    exact ⟨after, ⟨rfl, hcomments, hl, by simp⟩, hback⟩
  induction front generalizing ts with
  | nil =>
    obtain ⟨after, hl, hback⟩ := hfirst h
    exact ⟨[], after, hl, hback, rfl⟩
  | cons m front ih =>
    obtain ⟨behind, hm, hbehind⟩ := hfirst h
    obtain ⟨before, after, hl, hafter, hbefore⟩ := ih hbehind
    refine ⟨_, after, hm.behind hl, hafter, ?_⟩
    rw [List.nil_append, significant_append, hm.significant_lead, List.nil_append,
      hm.significant_cons, hbefore, List.map_cons]

theorem leads_sublist_after (lead ts : List Token) :
    ((Lexeme.ofTokensAfter lead ts).flatMap (·.lead)).Sublist (lead.reverse ++ ts) := by
  induction ts generalizing lead with
  | nil => exact List.nil_sublist _
  | cons t ts ih =>
    rw [Lexeme.ofTokensAfter]
    split
    · simpa using ih (t :: lead)
    · rw [List.flatMap_cons]
      exact (List.Sublist.refl _).append ((ih []).cons t)

/-- **The comments of the lexemes** are comments of the tokens, in order. -/
theorem leads_sublist (ts : List Token) :
    ((Lexeme.ofTokens ts).flatMap (·.lead)).Sublist ts :=
  leads_sublist_after [] ts

/-! ## The documentation above a lexeme -/

/-- The comments that the documentation above a lexeme is made of. -/
def Lexeme.docBlock (l : Lexeme) : List Token :=
  (docRun (l.token.line - 1) l.lead.reverse).reverse

theorem Lexeme.docBlock_suffix (l : Lexeme) : l.docBlock <:+ l.lead := by
  have hnearest := (docsAbove_docRun l.token l.lead.reverse).nearest
  refine List.reverse_prefix.mp ?_
  rwa [docBlock, List.reverse_reverse]

theorem Lexeme.isSome_doc?_iff (l : Lexeme) : l.doc?.isSome ↔ l.docBlock ≠ [] := by
  unfold doc? docBlock
  split <;> simp_all

/-- The documentation above a lexeme is what its comments amount to. -/
theorem Lexeme.renders_of_doc? {l : Lexeme} {doc : DocComment} (h : l.doc? = some doc) :
    doc.Renders l.docBlock := by
  unfold doc? at h
  unfold docBlock
  split at h
  · cases h
  · rename_i nearest rest hrun
    rw [hrun]
    cases h
    refine ⟨rfl, ?_, by simp⟩
    cases hblock : (nearest :: rest).reverse with
    | nil => simp at hblock
    | cons first more => simp

namespace Lexeme.StandsAt

variable {l : Lexeme} {ts before after : List Token}

/-- The comments of a lexeme are all that is looked at. -/
theorem docBlock_eq (h : l.StandsAt ts before after) :
    l.docBlock = (docRun (l.token.line - 1) (before ++ l.lead).reverse).reverse := by
  rw [docBlock, List.reverse_append, docRun_append]
  intro c hc hdoc
  rw [List.head?_reverse] at hc
  have hcomment := h.whole c hc
  simp [Token.isComment, hdoc, TokenKind.isComment] at hcomment

/-- **There is documentation above a lexeme** just when its token is documented. -/
theorem documented_iff (h : l.StandsAt ts before after) :
    l.doc?.isSome ↔ Documents (before ++ l.lead) l.token := by
  rw [isSome_doc?_iff, h.docBlock_eq, ne_eq, List.reverse_eq_nil_iff]
  exact docRun_ne_nil_iff

/-- **The documentation above a lexeme** is the longest run of documentation comments there. -/
theorem docBlock (h : l.StandsAt ts before after)
    (hlines : ts.Pairwise fun a b => a.endLine ≤ b.line) (hdoc : l.doc?.isSome) :
    DocBlock (before ++ l.lead) l.docBlock := by
  have hbefore : (before ++ l.lead).Sublist ts := by
    rw [h.split, ← List.append_assoc]
    exact List.sublist_append_left _ _
  exact docBlock_of_docRun (hlines.sublist hbefore) h.docBlock_eq (l.isSome_doc?_iff.mp hdoc)

end Lexeme.StandsAt

end KlarAudit

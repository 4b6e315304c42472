import KlarAudit.Proofs.Arena.TypeSource
import KlarAudit.Proofs.Grammar.Rendering
import KlarAudit.Proofs.Rule.Place

/-!
# References

How a parameter is passed and what to write instead of a stored reference are read off the rendered
type, not its tokens. An exclusive reference is known by the blank behind its two marks, and
rendering puts a blank there only if the type behind it is set off from a word: it is before a name,
and it is not before a bracket or another mark.

## Main definitions

* `IsReference type`, `SharedTo T type`, `ExclusiveTo T type`: references by their tokens
* `setsOff T`: the run is rendered behind a blank if it stands behind a word
* `PassedAs type mode`: how a parameter of a type is passed
* `RemarkedAs name type remark?`: what is said on a field of a type

## Main results

* `ofType_render`: how a parameter is passed, by the tokens of its type
* `ownedType_of_shared`, `ownedType_of_exclusive_iff`: what is left of a reference
* `references_of_text`: the parameters and the fields in a text
-/

namespace KlarAudit

/-! ## References by their tokens -/

/-- The run begins with a reference. -/
def IsReference (type : List Token) : Prop :=
  ∃ r T, type = r :: T ∧ (r.text = "&" ∨ r.text = "&&")

/-- The run is a mark of a reference and then `T`. -/
def SharedTo (T type : List Token) : Prop :=
  ∃ r, type = r :: T ∧ r.text = "&"

/-- The run is the two marks of an exclusive reference and then `T`. -/
def ExclusiveTo (T type : List Token) : Prop :=
  ∃ m, SharedTo (m :: T) type ∧ m.text = "mut"

/-- The run begins with the mark that makes a reference exclusive. -/
def startsWithMut (T : List Token) : Bool :=
  T.head?.any (·.text == "mut")

/-- The run is rendered behind a blank if it stands behind a word. -/
def setsOff (T : List Token) : Bool :=
  T.head?.any (·.isSetOff)

section Rendering

variable {r m t : Token} {T type : List Token}

theorem Token.Legible.kind_of_ampersand (hr : r.Legible) (h : r.text = "&" ∨ r.text = "&&") :
    r.kind = .operator := by
  rcases h with h | h
  · exact (hr.ampersand [] (by rw [h]; rfl)).1
  · exact (hr.ampersand ['&'] (by rw [h]; rfl)).1

/-- A reference is rendered as its mark, and what follows as it would be on its own. -/
theorem pieces_of_ampersand (hr : r.Legible) (h : r.text = "&" ∨ r.text = "&&") :
    (Run.pieces none (r :: T)).toList = r.text.toList ++ (Run.pieces none T).toList := by
  have hkind := hr.kind_of_ampersand h
  have hpiece : Run.piece none r = r.text := by
    rcases h with h | h <;> simp [Run.piece, Token.is, hkind, h]
  have hword : r.kind.isWordlike = false := by rw [hkind]; rfl
  rw [Run.pieces, hpiece, String.toList_append, pieces_some_of_not_isWordlike hword]

theorem render_of_shared (hr : r.Legible) (h : r.text = "&") :
    (Run.render (r :: T)).toList = '&' :: (Run.pieces none T).toList.rdropWhile Text.isBlank := by
  rw [toList_render, pieces_of_ampersand hr (.inl h), h]
  exact Text.trimChars_append_cons (by decide) [] _

/-- The mark that makes a reference exclusive is a word. -/
theorem pieces_of_mut (hm : m.Legible) (h : m.text = "mut") : m.kind.isWordlike ∧
    (Run.pieces none (m :: T)).toList = "mut".toList ++ (Run.pieces (some m) T).toList := by
  have hword : m.kind.isWordlike :=
    (hm.word 'm' ['u', 't'] (by rw [h]; rfl) (by decide)).1
  refine ⟨hword, ?_⟩
  rw [Run.pieces, String.toList_append, piece_of_isWordlike hm hword, if_neg (by simp), h]

/-- A word goes on with the first character of a word. -/
theorem exists_cons_of_append {c : Char} {cs ds es : List Char} (h : c :: ds = cs ++ es)
    (hc : Munch.isWordStart c) (hes : ∀ e ∈ es.head?, Munch.isWordStart e = false) :
    ∃ cs', cs = c :: cs' ∧ ds = cs' ++ es := by
  cases cs with
  | nil =>
    rw [List.nil_append] at h
    rw [hes c (by rw [← h]; rfl)] at hc
    cases hc
  | cons d cs =>
    obtain ⟨rfl, hds⟩ := List.cons.inj h
    exact ⟨cs, rfl, hds⟩

/-- A run that does not begin with the mark is not rendered so either. -/
theorem not_prefix_pieces (hT : ∀ t ∈ T, t.Legible) (h : startsWithMut T = false) :
    ¬ "mut ".toList <+: (Run.pieces none T).toList := by
  cases T with
  | nil => decide
  | cons t U =>
    obtain ⟨ht, hU⟩ := List.forall_mem_cons.mp hT
    have hne : t.text ≠ "mut" := by simpa [startsWithMut] using h
    obtain ⟨lead, c, cs, more, hpieces, hlead, htext, hc⟩ := exists_pieces ht none U
    rintro ⟨behind, hbehind⟩
    rw [hpieces] at hbehind
    rcases hlead with rfl | rfl
    swap
    · exact absurd (List.cons.inj hbehind).1 (by decide)
    obtain ⟨rfl, -⟩ : 'm' = c ∧ _ := List.cons.inj hbehind
    -- the first token is a word, and the next one does not go on with it
    obtain ⟨hword, hbody⟩ := ht.word 'm' cs htext (by decide)
    have hnext := isWordStart_head?_pieces hword hU
    rw [Run.pieces, String.toList_append, piece_of_isWordlike ht hword, if_neg (by simp), htext,
      List.cons_append] at hpieces
    rw [← hpieces] at hbehind
    obtain ⟨cs₁, rfl, hcs₁⟩ := exists_cons_of_append (List.cons.inj hbehind).2 (by decide) hnext
    obtain ⟨cs₂, rfl, hcs₂⟩ := exists_cons_of_append hcs₁ (by decide) hnext
    cases cs₂ with
    | nil => exact hne (String.toList_inj.mp htext)
    | cons e cs₃ =>
      obtain ⟨rfl, -⟩ := List.cons.inj (show ' ' :: behind = e :: _ from hcs₂)
      exact absurd (hbody ' ' (by rw [htext]; simp)) (by decide)

theorem startsWith_ampersand_iff (s : String) :
    Text.startsWith "&" s ↔ s.toList.head? = some '&' := by
  rw [Text.startsWith, List.isPrefixOf_iff_prefix]
  constructor
  · rintro ⟨more, hmore⟩
    rw [← hmore]
    rfl
  · intro h
    obtain ⟨more, hmore⟩ := List.head?_eq_some_iff.mp h
    exact ⟨more, hmore.symm⟩

/-- **References** are rendered with their mark in front, and nothing else is. -/
theorem startsWith_render_iff (htype : ∀ t ∈ type, t.Legible) :
    Text.startsWith "&" (Run.render type) ↔ IsReference type := by
  rw [startsWith_ampersand_iff]
  cases type with
  | nil =>
    constructor
    · intro h
      cases h
    · rintro ⟨r, T, ⟨⟩, -⟩
  | cons r T =>
    have hr := htype r List.mem_cons_self
    rw [head?_render hr T]
    constructor
    · intro h
      obtain ⟨cs, hcs⟩ := List.head?_eq_some_iff.mp h
      exact ⟨r, T, rfl, (hr.ampersand cs hcs).2⟩
    · rintro ⟨r', T', h, htext⟩
      obtain ⟨rfl, rfl⟩ := List.cons.inj h
      rcases htext with htext | htext <;> rw [htext] <;> rfl

theorem exists_of_setsOff (h : setsOff T) : ∃ t U, T = t :: U ∧ t.isSetOff := by
  cases T with
  | nil => cases h
  | cons t U => exact ⟨t, U, rfl, by simpa [setsOff] using h⟩

theorem exists_of_startsWithMut (h : startsWithMut T) : ∃ m U, T = m :: U ∧ m.text = "mut" := by
  cases T with
  | nil => cases h
  | cons m U => exact ⟨m, U, rfl, by simpa [startsWithMut] using h⟩

/-- What is not set off stands right behind the mark. -/
theorem not_prefix_of_not_setsOff (hT : ∀ t ∈ T, t.Legible) (h : setsOff T = false) :
    ¬ "mut ".toList <+: "mut".toList ++ (Run.pieces (some m) T).toList := by
  cases T with
  | nil =>
    show ¬ "mut ".toList <+: "mut".toList ++ []
    decide
  | cons t U =>
    have hoff : t.isSetOff = false := by simpa [setsOff] using h
    obtain ⟨hsame, c, more, hpieces, hc⟩ :=
      exists_pieces_of_not_isSetOff (w := m) (hT t List.mem_cons_self) hoff U
    rintro ⟨behind, hbehind⟩
    rw [hsame, hpieces] at hbehind
    have hrest : "mut".toList ++ ' ' :: behind = "mut".toList ++ c :: more := hbehind
    obtain ⟨rfl, -⟩ := List.cons.inj (List.append_cancel_left hrest)
    cases hc

/-- **Exclusive references** are rendered with a blank behind their marks if what follows is set
off, and nothing else is. -/
theorem startsWith_mut_iff (htype : ∀ t ∈ type, t.Legible) :
    Text.startsWith "&mut " (Run.render type) ↔ ∃ T, ExclusiveTo T type ∧ setsOff T := by
  rw [Text.startsWith, List.isPrefixOf_iff_prefix]
  constructor
  · rintro ⟨behind, hbehind⟩
    have hamp : Text.startsWith "&" (Run.render type) := by
      rw [startsWith_ampersand_iff, ← hbehind]
      rfl
    obtain ⟨r, T, rfl, htext⟩ := (startsWith_render_iff htype).mp hamp
    obtain ⟨hr, hT⟩ := List.forall_mem_cons.mp htype
    -- of a doubled mark the second half would stand where the `m` is wanted
    have hsingle : r.text = "&" := by
      refine htext.resolve_right fun hdouble => ?_
      rw [toList_render, pieces_of_ampersand hr htext, hdouble] at hbehind
      have htrim := Text.trimChars_append_cons (c := '&') (by decide) []
        ('&' :: (Run.pieces none T).toList)
      have hsecond := Text.rdropBlanks_append_cons (c := '&') (by decide) []
        (Run.pieces none T).toList
      rw [List.nil_append] at htrim hsecond
      rw [hsecond] at htrim
      exact absurd (List.cons.inj (List.cons.inj (hbehind.trans htrim)).2).1 (by decide)
    rw [render_of_shared hr hsingle] at hbehind
    have hmark : "mut ".toList <+: (Run.pieces none T).toList :=
      List.IsPrefix.trans ⟨behind, (List.cons.inj hbehind).2⟩ (List.rdropWhile_prefix _ _)
    cases hmut : startsWithMut T with
    | false => exact absurd hmark (not_prefix_pieces hT hmut)
    | true =>
      obtain ⟨m, T, rfl, hm⟩ := exists_of_startsWithMut hmut
      refine ⟨T, ⟨m, ⟨r, rfl, hsingle⟩, hm⟩, Bool.not_eq_false _ ▸ fun hoff => ?_⟩
      obtain ⟨hml, hT⟩ := List.forall_mem_cons.mp hT
      rw [(pieces_of_mut hml hm).2] at hmark
      exact not_prefix_of_not_setsOff hT hoff hmark
  · rintro ⟨T, ⟨m, ⟨r, rfl, hr⟩, hm⟩, hoff⟩
    obtain ⟨t, U, rfl, ht⟩ := exists_of_setsOff hoff
    obtain ⟨hrl, hml, htl, -⟩ : r.Legible ∧ m.Legible ∧ t.Legible ∧ ∀ t ∈ U, t.Legible := by
      simpa using htype
    obtain ⟨hword, hpieces⟩ := pieces_of_mut (T := t :: U) hml hm
    obtain ⟨c, more, hbehind, hc, -⟩ := exists_pieces_of_isSetOff htl hword ht U
    rw [render_of_shared hrl hr, hpieces, hbehind]
    have htrim := Text.rdropBlanks_append_cons hc "mut ".toList more
    rw [show "mut".toList ++ ' ' :: c :: more = "mut ".toList ++ c :: more from rfl, htrim]
    exact ⟨c :: more.rdropWhile Text.isBlank, rfl⟩

/-- **How a parameter is passed**, by the tokens of its type. -/
theorem ofType_render (htype : ∀ t ∈ type, t.Legible) :
    (PassingMode.ofType (Run.render type) = .borrowedMut ↔
      ∃ T, ExclusiveTo T type ∧ setsOff T) ∧
    (PassingMode.ofType (Run.render type) = .owned ↔ ¬ IsReference type) := by
  have hexclusive := startsWith_mut_iff htype
  have hreference := startsWith_render_iff htype
  have hmut (h : Text.startsWith "&mut " (Run.render type)) : IsReference type := by
    obtain ⟨T, ⟨m, ⟨r, rfl, hr⟩, -⟩, -⟩ := hexclusive.mp h
    exact ⟨r, _, rfl, .inl hr⟩
  unfold PassingMode.ofType
  split
  · rename_i h
    simp [← hexclusive, h, hmut h]
  · rename_i h
    split
    · rename_i href
      simp [← hexclusive, h, ← hreference, href]
    · rename_i href
      simp [← hexclusive, h, ← hreference, href]

/-- A slice is not set off, so the reference to it passes for a shared one. -/
example : PassingMode.ofType (Run.render (significant (scan "&mut [u8]"))) = .borrowed := by
  decide +kernel

/-! ## What is left of a reference -/

/-- What is left of a single reference is rendered as on its own, but for the mark that makes the
reference exclusive, which goes if a blank stands behind it. -/
theorem ownedType_render (hr : r.Legible) (htext : r.text = "&") (ht : t.Legible)
    (href : ¬ IsReference (t :: T)) : (ownedType (Run.render (r :: t :: T))).toList =
      let bare := (Run.pieces none (t :: T)).toList.rdropWhile Text.isBlank
      Text.trimChars (if "mut ".toList.isPrefixOf bare then bare.drop 4 else bare) := by
  obtain ⟨lead, c, cs, more, hpieces, hlead, hct, hc⟩ := exists_pieces ht none T
  have hcamp : c ≠ '&' := by
    rintro rfl
    exact href ⟨t, T, rfl, (ht.ampersand cs hct).2⟩
  have hbare : (Run.render (r :: t :: T)).toList.dropWhile (· == '&') =
      (Run.pieces none (t :: T)).toList.rdropWhile Text.isBlank := by
    rw [render_of_shared hr htext, hpieces, Text.rdropBlanks_append_cons hc]
    rcases hlead with rfl | rfl <;> simp [hcamp]
  rw [ownedType, hbare, String.toList_ofList]
  rfl

/-- **What is left of a shared reference** is the type behind its mark. -/
theorem ownedType_of_shared (htype : ∀ t ∈ type, t.Legible) (h : SharedTo T type) (hne : T ≠ [])
    (href : ¬ IsReference T) (hmut : startsWithMut T = false) :
    ownedType (Run.render type) = Run.render T := by
  obtain ⟨r, rfl, hr⟩ := h
  obtain ⟨t, U, rfl⟩ := List.exists_cons_of_ne_nil hne
  obtain ⟨hrl, htl⟩ := List.forall_mem_cons.mp htype
  obtain ⟨lead, c, cs, more, hpieces, -, -, hc⟩ := exists_pieces (htl t List.mem_cons_self) none U
  have hmark : ("mut ".toList.isPrefixOf
      ((Run.pieces none (t :: U)).toList.rdropWhile Text.isBlank)) = false := by
    refine Bool.eq_false_iff.mpr fun h => not_prefix_pieces htl hmut ?_
    exact (List.isPrefixOf_iff_prefix.mp h).trans (List.rdropWhile_prefix _ _)
  refine String.toList_inj.mp ?_
  rw [ownedType_render hrl hr (htl t List.mem_cons_self) href]
  dsimp only
  rw [hmark, if_neg Bool.false_ne_true, toList_render, hpieces, Text.rdropBlanks_append_cons hc,
    Text.trimChars_append_cons hc, Text.trimChars_append_cons hc, List.rdropWhile_idempotent]

theorem not_isReference_of_mut (hm : m.text = "mut") (T : List Token) : ¬ IsReference (m :: T) := by
  rintro ⟨_, _, h, htext⟩
  obtain ⟨rfl, -⟩ := List.cons.inj h
  rw [hm] at htext
  exact absurd htext (by decide)

section Exclusive

variable {U : List Token}

/-- A type behind two marks is all that is left of them if it is set off. -/
theorem ownedType_of_isSetOff (hr : r.Legible ∧ r.text = "&") (hm : m.Legible ∧ m.text = "mut")
    (ht : t.Legible) (hoff : t.isSetOff) :
    ownedType (Run.render (r :: m :: t :: U)) = Run.render (t :: U) := by
  obtain ⟨hword, hpieces⟩ := pieces_of_mut (T := t :: U) hm.1 hm.2
  obtain ⟨c, more, hbehind, hc, hrender⟩ := exists_pieces_of_isSetOff ht hword hoff U
  have htrim := Text.rdropBlanks_append_cons hc "mut ".toList more
  have hone := Text.trimChars_append_cons hc []
  rw [← String.toList_inj, ownedType_render hr.1 hr.2 hm.1 (not_isReference_of_mut hm.2 _), hpieces]
  dsimp only
  -- the mark and the blank behind it are taken away together
  rw [hbehind, show "mut".toList ++ ' ' :: c :: more = "mut ".toList ++ c :: more from rfl, htrim,
    if_pos (List.isPrefixOf_iff_prefix.mpr (List.prefix_append _ _)), hrender]
  show Text.trimChars ([] ++ c :: _) = Text.trimChars ([] ++ c :: more)
  rw [hone, hone, List.rdropWhile_idempotent]

/-- The second mark stays in front of a type that is not set off. -/
theorem ownedType_ne_of_not_isSetOff (hr : r.Legible ∧ r.text = "&")
    (hm : m.Legible ∧ m.text = "mut") (ht : t.Legible) (hoff : t.isSetOff = false) :
    ownedType (Run.render (r :: m :: t :: U)) ≠ Run.render (t :: U) := by
  obtain ⟨hword, hpieces⟩ := pieces_of_mut (T := t :: U) hm.1 hm.2
  obtain ⟨hsame, c, more, hnone, hc⟩ := exists_pieces_of_not_isSetOff (w := m) ht hoff U
  have hstart : "mut ".toList.isPrefixOf
      ("mut".toList ++ c :: more.rdropWhile Text.isBlank) = false := by
    refine Bool.eq_false_iff.mpr fun h => ?_
    obtain ⟨behind, hbehind⟩ := List.isPrefixOf_iff_prefix.mp h
    have hrest : "mut".toList ++ ' ' :: behind =
        "mut".toList ++ c :: more.rdropWhile Text.isBlank := hbehind
    obtain ⟨rfl, -⟩ := List.cons.inj (List.append_cancel_left hrest)
    cases hc
  have hmark : Text.dropBlanks "mut".toList = "mut".toList := by decide
  have hone := Text.trimChars_append_cons hc [] more
  rw [List.nil_append] at hone
  rw [Ne, ← String.toList_inj, ownedType_render hr.1 hr.2 hm.1 (not_isReference_of_mut hm.2 _),
    hpieces]
  dsimp only
  rw [toList_render, hsame, hnone, Text.rdropBlanks_append_cons hc, hstart,
    if_neg Bool.false_ne_true, Text.trimChars_append_cons hc, List.rdropWhile_idempotent, hmark,
    hone]
  -- what is left is longer by the mark
  intro h
  have hlength := congrArg List.length h
  simp only [Text.dropBlanks, List.dropWhile_nil, List.nil_append, List.length_append,
    List.length_cons] at hlength
  revert hlength
  simp

end Exclusive

/-- **What is left of an exclusive reference** is the type behind its marks, if that is set off;
otherwise the second mark stays. -/
theorem ownedType_of_exclusive_iff (htype : ∀ t ∈ type, t.Legible) (h : ExclusiveTo T type)
    (hne : T ≠ []) : ownedType (Run.render type) = Run.render T ↔ setsOff T := by
  obtain ⟨m, ⟨r, rfl, hr⟩, hm⟩ := h
  obtain ⟨t, U, rfl⟩ := List.exists_cons_of_ne_nil hne
  obtain ⟨hrl, hml, htl, -⟩ : r.Legible ∧ m.Legible ∧ t.Legible ∧ ∀ t ∈ U, t.Legible := by
    simpa using htype
  rw [setsOff, List.head?_cons, Option.any_some]
  cases hoff : t.isSetOff with
  | true => exact iff_of_true (ownedType_of_isSetOff ⟨hrl, hr⟩ ⟨hml, hm⟩ htl hoff) rfl
  | false =>
    exact iff_of_false (ownedType_ne_of_not_isSetOff ⟨hrl, hr⟩ ⟨hml, hm⟩ htl hoff)
      Bool.false_ne_true

end Rendering

/-! ## The parameters and the fields of a text -/

/-- **How a parameter of the type `type` is passed.** -/
structure PassedAs (type : List Token) (mode : PassingMode) : Prop where
  /-- By exclusive reference, if the type behind its marks is set off. -/
  exclusive : ∀ T, T ≠ [] → ExclusiveTo T type → (mode = .borrowedMut ↔ setsOff T)
  /-- By shared reference, if another mark stands in front. -/
  shared : ∀ T, SharedTo T type → startsWithMut T = false → mode = .borrowed
  /-- By value, without a mark. -/
  owned : ¬ IsReference type → mode = .owned

/-- **The remark on a field of the type `type`**, if there is one: what to write instead. -/
structure RemarkedAs (name : String) (type : List Token) (remark? : Option Remark) : Prop where
  /-- A field that stores a reference is remarked on, and no other. -/
  isSome : remark?.isSome ↔ IsReference type
  /-- Instead of a shared reference, the type behind its mark. -/
  shared : ∀ T, T ≠ [] → SharedTo T type → ¬ IsReference T → startsWithMut T = false →
    remark?.bind (·.fix) = some (name ++ ": " ++ Run.render T)
  /-- Instead of an exclusive reference, the type behind its marks if that is set off. -/
  exclusive : ∀ T, T ≠ [] → ExclusiveTo T type →
    (remark?.bind (·.fix) = some (name ++ ": " ++ Run.render T) ↔ setsOff T)

section Text

variable {type T U : List Token}

theorem SharedTo.isReference (h : SharedTo T type) : IsReference type := by
  obtain ⟨r, rfl, hr⟩ := h
  exact ⟨r, T, rfl, .inl hr⟩

theorem SharedTo.unique (h : SharedTo T type) (h' : SharedTo U type) : T = U := by
  obtain ⟨r, rfl, -⟩ := h
  obtain ⟨r', heq, -⟩ := h'
  exact (List.cons.inj heq).2

theorem ExclusiveTo.unique (h : ExclusiveTo T type) (h' : ExclusiveTo U type) : T = U := by
  obtain ⟨m, h, -⟩ := h
  obtain ⟨m', h', -⟩ := h'
  exact (List.cons.inj (h.unique h')).2

theorem ExclusiveTo.isReference (h : ExclusiveTo T type) : IsReference type := by
  obtain ⟨m, h, -⟩ := h
  exact h.isReference

/-- An exclusive reference is no shared one. -/
theorem ExclusiveTo.startsWithMut (h : ExclusiveTo T type) (h' : SharedTo U type) :
    startsWithMut U := by
  obtain ⟨m, h, hm⟩ := h
  rw [← h.unique h']
  simp [KlarAudit.startsWithMut, hm]

theorem passedAs_ofType (htype : ∀ t ∈ type, t.Legible) :
    PassedAs type (.ofType (Run.render type)) := by
  obtain ⟨hexclusive, howned⟩ := ofType_render htype
  constructor
  case exclusive =>
    intro T _ hT
    rw [hexclusive]
    constructor
    · rintro ⟨U, hU, hoff⟩
      rwa [hT.unique hU]
    · exact fun hoff => ⟨T, hT, hoff⟩
  case shared =>
    intro T hT hmut
    cases hmode : PassingMode.ofType (Run.render type) with
    | borrowed => rfl
    | owned => exact absurd hT.isReference (howned.mp hmode)
    | borrowedMut =>
      obtain ⟨U, hU, -⟩ := hexclusive.mp hmode
      rw [hU.startsWithMut hT] at hmut
      cases hmut
  case owned => exact howned.mpr

theorem remarkedAs_storedReferenceRemark? (htype : ∀ t ∈ type, t.Legible) (owner : String)
    {f : Field} (hf : f.type = Run.render type) :
    RemarkedAs f.name type (storedReferenceRemark? owner f) := by
  have hstarts := startsWith_render_iff htype
  have hfix (h : IsReference type) : (storedReferenceRemark? owner f).bind (·.fix) =
      some (f.name ++ ": " ++ ownedType (Run.render type)) := by
    rw [storedReferenceRemark?, hf, if_pos (hstarts.mpr h)]
    rfl
  constructor
  case isSome =>
    rw [← hstarts, storedReferenceRemark?, hf]
    split <;> simp_all
  case shared =>
    intro T hne hT href hmut
    rw [hfix hT.isReference, ownedType_of_shared htype hT hne href hmut]
  case exclusive =>
    intro T hne hT
    rw [hfix hT.isReference, Option.some_inj, ← ownedType_of_exclusive_iff htype hT hne,
      String.append_right_inj]

end Text

section Arena

variable {path text : String}

theorem legible_of_standsIn {R : List Token → Prop} {type : List Token}
    (h : StandsIn (significant (scan text)) R) (hR : ∀ here, R here → type ⊆ here) :
    ∀ t ∈ type, t.Legible := by
  obtain ⟨before, here, after, hts, hhere⟩ := h
  intro t ht
  have hmem : t ∈ significant (scan text) := by
    rw [hts]
    exact List.mem_append_right _ (List.mem_append_left _ (hR here hhere ht))
  exact legible_of_mem_scan (List.mem_filter.mp hmem).1

theorem Parameter.On.subset {type here : List Token} {p : Parameter} (h : p.On type here) :
    type ⊆ here := by
  obtain ⟨head, name, colon, stop, rfl, -⟩ := h
  intro t ht
  simp [ht]

theorem Field.On.subset {type here : List Token} {f : Field} (h : f.On type here) :
    type ⊆ here := by
  intro t ht
  obtain ⟨-, -, ⟨name, colon, rfl, -⟩ | ⟨mark, rfl, -⟩⟩ := h <;> simp [ht]

/-- **References survive rendering as far as blanks tell them.** Whatever the path and the text,
each parameter of a function stands on tokens of the text, and how it is passed is what these say,
except that an exclusive reference is told from a shared one only if the type behind its marks is
set off. Likewise for the fields of structures and the remarks on them, which are the findings of
the rule on stored references, at most one for each field. -/
theorem references_of_text (path text : String) :
    let s := Subject.ofText path text
    let ts := significant (scan text)
    (∀ e sig, (e, sig) ∈ s.functions → ∀ p ∈ sig.params, (∃ type, StandsIn ts (p.On type)) ∧
      ∀ type, StandsIn ts (p.On type) → PassedAs type p.mode) ∧
    (∀ owner f, (owner, f) ∈ s.fields → (∃ type, StandsIn ts (f.On type)) ∧
      ∀ type, StandsIn ts (f.On type) →
        RemarkedAs f.name type (storedReferenceRemark? owner f)) ∧
    storedReferenceRule.run s =
      (s.fields.filterMap fun (owner, f) => storedReferenceRemark? owner f).map
        (storedReferenceRule.finding path) := by
  intro s ts
  refine ⟨?_, ?_, rfl⟩
  · intro e sig he p hp
    constructor
    · have htypes := typesOn_of_mem (mem_of_mem_functions he)
      obtain ⟨before, here, after, hts, type, hon⟩ :=
        (htypes.params sig (signature?_of_mem_functions he)).exists_of_mem hp
      exact ⟨type, before, here, after, hts, hon⟩
    · -- that the stretch comes from a text is all that is used of it
      intro type hstands
      have htype := legible_of_standsIn hstands fun _ h => h.subset
      obtain ⟨_, here, _, -, head, name, colon, stop, -, -, -, -, rfl⟩ := hstands
      exact passedAs_ofType htype
  · intro owner f hf
    obtain ⟨d, hd, hf⟩ := List.mem_flatMap.mp hf
    obtain ⟨e, he, rfl⟩ := List.mem_map.mp hd
    split at hf
    case h_2 => cases hf
    case h_1 g fields hshape =>
      obtain ⟨f', hf, ⟨⟩⟩ := List.mem_map.mp hf
      constructor
      · obtain ⟨before, here, after, hts, type, hon⟩ :=
          ((typesOn_of_mem he).fields g fields hshape).exists_of_mem hf
        exact ⟨type, before, here, after, hts, hon⟩
      · intro type hstands
        have htype := legible_of_standsIn hstands fun _ h => h.subset
        obtain ⟨_, here, _, -, htyped, -⟩ := hstands
        exact remarkedAs_storedReferenceRemark? htype _ htyped

end Arena

/-- A function whose parameter is an exclusive reference to a slice. -/
def exclusiveSlice : String :=
  "fn f(a: &mut [u8]) \x7b\x7d"

/-- The type behind the two marks of that reference. -/
def sliceRun : List Token :=
  [.onLine 13 .operator "[", .onLine 14 .identifier "u8", .onLine 16 .operator "]"]

/-- The parameter does not pass for an exclusive reference, as a slice is not set off. -/
theorem not_borrowedMut_exclusiveSlice :
    ∃ e sig p type, (e, sig) ∈ (Subject.ofText "main.kl" exclusiveSlice).functions ∧
      p ∈ sig.params ∧ StandsIn (significant (scan exclusiveSlice)) (p.On type) ∧
      ExclusiveTo sliceRun type ∧ p.mode ≠ .borrowedMut := by
  have hparams : (Subject.ofText "main.kl" exclusiveSlice).functions.map (·.2.params) =
      [[⟨"a", "&mut[u8]", ⟨5, 1, 6⟩⟩]] := by
    decide +kernel
  obtain ⟨⟨e, sig⟩, he, hsig⟩ := List.mem_map.mp (hparams ▸ List.mem_singleton_self _)
  have hp : ⟨"a", "&mut[u8]", ⟨5, 1, 6⟩⟩ ∈ sig.params := by
    rw [hsig]
    exact List.mem_singleton_self _
  have hstands : StandsIn (significant (scan exclusiveSlice)) (Parameter.On
      (.onLine 8 .operator "&" :: .onLine 9 .keyword "mut" :: sliceRun)
      ⟨"a", "&mut[u8]", ⟨5, 1, 6⟩⟩) :=
    ⟨(significant (scan exclusiveSlice)).take 3, _, (significant (scan exclusiveSlice)).drop 11,
      by decide +kernel, [.onLine 5 .identifier "a"], .onLine 5 .identifier "a",
      .onLine 6 .operator ":", .onLine 17 .operator ")", rfl, by decide, rfl, by decide, by decide⟩
  have hexclusive : ExclusiveTo sliceRun
      (.onLine 8 .operator "&" :: .onLine 9 .keyword "mut" :: sliceRun) :=
    ⟨_, ⟨_, rfl, rfl⟩, rfl⟩
  have hpassed := ((references_of_text "main.kl" exclusiveSlice).1 e sig he _ hp).2 _ hstands
  refine ⟨e, sig, _, _, he, hp, hstands, hexclusive, fun hmode => ?_⟩
  exact absurd ((hpassed.exclusive _ (List.cons_ne_nil _ _) hexclusive).mp hmode) (by decide)

end KlarAudit

import MarkdownPreview.Proofs.FirstMarker
import MarkdownPreview.Proofs.Idempotence
/-!
# Fences cut a text into pieces

The fence pass walks over a text and looks for a pair of fences at every position. The same is written
by a rule without a walk: cut the text at its fences (`Pieces`), and write the pieces in turn as text
and as code (`Alternate`).

Main result `codeBlocks_alternate`: there is one way to cut a text, and what the fence pass writes is
the one text that its pieces alternate to. The steps of the walk are `codeBlocks_of_isFirst`, where
everything up to the first fence is copied, and `codeBlocks_pair`, where a fence and the next one
become a block; the induction takes two pieces at a time (`Pieces.alternate_codeBlocks`).
-/

namespace MarkdownPreview

open Text

namespace Text

/-! ## Cutting at a marker -/

section
variable {mark : Text}

/-- The pieces of a text: it is cut at the first marker, what is left is cut in the same way, and the
last piece has no marker in it. -/
inductive Pieces (mark : Text) : Text → List Text → Prop
  | last {t : Text} : ¬ mark <:+: t → Pieces mark t [t]
  | cut {t before rest : Text} {ps : List Text} : IsFirst mark t before rest →
    Pieces mark rest ps → Pieces mark t (before :: ps)

theorem exists_pieces (hne : mark ≠ []) (t : Text) : ∃ ps, Pieces mark t ps := by
  induction hn : t.length using Nat.strongRecOn generalizing t with
  | ind n ih =>
    cases hcut : cut? mark t with
    | none => exact ⟨[t], .last (cut?_eq_none_iff.1 hcut)⟩
    | some cut =>
      have hlength := length_of_cut? hcut
      have hpos := List.length_pos_iff.2 hne
      obtain ⟨ps, hps⟩ := ih cut.2.length (by omega) cut.2 rfl
      exact ⟨cut.1 :: ps, .cut (cut?_eq_some_iff.1 hcut) hps⟩

theorem Pieces.unique {t : Text} {ps ps' : List Text} (h : Pieces mark t ps)
    (h' : Pieces mark t ps') : ps = ps' := by
  induction h generalizing ps' with
  | last hnot =>
    cases h' with
    | last => rfl
    | cut hfirst _ => exact absurd ⟨_, _, hfirst.1.symm⟩ hnot
  | cut hfirst _ ih =>
    cases h' with
    | last hnot => exact absurd ⟨_, _, hfirst.1.symm⟩ hnot
    | cut hfirst' h' =>
      obtain ⟨rfl, rfl⟩ := hfirst.unique hfirst'
      rw [ih h']

/-- The pieces with the marker between them are the text. -/
theorem Pieces.intercalate_eq {t : Text} {ps : List Text} (h : Pieces mark t ps) :
    mark.intercalate ps = t := by
  induction h with
  | last => exact List.intercalate_singleton
  | @cut t before rest ps hfirst h ih =>
    have hne : ps ≠ [] := by cases h <;> simp
    obtain ⟨p, ps, rfl⟩ := List.exists_cons_of_ne_nil hne
    rw [List.intercalate_cons_cons, ih, hfirst.1, List.append_assoc]

end

end Text

namespace Fence

/-! ## The breaks beside the fences -/

/-- The rest of a text behind the one line break that it starts with, if it starts with one. -/
def DropsFirst (t rest : Text) : Prop :=
  t = '\r' :: '\n' :: rest ∨ t = '\n' :: rest ∨
    t = rest ∧ ¬ ['\n'] <+: t ∧ ¬ ['\r', '\n'] <+: t

/-- The part of a text before the one line break that it ends with, if it ends with one. -/
def DropsLast (t rest : Text) : Prop :=
  t = rest ++ ['\r', '\n'] ∨ t = rest ++ ['\n'] ∧ ¬ ['\r', '\n'] <:+ t ∨
    t = rest ∧ ¬ ['\n'] <:+ t

theorem dropsFirst_iff {t rest : Text} : DropsFirst t rest ↔ dropFirstBreak t = rest := by
  constructor
  · rintro (rfl | rfl | ⟨rfl, hlf, hcrlf⟩)
    · rfl
    · rfl
    · rw [dropFirstBreak, isPrefixOf?_eq_none_iff.2 hlf, isPrefixOf?_eq_none_iff.2 hcrlf]
      rfl
  · rintro rfl
    unfold dropFirstBreak
    cases hcrlf : ['\r', '\n'].isPrefixOf? t with
    | some rest => exact Or.inl (eq_append_of_isPrefixOf? hcrlf)
    | none =>
      cases hlf : ['\n'].isPrefixOf? t with
      | some rest => exact Or.inr (Or.inl (eq_append_of_isPrefixOf? hlf))
      | none =>
        exact Or.inr (Or.inr
          ⟨rfl, isPrefixOf?_eq_none_iff.1 hlf, isPrefixOf?_eq_none_iff.1 hcrlf⟩)

theorem dropsLast_iff {t rest : Text} : DropsLast t rest ↔ dropLastBreak t = rest := by
  unfold dropLastBreak
  constructor
  · rintro (rfl | ⟨rfl, hcrlf⟩ | ⟨rfl, hlf⟩)
    · rw [isSuffixOf?_eq_some_iff.2 rfl]
      rfl
    · rw [isSuffixOf?_eq_none_iff.2 hcrlf, isSuffixOf?_eq_some_iff.2 rfl]
      rfl
    · have hcrlf : ¬ ['\r', '\n'] <:+ t := fun h => hlf ((List.suffix_cons '\r' ['\n']).trans h)
      rw [isSuffixOf?_eq_none_iff.2 hcrlf, isSuffixOf?_eq_none_iff.2 hlf]
      rfl
  · rintro rfl
    cases hcrlf : ['\r', '\n'].isSuffixOf? t with
    | some rest => exact Or.inl (isSuffixOf?_eq_some_iff.1 hcrlf)
    | none =>
      cases hlf : ['\n'].isSuffixOf? t with
      | some rest =>
        exact Or.inr (Or.inl ⟨isSuffixOf?_eq_some_iff.1 hlf, isSuffixOf?_eq_none_iff.1 hcrlf⟩)
      | none => exact Or.inr (Or.inr ⟨rfl, isSuffixOf?_eq_none_iff.1 hlf⟩)

/-! ## Text and code in turn -/

/-- What is written for the pieces of a text. The first of them is text, then code and text follow in
turn; code without a fence behind it is left as it is, with the fence before it. -/
inductive Alternate : List Text → Text → Prop
  /-- Text up to the end. -/
  | text (s : Text) : Alternate [s] s
  /-- Text and a fence without a partner. -/
  | unpaired (s code : Text) : Alternate [s, code] (s ++ mark ++ code)
  /-- Text, a pair of fences and what follows it. -/
  | block {s code body inner out : Text} {ps : List Text} : DropsFirst code body →
    DropsLast body inner → Alternate ps out →
    Alternate (s :: code :: ps)
      (s ++ "<pre><code>".toList ++ Entity.encode inner ++ "</code></pre>".toList ++ out)

theorem block_eq {code body inner : Text} (hfirst : DropsFirst code body)
    (hlast : DropsLast body inner) :
    block code = "<pre><code>".toList ++ Entity.encode inner ++ "</code></pre>".toList := by
  rw [block, dropsFirst_iff.1 hfirst, dropsLast_iff.1 hlast]
  simp [element, openTag, closeTag]

/-- Pieces are written in one way at most. -/
theorem Alternate.unique {ps : List Text} {out out' : Text} (h : Alternate ps out)
    (h' : Alternate ps out') : out = out' := by
  induction h generalizing out' with
  | text s => cases h'; rfl
  | unpaired s code =>
    cases h' with
    | unpaired => rfl
    | block _ _ hnil => cases hnil
  | block hfirst hlast h ih =>
    cases h' with
    | unpaired => cases h
    | block hfirst' hlast' h' =>
      obtain rfl := (dropsFirst_iff.1 hfirst).symm.trans (dropsFirst_iff.1 hfirst')
      obtain rfl := (dropsLast_iff.1 hlast).symm.trans (dropsLast_iff.1 hlast')
      rw [ih h']

/-! ## The walk -/

/-- Up to the first fence everything is copied. -/
theorem codeBlocks_of_isFirst {t before rest : Text} (h : IsFirst mark t before rest) :
    codeBlocks t = before ++ codeBlocks (mark ++ rest) := by
  induction before generalizing t with
  | nil => rw [h.1, List.nil_append, List.nil_append]
  | cons c before ih =>
    have ht : t = c :: (before ++ mark ++ rest) := h.1
    subst ht
    have hspan : pattern.spanAt? (c :: (before ++ mark ++ rest)) = none :=
      blockAt?_eq_none h.not_prefix
    rw [codeBlocks, Pattern.replace_cons hspan, List.cons_append]
    exact congrArg (c :: ·) (ih h.tail)

/-- A fence and the next one become a block. -/
theorem codeBlocks_pair {t code rest : Text} (h : IsFirst mark t code rest) :
    codeBlocks (mark ++ t) = block code ++ codeBlocks rest := by
  have hblock : pattern.spanAt? (mark ++ t) = some (block code, rest) := by
    change blockAt? (mark ++ t) = _
    rw [blockAt?, isPrefixOf?_append, Option.bind_some, cut?_eq_some_iff.2 h]
    rfl
  rw [codeBlocks, Pattern.replace_of_spanAt? hblock]
  rfl

/-- A fence without a partner is left alone, with everything behind it. -/
theorem codeBlocks_unpaired {t : Text} (h : ¬ mark <:+: t) : codeBlocks (mark ++ t) = mark ++ t := by
  refine codeBlocks_eq_self_of_blockAt? (List.prefix_append _ _) ?_
  rw [blockAt?, isPrefixOf?_append, Option.bind_some, cut?_eq_none_iff.2 h]
  rfl

/-- The walk writes the pieces in turn. A step takes the piece before a pair of fences and the piece
between them, and goes on with what is left behind the pair. -/
theorem alternate_codeBlocks : ∀ {t : Text} {ps : List Text}, Pieces mark t ps →
    Alternate ps (codeBlocks t)
  | t, _, .last h => by
    rw [codeBlocks_eq_self h]
    exact .text t
  | _, _, @Pieces.cut _ _ s code _ hfirst (.last h) => by
    rw [codeBlocks_of_isFirst hfirst, codeBlocks_unpaired h, ← List.append_assoc]
    exact .unpaired s code
  | _, _, @Pieces.cut _ _ s _ _ hfirst (@Pieces.cut _ _ code rest _ hsecond h) => by
    have hdrops : DropsFirst code (dropFirstBreak code) ∧
        DropsLast (dropFirstBreak code) (dropLastBreak (dropFirstBreak code)) :=
      ⟨dropsFirst_iff.2 rfl, dropsLast_iff.2 rfl⟩
    have ih : Alternate _ (codeBlocks rest) := alternate_codeBlocks h
    rw [codeBlocks_of_isFirst hfirst, codeBlocks_pair hsecond, block_eq hdrops.1 hdrops.2]
    simp only [← List.append_assoc]
    exact .block hdrops.1 hdrops.2 ih

/-- **Fences pair from left to right.** A text is cut at its fences in one way, each cut at the first
fence that is left. What the fence pass writes is the one text that the pieces alternate to: text is
left alone, what a pair of fences encloses becomes a block, encoded and without the line breaks beside
the fences, and the last fence of an odd number stays with all that is behind it. -/
theorem codeBlocks_alternate (t : Text) : ∃ ps, Pieces mark t ps ∧
    (∀ other, Pieces mark t other → other = ps) ∧ mark.intercalate ps = t ∧
    ∀ out, Alternate ps out ↔ codeBlocks t = out := by
  have hne : mark ≠ [] := by decide
  obtain ⟨ps, h⟩ := exists_pieces hne t
  refine ⟨ps, h, fun other hother => hother.unique h, h.intercalate_eq, fun out => ?_⟩
  constructor
  · exact fun hout => (alternate_codeBlocks h).unique hout
  · rintro rfl
    exact alternate_codeBlocks h

/-- Seven backticks are two fences and one backtick, and the fence behind it has no partner. -/
example : codeBlocks "```````a```\nb".toList = "<pre><code></code></pre>`a```\nb".toList := by
  decide +kernel

end Fence

end MarkdownPreview

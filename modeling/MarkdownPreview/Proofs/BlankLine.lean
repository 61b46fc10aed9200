import MarkdownPreview.Proofs.Count
import MarkdownPreview.Proofs.LineScan
/-!
# Blank lines

A blank line keeps what is above it apart from what is below it, through all nine passes. The
rewritings and the passes that change line by line treat every break so (`BreaksApart`); the passes
with a state from line to line may take one of the two breaks, but not the other
(`LineScan.separates`). Two things could reach over a blank line: a fence without a partner, and the
brackets of a link or an image, whose text and address may hold breaks. So `render_blank_line` asks
for an even number of fences and for no bracket above the line; below it, anything may stand.
-/

namespace MarkdownPreview

open Text

/-! ## Breaks that keep texts apart -/

/-- What is above a break, if it has a certain property, is changed apart from what is below. -/
def BreaksApart (f : Text → Text) (P : Text → Prop) : Prop :=
  ∀ a b, P a → f (a ++ '\n' :: b) = f a ++ '\n' :: f b

/-- One break or two. -/
def IsGap (s : Text) : Prop := s = ['\n'] ∨ s = ['\n', '\n']

theorem BreaksApart.gap {f : Text → Text} {P : Text → Prop} (h : BreaksApart f P)
    (hempty : P [] ∧ f [] = []) {a s : Text}
    (ha : P a) (hs : IsGap s) (b : Text) : f (a ++ s ++ b) = f a ++ s ++ f b := by
  have hbelow := h [] b hempty.1
  rw [hempty.2, List.nil_append, List.nil_append] at hbelow
  rcases hs with rfl | rfl
  · rw [List.append_assoc, List.singleton_append, h a b ha, List.append_assoc, List.singleton_append]
  · simp only [List.append_assoc, List.cons_append, List.nil_append]
    rw [h a _ ha, hbelow]

theorem isPrefixOf?_append_break {mark : Text} (h : '\n' ∉ mark) (t b : Text) :
    mark.isPrefixOf? (t ++ '\n' :: b) = (mark.isPrefixOf? t).map (· ++ '\n' :: b) := by
  induction mark generalizing t with
  | nil => simp
  | cons m mark ih =>
    rw [List.mem_cons, not_or] at h
    cases t with
    | nil => simp [isPrefixOf?_cons_cons, Ne.symm h.1]
    | cons c t =>
      simp only [List.cons_append, isPrefixOf?_cons_cons]
      split
      · exact ih h.2 t
      · rfl

theorem isPrefixOf_append_break {mark : Text} (h : '\n' ∉ mark) (t b : Text) :
    mark.isPrefixOf (t ++ '\n' :: b) = mark.isPrefixOf t := by
  induction mark generalizing t with
  | nil => simp
  | cons m mark ih =>
    rw [List.mem_cons, not_or] at h
    cases t with
    | nil => simp [List.isPrefixOf, Ne.symm h.1]
    | cons c t => simp only [List.cons_append, List.isPrefixOf, ih h.2]

/-! ## Fenced code -/

namespace Fence

/-- The number of fences in a text, counted from left to right without overlap. -/
def fences : Text → Nat
  | '`' :: '`' :: '`' :: t => fences t + 1
  | _ :: t => fences t
  | [] => 0

theorem fences_of_isPrefixOf? {t inner : Text} (h : mark.isPrefixOf? t = some inner) :
    fences t = fences inner + 1 := by
  rw [eq_append_of_isPrefixOf? h]
  rfl

theorem fences_cons {c : Char} {t : Text} (h : mark.isPrefixOf? (c :: t) = none) :
    fences (c :: t) = fences t := by
  rw [fences]
  rintro t' rfl rfl
  exact absurd h (by simp [mark, isPrefixOf?_cons_cons])

/-- The text after the first fence has one fence less. -/
theorem fences_of_cut? {t code rest : Text} (h : cut? mark t = some (code, rest)) :
    fences t = fences rest + 1 := by
  induction t generalizing code with
  | nil => simp [cut?, mark] at h
  | cons c t ih =>
    simp only [cut?] at h
    split at h
    · next r hr =>
      simp only [Option.some.injEq, Prod.mk.injEq] at h
      rw [fences_of_isPrefixOf? hr, h.2]
    · next hnone =>
      obtain ⟨⟨b, r⟩, hc, he⟩ := Option.map_eq_some_iff.1 h
      simp only [Prod.mk.injEq] at he
      obtain ⟨-, rfl⟩ := he
      rw [fences_cons hnone, ih hc]

theorem fences_of_cut?_eq_none {t : Text} (h : cut? mark t = none) : fences t = 0 := by
  induction t with
  | nil => rfl
  | cons c t ih =>
    simp only [cut?] at h
    split at h
    · simp at h
    · next hnone => rw [fences_cons hnone, ih (Option.map_eq_none_iff.1 h)]

theorem cut?_append_break {t code rest : Text} (h : cut? mark t = some (code, rest)) (b : Text) :
    cut? mark (t ++ '\n' :: b) = some (code, rest ++ '\n' :: b) := by
  induction t generalizing code with
  | nil => simp [cut?, mark] at h
  | cons c t ih =>
    have hopen : mark.isPrefixOf? (c :: t ++ '\n' :: b) = _ :=
      isPrefixOf?_append_break (by decide) (c :: t) b
    simp only [cut?] at h
    rw [List.cons_append, cut?, ← List.cons_append, hopen]
    split at h
    · next r hr =>
      simp only [Option.some.injEq, Prod.mk.injEq] at h
      simp [hr, h.1, h.2]
    · next hnone =>
      obtain ⟨⟨b', r⟩, hc, he⟩ := Option.map_eq_some_iff.1 h
      simp only [Prod.mk.injEq] at he
      obtain ⟨rfl, rfl⟩ := he
      simp [hnone, ih hc]

theorem blockAt?_append_break {t : Text} (ht : fences t % 2 = 0) (b : Text) :
    blockAt? (t ++ '\n' :: b) = (blockAt? t).map fun (out, rest) => (out, rest ++ '\n' :: b) := by
  have hopen : mark.isPrefixOf? (t ++ '\n' :: b) = _ := isPrefixOf?_append_break (by decide) t b
  unfold blockAt?
  rw [hopen]
  cases hi : mark.isPrefixOf? t with
  | none => rfl
  | some inner =>
    have hfences := fences_of_isPrefixOf? hi
    cases hc : cut? mark inner with
    | none =>
      have hnone := fences_of_cut?_eq_none hc
      omega
    | some cut =>
      obtain ⟨code, rest⟩ := cut
      simp [hc, cut?_append_break hc]

/-- Where every fence has a partner, code blocks do not reach over a break. -/
theorem breaksApart_codeBlocks : BreaksApart codeBlocks fun t => fences t % 2 = 0 := by
  have hrest :
      ∀ t out rest, fences t % 2 = 0 → blockAt? t = some (out, rest) → fences rest % 2 = 0 := by
    intro t out rest ht h
    obtain ⟨inner, hi, h⟩ := Option.bind_eq_some_iff.1 h
    obtain ⟨⟨code, r⟩, hc, he⟩ := Option.map_eq_some_iff.1 h
    simp only [Prod.mk.injEq] at he
    obtain ⟨-, rfl⟩ := he
    have hfirst := fences_of_isPrefixOf? hi
    have hsecond := fences_of_cut? hc
    omega
  have htail : ∀ c t, fences (c :: t) % 2 = 0 → blockAt? (c :: t) = none → fences t % 2 = 0 := by
    intro c t ht h
    cases hi : mark.isPrefixOf? (c :: t) with
    | none => rwa [fences_cons hi] at ht
    | some inner =>
      have hfences := fences_of_isPrefixOf? hi
      rw [blockAt?, hi, Option.bind_some, Option.map_eq_none_iff] at h
      have hnone := fences_of_cut?_eq_none h
      omega
  exact Pattern.replace_append_break (P := fun t => fences t % 2 = 0)
    (fun t b ht => blockAt?_append_break ht b) hrest htail

end Fence

/-! ## Delimited spans -/

namespace Delimited

theorem closing?_append_break {mark : Text} (hne : mark ≠ []) (hmark : '\n' ∉ mark) (t b : Text) :
    closing? mark (t ++ '\n' :: b) =
      (closing? mark t).map fun (body, rest) => (body, rest ++ '\n' :: b) := by
  induction t with
  | nil =>
    have hopen := isPrefixOf?_append_break hmark [] b
    have hnone : mark.isPrefixOf? [] = none := by
      cases mark with
      | nil => exact absurd rfl hne
      | cons m mark => rfl
    rw [hnone, List.nil_append, Option.map_none] at hopen
    have hbreak : closing? mark ('\n' :: b) = none := by simp [closing?, hopen]
    rw [List.nil_append, hbreak]
    rfl
  | cons c t ih =>
    have hopen := isPrefixOf?_append_break hmark (c :: t) b
    rw [List.cons_append, closing?, ← List.cons_append, hopen, closing?]
    cases mark.isPrefixOf? (c :: t) with
    | some rest => rfl
    | none =>
      by_cases hc : c = '\n'
      · simp [hc]
      · simp only [Option.map_none, hc, if_false, ih]
        cases closing? mark t <;> rfl

theorem body?_append_break {mark : Text} (hne : mark ≠ []) (hmark : '\n' ∉ mark) (t b : Text) :
    body? mark (t ++ '\n' :: b) =
      (body? mark t).map fun (body, rest) => (body, rest ++ '\n' :: b) := by
  cases t with
  | nil => rfl
  | cons c t =>
    have hclose := closing?_append_break hne hmark t b
    rw [List.cons_append, body?, body?, hclose]
    by_cases hc : c = '\n'
    · simp [hc]
    · simp only [hc, if_false]
      cases closing? mark t <;> rfl

theorem bodyAt?_append_break (s : Delimited) {mark : Text} (hne : mark ≠ []) (hmark : '\n' ∉ mark)
    (t b : Text) :
    s.bodyAt? mark (t ++ '\n' :: b) =
      (s.bodyAt? mark t).map fun (body, rest) => (body, rest ++ '\n' :: b) := by
  have hopen := isPrefixOf?_append_break hmark t b
  unfold bodyAt?
  rw [hopen]
  cases mark.isPrefixOf? t with
  | none => rfl
  | some inner =>
    have hbody := body?_append_break hne hmark inner b
    simp only [Option.map_some, Option.bind_some, isPrefixOf_append_break hmark, hbody]
    split <;> rfl

theorem spanAt?_append_break {s : Delimited} (hs : ∀ mark ∈ s.marks, mark ≠ [] ∧ '\n' ∉ mark)
    (t b : Text) :
    s.spanAt? (t ++ '\n' :: b) = (s.spanAt? t).map fun (out, rest) => (out, rest ++ '\n' :: b) := by
  unfold spanAt?
  rw [List.map_findSome?]
  revert hs
  induction s.marks with
  | nil => intro _; rfl
  | cons mark marks ih =>
    intro hs
    obtain ⟨hne, hmark⟩ := hs mark List.mem_cons_self
    have ih := ih fun mark' h => hs mark' (List.mem_cons_of_mem _ h)
    rw [List.findSome?_cons, List.findSome?_cons, ih, s.bodyAt?_append_break hne hmark]
    simp only [Function.comp_apply]
    cases s.bodyAt? mark t <;> rfl

/-- Spans stay on their line. -/
theorem breaksApart_format {s : Delimited} (hs : ∀ mark ∈ s.marks, mark ≠ [] ∧ '\n' ∉ mark) :
    BreaksApart s.format fun _ => True :=
  Pattern.replace_append_break (P := fun _ => True) (fun t b _ => spanAt?_append_break hs t b)
    (fun _ _ _ _ _ => trivial) (fun _ _ _ _ => trivial)

theorem inlineFormats_nil : inlineFormats [] = [] := by
  simp only [inlineFormats, format, Pattern.replace_nil]

theorem breaksApart_inlineFormats : BreaksApart inlineFormats fun _ => True := by
  intro a b _
  have hstrong := breaksApart_format (s := strong) (by decide) a b trivial
  have hem := breaksApart_format (s := emphasis) (by decide) (strong.format a)
    (strong.format b) trivial
  have hcode := breaksApart_format (s := code) (by decide) (emphasis.format (strong.format a))
    (emphasis.format (strong.format b)) trivial
  unfold inlineFormats
  rw [hstrong, hem, hcode]

end Delimited

/-! ## References -/

/-- Where an opening with a bracket in it is needed, there is no span without brackets, and none
that starts above a break without a bracket above it. -/
theorem breaksApart_of_bracket {p : Pattern} {mark : Text} (hbreak : '\n' ∉ mark)
    (hbracket : '[' ∈ mark) (hp : ∀ t, mark.isPrefixOf? t = none → p.spanAt? t = none) :
    BreaksApart p.replace fun t => '[' ∉ t := by
  have hmark : ∀ t, '[' ∉ t → mark.isPrefixOf? t = none := fun t ht =>
    isPrefixOf?_eq_none_iff.2 fun hstart => ht (hstart.subset hbracket)
  refine Pattern.replace_append_break (P := fun t => '[' ∉ t) (fun t b ht => ?_)
    (fun t out rest ht h => ?_)
    (fun c t ht _ => ?_)
  · have hopen := isPrefixOf?_append_break hbreak t b
    rw [hmark t ht, Option.map_none] at hopen
    rw [hp _ hopen, hp _ (hmark t ht)]
    rfl
  · rw [hp _ (hmark t ht)] at h
    simp at h
  · exact fun hm => ht (List.mem_cons_of_mem _ hm)

theorem Image.breaksApart_images : BreaksApart images fun t => '[' ∉ t := by
  refine breaksApart_of_bracket (by decide : '\n' ∉ ['!', '[']) (by decide) fun t ht => ?_
  simp [pattern, ofText?, ht]

theorem Image.images_eq_self_of_not_infix {t : Text} (ht : ¬ ['!', '['] <:+: t) : images t = t := by
  apply Pattern.replace_eq_self_of_found_eq_nil
  apply Pattern.found_eq_nil
  intro u hu
  cases hs : ofText? u with
  | none => simp [pattern, hs]
  | some span =>
    obtain ⟨e, -, hshape⟩ := ofText?_eq_some hs
    have hopen : ['!', '['] <+: u := ⟨_, hshape.symm⟩
    exact absurd (hopen.isInfix.trans hu.isInfix) ht

theorem Image.images_eq_self {t : Text} (ht : '[' ∉ t) : images t = t :=
  images_eq_self_of_not_infix fun h => ht (h.subset (by decide))

theorem Link.breaksApart_links : BreaksApart links fun t => '[' ∉ t := by
  refine breaksApart_of_bracket (by decide : '\n' ∉ ['[']) (by decide) fun t ht => ?_
  simp [pattern, ofText?, ht]

/-! ## Brackets -/

theorem countable_bracket : Countable ['['] where
  before := by decide
  after := by decide
  kept := by decide
  asterisk := by decide

theorem bracket_not_mem_encode {t : Text} (ht : '[' ∉ t) : '[' ∉ Entity.encode t :=
  Entity.not_mem_encode (by intro e; cases e <;> decide) ht

theorem Fence.isSuffix_dropFirstBreak (t : Text) : dropFirstBreak t <:+ t := by
  have hrest : ∀ {mark rest : Text}, mark.isPrefixOf? t = some rest → rest <:+ t :=
    fun hp => ⟨_, (eq_append_of_isPrefixOf? hp).symm⟩
  unfold dropFirstBreak
  cases hcrlf : ['\r', '\n'].isPrefixOf? t with
  | some rest => exact hrest hcrlf
  | none =>
    cases hlf : ['\n'].isPrefixOf? t with
    | some rest => exact hrest hlf
    | none => exact List.suffix_refl t

theorem Fence.isPrefix_dropLastBreak (t : Text) : dropLastBreak t <+: t := by
  have hrest : ∀ {mark rest : Text}, mark.isSuffixOf? t = some rest → rest <+: t :=
    fun hs => ⟨_, (isSuffixOf?_eq_some_iff.1 hs).symm⟩
  unfold dropLastBreak
  cases hcrlf : ['\r', '\n'].isSuffixOf? t with
  | some rest => exact hrest hcrlf
  | none =>
    cases hlf : ['\n'].isSuffixOf? t with
    | some rest => exact hrest hlf
    | none => exact List.prefix_refl t

theorem Fence.mem_of_mem_dropFirstBreak {a : Char} {t : Text} (h : a ∈ dropFirstBreak t) : a ∈ t :=
  (isSuffix_dropFirstBreak t).subset h

theorem Fence.mem_of_mem_dropLastBreak {a : Char} {t : Text} (h : a ∈ dropLastBreak t) : a ∈ t :=
  (isPrefix_dropLastBreak t).subset h

/-- Code blocks bring in no character that is neither in entities nor in their tags. -/
theorem Fence.not_mem_codeBlocks {a : Char} (hencode : ∀ t, a ∉ t → a ∉ Entity.encode t)
    (htags : ∀ name ∈ ["pre".toList, "code".toList], a ∉ openTag name ∧ a ∉ closeTag name) {t : Text}
    (ht : a ∉ t) : a ∉ codeBlocks t := by
  simp only [List.forall_mem_cons] at htags
  refine Pattern.not_mem_replace (fun t out rest hs ht => ?_) t ht
  obtain ⟨code, rfl, rfl⟩ := blockAt?_eq_some hs
  simp only [List.mem_append, not_or] at ht
  have hcode := hencode _ fun h => ht.1.1.2 (mem_of_mem_dropFirstBreak (mem_of_mem_dropLastBreak h))
  exact ⟨not_mem_element htags.1.1 htags.1.2 (not_mem_element htags.2.1.1 htags.2.1.2 hcode), ht.2⟩

theorem Fence.bracket_not_mem_codeBlocks {t : Text} (ht : '[' ∉ t) : '[' ∉ codeBlocks t :=
  not_mem_codeBlocks (fun _ => bracket_not_mem_encode) (by decide) ht

theorem bracket_not_mem_blocks {t : Text} (ht : '[' ∉ t) : '[' ∉ blocks t := by
  rw [← singleton_infix_iff] at ht ⊢
  exact not_infix_blocks (h := countable_bracket) (by decide +kernel) ht

theorem Delimited.bracket_not_mem_inlineFormats {t : Text} (ht : '[' ∉ t) :
    '[' ∉ inlineFormats t := by
  have hstrong : '[' ∉ strong.format t :=
    not_mem_format (fun body hb => not_mem_element (by decide) (by decide) hb) ht
  have hem : '[' ∉ emphasis.format (strong.format t) :=
    not_mem_format (fun body hb => not_mem_element (by decide) (by decide) hb) hstrong
  exact not_mem_format
    (fun body hb => not_mem_element (by decide) (by decide) (bracket_not_mem_encode hb)) hem

/-! ## All passes -/

theorem Settled.isGap {t s : Text} (h : Settled t s) : IsGap s := by
  rcases h with rfl | ⟨rfl, -⟩
  · exact Or.inr rfl
  · exact Or.inl rfl

/-- The block passes leave a part of a blank line, which keeps apart what the line kept apart. -/
theorem blocks_blank_line (a : Text) :
    ∃ s, IsGap s ∧ ∀ b, blocks (a ++ ['\n', '\n'] ++ b) = blocks a ++ s ++ blocks b := by
  have hrules : BreaksApart Rule.horizontalRules fun _ => True :=
    fun a b _ => mapLines_append_break rfl a b
  have hheadings : BreaksApart Heading.headings fun _ => True :=
    fun a b _ => mapLines_append_break rfl a b
  obtain ⟨s1, hs1, htables⟩ :=
    Table.scan.separates (a := Rule.horizontalRules a) (s := ['\n', '\n']) (Or.inl rfl)
  obtain ⟨s2, hs2, hquotes⟩ := QuoteLine.scan.separates hs1
  obtain ⟨s3, hs3, hlists⟩ := Listing.scan.separates hs2
  refine ⟨s3, hs3.isGap, fun b => ?_⟩
  simp only [blocks, Pass.applyAll, List.foldl_cons, List.foldl_nil, Pass.apply, Table.tables_eq_run,
    QuoteLine.blockquotes_eq_run, Listing.lists_eq_run]
  rw [hrules.gap ⟨trivial, rfl⟩ trivial (Or.inr rfl), htables, hquotes, hlists,
    hheadings.gap ⟨trivial, rfl⟩ trivial hs3.isGap]

/-- **Blank lines separate.** If the fences of `a` pair up and it has no bracket, what a blank line
puts below it is rendered as if it stood alone, and so is `a`; what is left of the blank line
depends on `a` only. -/
theorem render_blank_line {a : Text} (hbracket : '[' ∉ a) (hfences : Fence.fences a % 2 = 0) :
    ∃ s, (s = ['\n'] ∨ s = ['\n', '\n']) ∧
      ∀ b, render (a ++ ['\n', '\n'] ++ b) = render a ++ s ++ render b := by
  have hcode := Fence.bracket_not_mem_codeBlocks hbracket
  have hblocks := bracket_not_mem_blocks hcode
  have himages : '[' ∉ Image.images (blocks (Fence.codeBlocks a)) := by
    rwa [Image.images_eq_self hblocks]
  have hformats := Delimited.bracket_not_mem_inlineFormats himages
  obtain ⟨s, hs, hblank⟩ := blocks_blank_line (Fence.codeBlocks a)
  refine ⟨s, hs, fun b => ?_⟩
  simp only [render_eq, beforeFormats]
  rw [Fence.breaksApart_codeBlocks.gap ⟨rfl, Pattern.replace_nil _⟩ hfences (Or.inr rfl), hblank,
    Image.breaksApart_images.gap ⟨by simp, Pattern.replace_nil _⟩ hblocks hs,
    Delimited.breaksApart_inlineFormats.gap ⟨trivial, Delimited.inlineFormats_nil⟩ trivial hs,
    Link.breaksApart_links.gap ⟨by simp, Pattern.replace_nil _⟩ hformats hs]

theorem render_blank_line_after_list :
    '[' ∉ "- *a\n> ```b```".toList ∧ Fence.fences "- *a\n> ```b```".toList % 2 = 0 ∧
    ∃ s, (s = ['\n'] ∨ s = ['\n', '\n']) ∧
      ∀ b, render ("- *a\n> ```b```".toList ++ ['\n', '\n'] ++ b) =
        render "- *a\n> ```b```".toList ++ s ++ render b := by
  have hbracket : '[' ∉ "- *a\n> ```b```".toList := by decide
  have hfences : Fence.fences "- *a\n> ```b```".toList % 2 = 0 := by decide
  exact ⟨hbracket, hfences, render_blank_line hbracket hfences⟩

end MarkdownPreview

import MarkdownPreview.Proofs.Count
/-!
# Inline spans and lines

The inline formats never look past a line break, but the lines they see are not those of the source:
the list, quote and table passes leave no break between the items they write, so delimiters of
several source lines can come to stand on one line, and then they pair (`emphasis_across_items`).
What decides is the text that the inline formats read. If no line of it has a delimiter twice,
nothing is formatted; if the source has none twice on a line and no fence, the converse holds too
(`no_inline_tags_iff`), because two equal delimiters side by side, which no style would take for a
span, cannot come about: joined lines have a tag between them.
-/

namespace MarkdownPreview

open Text

/-! ## Delimiters on a line -/

namespace Delimiter

theorem char_ne_break (m : Delimiter) : m.char ≠ '\n' := by cases m <;> decide

instance {P : Delimiter → Prop} [DecidablePred P] : Decidable (∀ m, P m) :=
  decidable_of_iff (P .asterisk ∧ P .underscore ∧ P .backtick)
    ⟨fun ⟨ha, hu, hb⟩ m => by cases m <;> assumption, fun h => ⟨h _, h _, h _⟩⟩

end Delimiter

/-- No line of the text has one of the delimiters twice. -/
def OnePerLine (t : Text) : Prop := ∀ l ∈ lines t, ∀ m : Delimiter, l.count m.char ≤ 1

instance (t : Text) : Decidable (OnePerLine t) :=
  inferInstanceAs (Decidable (∀ l ∈ lines t, ∀ m : Delimiter, l.count m.char ≤ 1))

theorem OnePerLine.count_le {t y : Text} (h : OnePerLine t) (hy : y <:+: t) (hbreak : '\n' ∉ y)
    (m : Delimiter) :
    y.count m.char ≤ 1 := by
  obtain ⟨l, hl, hyl⟩ := exists_mem_lines_of_isInfix hy hbreak
  have hcount := hyl.sublist.count_le m.char
  have hle := h l hl m
  omega

theorem OnePerLine.pair_not_isInfix {t : Text} (h : OnePerLine t) (m : Delimiter) :
    ¬ [m.char, m.char] <:+: t := by
  intro hpair
  have hbreak : '\n' ∉ [m.char, m.char] := by simp [m.char_ne_break.symm]
  have hcount := h.count_le hpair hbreak m
  simp at hcount

/-- Two equal characters, with what stands between them. -/
theorem exists_pair_of_two_le_count {a : Char} {l : Text} (h : 2 ≤ l.count a) :
    ∃ above body below, l = above ++ a :: (body ++ a :: below) ∧ a ∉ body := by
  have hmem : a ∈ l := List.count_pos_iff.1 (by omega)
  obtain ⟨above, rest, rfl, habove⟩ := List.eq_append_cons_of_mem hmem
  have hrest : 0 < rest.count a := by
    rw [List.count_append, List.count_eq_zero.2 habove, List.count_cons_self] at h
    omega
  obtain ⟨body, below, rfl, hbody⟩ := List.eq_append_cons_of_mem (List.count_pos_iff.1 hrest)
  exact ⟨above, body, below, rfl, hbody⟩

/-! ## Spans -/

namespace Delimited

/-- A span needs its delimiter twice on a line. -/
theorem found_eq_nil_of_onePerLine {s : Delimited} (hs : s.UsesDelimiters) {t : Text}
    (ht : OnePerLine t) :
    s.pattern.found t = [] := by
  apply found_eq_nil
  intro mark hmark body hbody hspan
  obtain ⟨m, n, rfl⟩ := hs mark hmark
  have hbreak : '\n' ∉ List.replicate (n + 1) m.char ++ body ++ List.replicate (n + 1) m.char := by
    simp [List.mem_replicate, m.char_ne_break.symm, hbody]
  have hcount := ht.count_le hspan hbreak m
  rw [List.count_append, List.count_append, List.count_replicate_self] at hcount
  omega

theorem closing?_append {a : Char} {body : Text} (ha : a ∉ body) (hbreak : '\n' ∉ body)
    (rest : Text) :
    closing? [a] (body ++ a :: rest) = some (body, rest) := by
  induction body with
  | nil =>
    have hmark := isPrefixOf?_append [a] rest
    rw [List.singleton_append] at hmark
    rw [List.nil_append, closing?, hmark]
  | cons c body ih =>
    rw [List.mem_cons, not_or] at ha hbreak
    have hmark : [a].isPrefixOf? (c :: (body ++ a :: rest)) = none := by
      simp [isPrefixOf?_cons_cons, ha.1]
    rw [List.cons_append, closing?, hmark]
    simp [Ne.symm hbreak.1, ih ha.2 hbreak.2]

/-- A delimiter, something on the same line without it, and the delimiter again are a span. -/
theorem spanAt?_ne_none {s : Delimited} {a : Char} (hmark : [a] ∈ s.marks) {body : Text}
    (hne : body ≠ []) (ha : a ∉ body) (hbreak : '\n' ∉ body) (rest : Text) :
    s.spanAt? (a :: (body ++ a :: rest)) ≠ none := by
  obtain ⟨c, body, rfl⟩ := List.exists_cons_of_ne_nil hne
  rw [List.mem_cons, not_or] at ha hbreak
  have hbody : s.bodyAt? [a] (a :: (c :: body ++ a :: rest)) = some (c :: body, rest) := by
    have hopen := isPrefixOf?_append [a] (c :: body ++ a :: rest)
    rw [List.singleton_append] at hopen
    have hstart : List.isPrefixOf [a] (c :: body ++ a :: rest) = false := by
      simp [List.isPrefixOf, ha.1]
    rw [bodyAt?, hopen, Option.bind_some, hstart]
    simp [body?, Ne.symm hbreak.1, closing?_append ha.2 hbreak.2]
  intro hnone
  have hstyle := List.findSome?_eq_none_iff.1 hnone [a] hmark
  simp only [hbody, Option.map_some, reduceCtorEq] at hstyle

end Delimited

/-- Where the styles of single delimiters find no span and no two delimiters stand side by side, no
line has one twice. -/
theorem onePerLine_of_found_eq_nil {t : Text} (hem : Delimited.emphasis.pattern.found t = [])
    (hcode : Delimited.code.pattern.found t = [])
    (hpair : ∀ m : Delimiter, ¬ [m.char, m.char] <:+: t) :
    OnePerLine t := by
  intro l hl m
  by_cases hcount : l.count m.char ≤ 1
  · exact hcount
  obtain ⟨above, body, below, rfl, hbody⟩ := exists_pair_of_two_le_count
    (by omega : 2 ≤ l.count m.char)
  have hbreak : '\n' ∉ body := by
    have hline := break_not_mem_of_mem_lines hl
    simp only [List.mem_append, List.mem_cons, not_or] at hline
    exact hline.2.2.1
  obtain ⟨before, after, rfl⟩ := isInfix_of_mem_lines hl
  have hne : body ≠ [] := by
    rintro rfl
    exact hpair m ⟨before ++ above, below ++ after, by simp⟩
  -- from the first of the two on, the text starts with a span
  have hsuffix : m.char :: (body ++ m.char :: (below ++ after)) <:+
      before ++ (above ++ m.char :: (body ++ m.char :: below)) ++ after := ⟨before ++ above, by simp⟩
  have hstyle : [m.char] ∈ Delimited.emphasis.marks ∨ [m.char] ∈ Delimited.code.marks := by
    cases m <;> decide
  rcases hstyle with hmark | hmark
  · exact absurd (Pattern.spanAt?_eq_none_of_suffix hem hsuffix)
      (Delimited.spanAt?_ne_none hmark hne hbody hbreak _)
  · exact absurd (Pattern.spanAt?_eq_none_of_suffix hcode hsuffix)
      (Delimited.spanAt?_ne_none hmark hne hbody hbreak _)

/-! ## Two delimiters side by side -/

namespace Delimiter

theorem countable_pair (m : Delimiter) : Countable [m.char, m.char] where
  before := by cases m <;> decide
  after := by cases m <;> decide
  kept := by cases m <;> decide
  asterisk := by simp

/-- No tag has two delimiters side by side. -/
theorem pair_ignored (m : Delimiter) :
    (Weight.count _ m.countable_pair).IgnoresBlocks ∧
      (Weight.count _ m.countable_pair).IgnoresReferences := by
  cases m <;> decide +kernel

/-- The passes before the inline formats put no two delimiters side by side. -/
theorem pair_not_isInfix_beforeFormats (m : Delimiter) {t : Text}
    (ht : ¬ [m.char, m.char] <:+: Fence.codeBlocks t) :
    ¬ [m.char, m.char] <:+: beforeFormats t :=
  not_infix_images m.pair_ignored.2 (not_infix_blocks m.pair_ignored.1 ht)

end Delimiter

/-! ## Inline tags -/

/-- The elements that the inline formats write. -/
inductive InlineElement
  | em
  | strong
  | code
  deriving DecidableEq, Repr

namespace InlineElement

/-- The name in the tags of the element. -/
def name : InlineElement → Text
  | .em => "em".toList
  | .strong => "strong".toList
  | .code => "code".toList

/-- The style that writes the element. -/
def style : InlineElement → Delimited
  | .em => .emphasis
  | .strong => .strong
  | .code => .code

instance {P : InlineElement → Prop} [DecidablePred P] : Decidable (∀ e, P e) :=
  decidable_of_iff (P .em ∧ P .strong ∧ P .code)
    ⟨fun ⟨he, hs, hc⟩ e => by cases e <;> assumption, fun h => ⟨h _, h _, h _⟩⟩

theorem isName (e : InlineElement) : IsName e.name := by
  cases e <;> decide

theorem ignored (e : InlineElement) : (Weight.count _ (countable_openTag e.isName)).IgnoresBlocks ∧
    (Weight.count _ (countable_openTag e.isName)).IgnoresReferences := by
  cases e <;> decide +kernel

theorem not_isInfix_beforeFormats (e : InlineElement) {t : Text}
    (ht : ¬ openTag e.name <:+: Fence.codeBlocks t) :
    ¬ openTag e.name <:+: beforeFormats t :=
  not_infix_images e.ignored.2 (not_infix_blocks e.ignored.1 ht)

/-- Links neither bring in nor take away inline tags. -/
theorem isInfix_links_iff (e : InlineElement) (t : Text) :
    openTag e.name <:+: Link.links t ↔ openTag e.name <:+: t := by
  have hof := Weight.of_links e.ignored.2 t
  have hiff : ∀ u : Text, openTag e.name <:+: u ↔ occurrences (openTag e.name) u ≠ 0 := by
    intro u
    rw [Ne, occurrences_eq_zero_iff (by simp [openTag])]
    exact Decidable.not_not.symm
  rw [hiff, hiff]
  simp only [Weight.count_of] at hof
  omega

/-- Where a style finds a span it leaves its tag. -/
theorem isInfix_format (e : InlineElement) {t : Text} (h : e.style.pattern.found t ≠ []) :
    openTag e.name <:+: e.style.format t := by
  obtain ⟨u, out, rest, hs, hout⟩ := Pattern.exists_infix_replace h
  obtain ⟨-, -, body, -, rfl, -⟩ := Delimited.spanAt?_eq_some hs
  have hwrite : ∃ b, e.style.write body = element e.name b := by
    cases e
    · exact ⟨body, rfl⟩
    · exact ⟨body, rfl⟩
    · exact ⟨Entity.encode body, rfl⟩
  obtain ⟨b, hb⟩ := hwrite
  rw [hb, element, List.append_assoc] at hout
  exact (List.prefix_append _ _).isInfix.trans hout

end InlineElement

/-- The formatted text has none of the tags only if no style found a span. A later style might wrap
or encode what an earlier one wrote, so the styles are taken from the last to the first. -/
theorem found_eq_nil_of_no_tags {u : Text}
    (h : ∀ e : InlineElement, ¬ openTag e.name <:+: Delimited.inlineFormats u) :
    Delimited.emphasis.pattern.found u = [] ∧ Delimited.code.pattern.found u = [] := by
  unfold Delimited.inlineFormats at h
  by_cases hcode : Delimited.code.pattern.found
    (Delimited.emphasis.format (Delimited.strong.format u)) = []
  · have hcode' : Delimited.code.format _ = _ := Pattern.replace_eq_self_of_found_eq_nil hcode
    rw [hcode'] at h
    by_cases hem : Delimited.emphasis.pattern.found (Delimited.strong.format u) = []
    · have hem' : Delimited.emphasis.format _ = _ := Pattern.replace_eq_self_of_found_eq_nil hem
      rw [hem'] at h hcode
      by_cases hstrong : Delimited.strong.pattern.found u = []
      · have hstrong' : Delimited.strong.format u = u :=
          Pattern.replace_eq_self_of_found_eq_nil hstrong
        rw [hstrong'] at hem hcode
        exact ⟨hem, hcode⟩
      · exact absurd (InlineElement.isInfix_format .strong hstrong) (h .strong)
    · exact absurd (InlineElement.isInfix_format .em hem) (h .em)
  · exact absurd (InlineElement.isInfix_format .code hcode) (h .code)

/-- Formatting leaves a text alone if no line of it has a delimiter twice. -/
theorem inlineFormats_eq_self {u : Text} (h : OnePerLine u) : Delimited.inlineFormats u = u := by
  have hformat : ∀ s : Delimited, s.UsesDelimiters → s.format u = u := fun s hs =>
    Pattern.replace_eq_self_of_found_eq_nil (Delimited.found_eq_nil_of_onePerLine hs h)
  rw [Delimited.inlineFormats, hformat _ Delimited.usesDelimiters_strong,
    hformat _ Delimited.usesDelimiters_emphasis,
    hformat _ Delimited.usesDelimiters_code]

/-- **When spans stay within a line of the source.** A text without `<` and without a fence, no line
of which has a delimiter twice, is rendered without inline tags exactly if the text that the inline
formats read has no delimiter twice on a line either. -/
theorem no_inline_tags_iff {t : Text} (ht : '<' ∉ t) (hfence : ¬ Fence.mark <:+: t)
    (hone : OnePerLine t) :
    (∀ e : InlineElement, ¬ openTag e.name <:+: render t) ↔ OnePerLine (beforeFormats t) := by
  have hblocks := Fence.codeBlocks_eq_self hfence
  rw [render_eq]
  constructor
  · intro h
    have htags :
        ∀ e : InlineElement, ¬ openTag e.name <:+: Delimited.inlineFormats (beforeFormats t) := by
      intro e
      rw [← e.isInfix_links_iff]
      exact h e
    obtain ⟨hem, hcode⟩ := found_eq_nil_of_no_tags htags
    refine onePerLine_of_found_eq_nil hem hcode fun m => m.pair_not_isInfix_beforeFormats ?_
    rw [hblocks]
    exact hone.pair_not_isInfix m
  · intro h e
    rw [e.isInfix_links_iff, inlineFormats_eq_self h]
    apply e.not_isInfix_beforeFormats
    rw [hblocks]
    intro htag
    exact ht (htag.subset List.mem_cons_self)

theorem no_inline_tags_paragraph :
    '<' ∉ "a *b\n# c* `d".toList ∧ ¬ Fence.mark <:+: "a *b\n# c* `d".toList ∧
    OnePerLine "a *b\n# c* `d".toList ∧
    ∀ e : InlineElement, ¬ openTag e.name <:+: render "a *b\n# c* `d".toList := by
  have ht : '<' ∉ "a *b\n# c* `d".toList := by decide +kernel
  have hfence : ¬ Fence.mark <:+: "a *b\n# c* `d".toList := by decide +kernel
  have hone : OnePerLine "a *b\n# c* `d".toList := by decide +kernel
  exact ⟨ht, hfence, hone, (no_inline_tags_iff ht hfence hone).2 (by decide +kernel)⟩

/-- The items of a list share a line when the inline formats read them. -/
theorem emphasis_across_items : '<' ∉ "- *a\n- b*".toList ∧ ¬ Fence.mark <:+: "- *a\n- b*".toList ∧
    OnePerLine "- *a\n- b*".toList ∧ "<em>".toList <:+: render "- *a\n- b*".toList := by
  decide +kernel

end MarkdownPreview

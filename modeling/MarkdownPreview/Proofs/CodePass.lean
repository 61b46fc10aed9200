import MarkdownPreview.Proofs.Balance
/-!
# Around the code pass

Behind the fences only code spans are encoded. A word is carried (`Carried`) if it cannot stand
across a cut of the other passes and none of them writes or drops it: it occurs as often where the
code pass begins as right after the fences (`occurrences_beforeCode`), and as often in the HTML as
where the code pass ends (`occurrences_render`). Whatever becomes of such a word, the code pass
does it.
-/

namespace MarkdownPreview

open Text

/-- The text that the code pass reads. -/
def beforeCode (t : Text) : Text :=
  Delimited.emphasis.format (Delimited.strong.format (beforeFormats t))

theorem render_eq_links (t : Text) :
    render t = Link.links (Delimited.code.format (beforeCode t)) := render_eq t

/-- A word that the passes other than the fences and code spans leave alone. -/
structure Carried (word : Text) : Prop where
  countable : Countable word
  ignoresBlocks : (Weight.count word countable).IgnoresBlocks
  ignoresReferences : (Weight.count word countable).IgnoresReferences
  strong : (Weight.count word countable).Neutral "strong".toList
  em : (Weight.count word countable).Neutral "em".toList
  asterisk : '*' ∉ word
  underscore : '_' ∉ word

instance (word : Text) : Decidable (Carried word) :=
  decidable_of_iff (∃ h : Countable word, (Weight.count word h).IgnoresBlocks ∧
      (Weight.count word h).IgnoresReferences ∧ (Weight.count word h).Neutral "strong".toList ∧
      (Weight.count word h).Neutral "em".toList ∧ '*' ∉ word ∧ '_' ∉ word)
    ⟨fun ⟨h1, h2, h3, h4, h5, h6, h7⟩ => ⟨h1, h2, h3, h4, h5, h6, h7⟩,
      fun ⟨h1, h2, h3, h4, h5, h6, h7⟩ => ⟨h1, h2, h3, h4, h5, h6, h7⟩⟩

namespace Carried

variable {word : Text} (h : Carried word)
include h

/-- A carried word has a character that rules are not drawn with. -/
theorem occurrences_rule {l : Text} (hl : Rule.isRule l = true) : occurrences word l = 0 := by
  rw [occurrences_eq_zero_iff h.countable.ne_nil]
  intro hword
  obtain ⟨c, hc, hkept⟩ := List.any_eq_true.1 h.countable.kept
  have hmark := Rule.mem_marks_of_isRule hl (hword.subset hc)
  simp only [Rule.marks, List.mem_cons, List.not_mem_nil, or_false] at hmark
  rcases hmark with rfl | rfl | rfl
  · exact absurd hkept (by decide)
  · exact h.asterisk hc
  · exact h.underscore hc

theorem ignoresMarks {s : Delimited} (hs : s.marks.all (·.all ['*', '_'].contains) = true)
    (huses : s.UsesDelimiters) : ∀ mark ∈ s.marks, (Weight.count word h.countable).IgnoresMark mark := by
  intro mark hmark
  have hchars := List.all_eq_true.1 hs mark hmark
  obtain ⟨m, n, rfl⟩ := huses mark hmark
  refine Weight.count_ignoresMark h.countable ?_ n
  have hm : m.char = '*' ∨ m.char = '_' := by simpa using hchars
  rcases hm with hm | hm
  · rw [hm]
    exact h.asterisk
  · rw [hm]
    exact h.underscore

theorem occurrences_beforeCode (t : Text) :
    occurrences word (beforeCode t) = occurrences word (Fence.codeBlocks t) := by
  have hblocks := Weight.of_blocks h.ignoresBlocks (t := Fence.codeBlocks t) fun l _ hl => by
    rw [Weight.count_of, h.occurrences_rule hl, Int.natCast_zero]
  have himages := Weight.of_images h.ignoresReferences (blocks (Fence.codeBlocks t))
  have hstrong := Weight.of_format (fun _ => rfl)
    (h.ignoresMarks (by decide) Delimited.usesDelimiters_strong) h.strong (beforeFormats t)
  have hem := Weight.of_format (fun _ => rfl)
    (h.ignoresMarks (by decide) Delimited.usesDelimiters_emphasis) h.em
    (Delimited.strong.format (beforeFormats t))
  simp only [Weight.count_of] at hblocks himages hstrong hem
  unfold beforeCode
  unfold beforeFormats at hem hstrong ⊢
  omega

theorem occurrences_render (t : Text) :
    occurrences word (render t) = occurrences word (Delimited.code.format (beforeCode t)) := by
  have hlinks := Weight.of_links h.ignoresReferences (Delimited.code.format (beforeCode t))
  simp only [Weight.count_of] at hlinks
  rw [render_eq_links]
  omega

end Carried

theorem Link.isInfix_html (l : Link) : l.text <:+: l.html ∧ l.url <:+: l.html := by
  unfold html
  constructor
  · exact ⟨_, _, rfl⟩
  · refine ⟨"<a href=\"".toList, "\" target=\"_blank\" rel=\"noopener noreferrer\">".toList ++
      (l.text ++ "</a>".toList), ?_⟩
    simp only [List.append_assoc]

/-- The links behind the code pass keep a part of the text that has no bracket. -/
theorem Link.isInfix_links {x t : Text} (hx : ∀ c ∈ ['[', ']', '(', ')'], c ∉ x) (h : x <:+: t) :
    x <:+: links t := by
  simp only [List.forall_mem_cons] at hx
  obtain ⟨hopen, hclose, hparen, hend, -⟩ := hx
  have hcopy : ∀ c ∈ x, ∀ t, pattern.spanAt? (c :: t) = none := by
    intro c hc t
    cases hl : ofText? (c :: t) with
    | none => simp [pattern, hl]
    | some link =>
      have hshape := (List.cons.inj (ofText?_eq_some hl)).1
      exact absurd (hshape ▸ hc) hopen
  induction t using Pattern.walk_induction (p := pattern) with
  | nil => rw [List.infix_nil.1 h]; exact List.nil_infix
  | span t out rest hs ih =>
    obtain ⟨⟨l, r⟩, hl, he⟩ := Option.map_eq_some_iff.1 hs
    simp only [Prod.mk.injEq] at he
    obtain ⟨rfl, rfl⟩ := he
    rw [links, Pattern.replace_of_spanAt? hs]
    have hhtml : x <:+: l.html → x <:+: l.html ++ pattern.replace r :=
      fun hi => hi.trans (List.prefix_append _ _).isInfix
    rw [ofText?_eq_some hl] at h
    -- without brackets the part stands in the text of the link, in its address, or behind it
    simp only [List.cons_append] at h
    rcases isInfix_or_of_append_cons (a := []) h hopen with h | h
    · rw [List.infix_nil.1 h]
      exact List.nil_infix
    rw [List.append_assoc] at h
    rcases isInfix_or_of_append_cons h hclose with h | h
    · exact hhtml (h.trans l.isInfix_html.1)
    rcases isInfix_or_of_append_cons (a := []) h hparen with h | h
    · rw [List.infix_nil.1 h]
      exact List.nil_infix
    rcases isInfix_or_of_append_cons h hend with h | h
    · exact hhtml (h.trans l.isInfix_html.2)
    · exact (ih h).trans (List.suffix_append _ _).isInfix
  | copy c t hs ih =>
    rcases List.infix_cons_iff.1 h with h | h
    · obtain ⟨u, hu⟩ := h
      rw [← hu, links, Pattern.replace_append hcopy]
      exact (List.prefix_append _ _).isInfix
    · rw [links, Pattern.replace_cons hs]
      exact (ih h).trans (List.suffix_cons _ _).isInfix

end MarkdownPreview

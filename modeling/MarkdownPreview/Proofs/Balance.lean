import MarkdownPreview.Proofs.Count
/-!
# Balance of the block elements

The difference between opening and closing tags of an element is a weight. The block passes close
what they open, so it is 0 after each of them, and the references and the inline formats around them
write no such tag. The one pass that can take tags away is the code pass: what it encodes has none
left. So the rendered text is balanced exactly if the code spans are (`balanced_iff`); a text
without backticks always is.

Code spans that enclose one tag of a pair exist, because the list, quote and table passes put items
of several lines on one line, and a backtick on one of them can pair with a backtick on another
(`code_span_breaks_balance`).
-/

namespace MarkdownPreview

open Text

/-- The elements that the block passes open and close. -/
inductive BlockElement
  | ul
  | ol
  | li
  | blockquote
  | table
  deriving DecidableEq, Repr

/-- The code spans of a text as they stand in it when the code pass reads them. -/
def codeSpans (t : Text) : List Text :=
  Delimited.code.pattern.found (Delimited.emphasis.format (Delimited.strong.format (beforeFormats t)))

namespace BlockElement

/-- The name in the tags of the element. -/
def name : BlockElement → Text
  | .ul => "ul".toList
  | .ol => "ol".toList
  | .li => "li".toList
  | .blockquote => "blockquote".toList
  | .table => "table".toList

theorem isName (e : BlockElement) : IsName e.name := by
  cases e <;> decide

/-- The opening tags of the element less its closing tags. -/
def balance (e : BlockElement) : Weight :=
  .sub (.count (openTag e.name) (countable_openTag e.isName))
    (.count (closeTag e.name) (countable_closeTag e.isName))

variable (e : BlockElement)

theorem balance_of (t : Text) :
    e.balance.of t = occurrences (openTag e.name) t - occurrences (closeTag e.name) t := rfl

/-! ## What the balance ignores -/

theorem balance_of_not_mem {t : Text} (ht : '<' ∉ t) : e.balance.of t = 0 := by
  have hopen : occurrences (openTag e.name) t = 0 := occurrences_eq_zero_of_not_mem ht
  have hclose : occurrences (closeTag e.name) t = 0 := occurrences_eq_zero_of_not_mem ht
  rw [balance_of, hopen, hclose]
  rfl

theorem balance_encode (t : Text) : e.balance.of (Entity.encode t) = 0 :=
  e.balance_of_not_mem (Entity.less_not_mem_encode t)

/-- The passes close the block elements that they open. -/
theorem balance_ignoresBlocks : e.balance.IgnoresBlocks := by
  cases e <;> decide +kernel

theorem balance_ignoresReferences : e.balance.IgnoresReferences := by
  cases e <;> decide +kernel

/-- Inline tags are not tags of blocks. -/
theorem balance_neutral : e.balance.Neutral "strong".toList ∧ e.balance.Neutral "em".toList ∧
    e.balance.Neutral "code".toList ∧ e.balance.Neutral "pre".toList := by
  cases e <;> decide +kernel

theorem balance_ignoresMark (m : Delimiter) (n : Nat) :
    e.balance.IgnoresMark (List.replicate (n + 1) m.char) := by
  have hopen : m.char ∉ openTag e.name := by
    cases m <;> cases e <;> decide
  have hclose : m.char ∉ closeTag e.name := by
    cases m <;> cases e <;> decide
  exact Weight.sub_ignoresMark (Weight.count_ignoresMark _ hopen n)
    (Weight.count_ignoresMark _ hclose n)

theorem balance_ignoresMarks {s : Delimited} (hs : s.UsesDelimiters) :
    ∀ mark ∈ s.marks, e.balance.IgnoresMark mark := by
  intro mark hmark
  obtain ⟨m, n, rfl⟩ := hs mark hmark
  exact e.balance_ignoresMark m n

/-! ## The passes -/

theorem balance_codeBlocks {t : Text} (ht : '<' ∉ t) : e.balance.of (Fence.codeBlocks t) = 0 := by
  have hof := Weight.of_codeBlocks (e.balance_ignoresMark .backtick 2) e.balance_neutral.2.2.2
    e.balance_neutral.2.2.1 e.balance_encode t
  have hread :
      ∀ t out rest, Fence.pattern.spanAt? t = some (out, rest) → ∃ read, t = read ++ rest := by
    intro t out rest hs
    obtain ⟨code, hcode, -⟩ := Fence.blockAt?_eq_some hs
    exact ⟨_, hcode⟩
  have hfound :
      (Fence.pattern.found t).map e.balance.of = (Fence.pattern.found t).map fun _ => 0 := by
    apply List.map_congr_left
    intro u hu
    exact e.balance_of_not_mem fun hless => ht (Pattern.mem_of_mem_found hread hu hless)
  rw [e.balance_of_not_mem ht, hfound, List.map_const', List.sum_replicate_int] at hof
  omega

theorem balance_beforeFormats {t : Text} (ht : '<' ∉ t) : e.balance.of (beforeFormats t) = 0 := by
  have hrules :
      ∀ l ∈ Line.ofText (Fence.codeBlocks t), Rule.isRule l.body = true →
        e.balance.of l.body = 0 := by
    intro l _ hl
    apply e.balance_of_not_mem
    intro hless
    exact absurd (Rule.mem_marks_of_isRule hl hless) (by decide)
  unfold beforeFormats
  rw [Weight.of_images e.balance_ignoresReferences, Weight.of_blocks e.balance_ignoresBlocks hrules,
    e.balance_codeBlocks ht]

/-- The rendered text and the code spans in it have the balance of the text together. -/
theorem balance_render {t : Text} (ht : '<' ∉ t) :
    e.balance.of (render t) + ((codeSpans t).map e.balance.of).sum = 0 := by
  have hstrong := Weight.of_format (fun _ => rfl)
    (e.balance_ignoresMarks Delimited.usesDelimiters_strong)
    e.balance_neutral.1 (beforeFormats t)
  have hem := Weight.of_format (fun _ => rfl)
    (e.balance_ignoresMarks Delimited.usesDelimiters_emphasis)
    e.balance_neutral.2.1 (Delimited.strong.format (beforeFormats t))
  have hcode := Weight.of_code (e.balance_ignoresMarks Delimited.usesDelimiters_code)
    e.balance_neutral.2.2.1
    e.balance_encode (Delimited.emphasis.format (Delimited.strong.format (beforeFormats t)))
  have hlinks := Weight.of_links e.balance_ignoresReferences
    (Delimited.inlineFormats (beforeFormats t))
  have hbefore := e.balance_beforeFormats ht
  rw [render_eq, hlinks]
  unfold codeSpans Delimited.inlineFormats
  omega

theorem sum_balance (us : List Text) : (us.map e.balance.of).sum =
    ((us.map (occurrences (openTag e.name))).sum : Int) -
      (us.map (occurrences (closeTag e.name))).sum :=
  Weight.sum_map_sub _ _ us

end BlockElement

/-! ## Balanced texts -/

theorem backtick_countable : Countable ['`'] where
  before := by decide
  after := by decide
  kept := by decide
  asterisk := by decide

/-- A text that has no backtick left after the fences has no code spans. -/
theorem codeSpans_eq_nil_of_codeBlocks {t : Text} (ht : '`' ∉ Fence.codeBlocks t) :
    codeSpans t = [] := by
  have hblocks : ¬ ['`'] <:+: blocks (Fence.codeBlocks t) :=
    not_infix_blocks (h := backtick_countable) (by decide +kernel) (by rwa [singleton_infix_iff])
  have himages : ¬ ['`'] <:+: Image.images (blocks (Fence.codeBlocks t)) :=
    not_infix_images (h := backtick_countable) (by decide +kernel) hblocks
  have hbefore : '`' ∉ beforeFormats t := by
    unfold beforeFormats
    rwa [← singleton_infix_iff]
  have hstrong : '`' ∉ Delimited.strong.format (beforeFormats t) :=
    Delimited.not_mem_format (fun body hb => not_mem_element (by decide) (by decide) hb) hbefore
  have hem : '`' ∉ Delimited.emphasis.format (Delimited.strong.format (beforeFormats t)) :=
    Delimited.not_mem_format (fun body hb => not_mem_element (by decide) (by decide) hb) hstrong
  apply Delimited.found_eq_nil
  intro mark hmark body _ hspan
  refine hem (hspan.subset ?_)
  rw [List.mem_singleton.1 hmark]
  simp

/-- A text without backticks has no code spans. -/
theorem codeSpans_eq_nil {t : Text} (ht : '`' ∉ t) : codeSpans t = [] :=
  codeSpans_eq_nil_of_codeBlocks (by rwa [Fence.codeBlocks_eq_self_of_not_mem ht])

/-- **Block elements are balanced up to code spans.** In the HTML of a text without `<` an element
of the block passes is opened as often as it is closed exactly if the code spans that the code pass
finds and encodes hold as many of its opening tags as of its closing tags. So it is for every text
without a backtick. -/
theorem balanced_iff {t : Text} (ht : '<' ∉ t) (e : BlockElement) :
    (occurrences (openTag e.name) (render t) = occurrences (closeTag e.name) (render t) ↔
      ((codeSpans t).map (occurrences (openTag e.name))).sum =
        ((codeSpans t).map (occurrences (closeTag e.name))).sum) ∧
    ('`' ∉ t →
      occurrences (openTag e.name) (render t) = occurrences (closeTag e.name) (render t)) := by
  have hrender := e.balance_render ht
  rw [e.sum_balance, e.balance_of] at hrender
  constructor
  · omega
  · intro hcode
    rw [codeSpans_eq_nil hcode] at hrender
    simp only [List.map_nil, List.sum_nil] at hrender
    omega

theorem balanced_code_in_item : '<' ∉ "- `a`\n- b".toList ∧
    ((codeSpans "- `a`\n- b".toList).map (occurrences (openTag BlockElement.li.name))).sum =
      ((codeSpans "- `a`\n- b".toList).map (occurrences (closeTag BlockElement.li.name))).sum ∧
    occurrences (openTag BlockElement.li.name) (render "- `a`\n- b".toList) =
      occurrences (closeTag BlockElement.li.name) (render "- `a`\n- b".toList) := by
  have ht : '<' ∉ "- `a`\n- b".toList := by decide
  have hspans :
      ((codeSpans "- `a`\n- b".toList).map (occurrences (openTag BlockElement.li.name))).sum =
      ((codeSpans "- `a`\n- b".toList).map (occurrences (closeTag BlockElement.li.name))).sum := by
    decide +kernel
  exact ⟨ht, hspans, (balanced_iff ht .li).1.2 hspans⟩

/-- A backtick in a list item pairs with one on the line below the list, and what closes the list is
encoded. -/
theorem code_span_breaks_balance : '<' ∉ "- `a\nb`".toList ∧
    occurrences (openTag BlockElement.ul.name) (render "- `a\nb`".toList) = 1 ∧
    occurrences (closeTag BlockElement.ul.name) (render "- `a\nb`".toList) = 0 := by
  decide +kernel

end MarkdownPreview

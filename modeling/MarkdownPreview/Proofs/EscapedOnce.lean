import MarkdownPreview.Proofs.BlankLine
import MarkdownPreview.Proofs.CodePass
/-!
# Code that is escaped once

Fenced code is encoded by the first pass, and code spans are encoded by a later one that reads what
the first has written. An entity that stands in such a span is encoded again. How often that
happens is counted exactly (`occurrences_doubled_render`): encoded text has the code of a word as
often as the text has the word (`Entity.occurrences_encode`), and the doubled entities are carried
through all the passes but the one for code spans. So the code of a block is escaped once exactly if
no code span encloses an entity of it (`escaped_once_iff`), as it is for code without a backtick;
a backtick in the code can open such a span (`escaped_twice_between_backticks`).
-/

namespace MarkdownPreview

open Text

namespace Entity

/-! ## Encoded words -/

/-- **Encoding keeps counts.** The code of a word occurs in encoded text as often as the word in the
text, if entities have the first character of the code at their start only. -/
theorem occurrences_encode {x : Char} {word code : Text} (hcode : encode word = x :: code)
    (hx : ∀ e : Entity, x ∉ e.text.tail) (t : Text) :
    occurrences (encode word) (encode t) = occurrences word t := by
  induction t with
  | nil => rfl
  | cons c t ih =>
    have hiff : encode word <+: encode (c :: t) ↔ word <+: c :: t := encode_prefix_iff
    obtain ⟨y, ys, hc, hys⟩ := ofChar_shape hx c
    -- the code can start at the first character of what is written for `c`, not further on
    have hskip : occurrences (x :: code) (ys ++ encode t) = occurrences (x :: code) (encode t) :=
      occurrences_append_of_not_mem hys _
    rw [encode_cons c, hc, List.cons_append] at hiff ⊢
    rw [hcode] at hiff ih ⊢
    rw [occurrences_cons, occurrences_cons, hskip, ih]
    simp only [hiff]

/-! ## Doubled entities -/

/-- What an entity becomes if it is encoded like other text. -/
def doubled (e : Entity) : Text := encode e.text

variable (e : Entity)

/-- Encoding doubles the entities of a text. -/
theorem occurrences_doubled_encode (t : Text) :
    occurrences e.doubled (encode t) = occurrences e.text t := by
  obtain ⟨word, hword⟩ := e.exists_text_eq
  have hcode : e.doubled = '&' :: ("amp;".toList ++ encode word) := by rw [doubled, hword]; rfl
  exact occurrences_encode hcode ampersand_not_mem_tail t

example : all.map doubled = ["&amp;amp;".toList, "&amp;lt;".toList, "&amp;gt;".toList,
    "&amp;quot;".toList, "&amp;#039;".toList] := by decide

theorem countable_text : Countable e.text := by cases e <;> decide

theorem carried_doubled : Carried e.doubled := by cases e <;> decide +kernel

theorem countable_doubled : Countable e.doubled := e.carried_doubled.countable

/-- How often an entity stands doubled in a text. -/
def doubledCount : Weight := .count e.doubled e.countable_doubled

/-- Code tags are not made of doubled entities. -/
theorem doubledCount_neutral :
    e.doubledCount.Neutral "code".toList ∧ e.doubledCount.Neutral "pre".toList := by
  cases e <;> decide +kernel

/-! ## Code spans -/

/-- In a code span the entities are doubled, those that were doubled before once more. -/
theorem occurrences_doubled_code (t : Text) :
    occurrences e.doubled (Delimited.code.format t) +
        ((Delimited.code.pattern.found t).map (occurrences e.doubled)).sum =
      occurrences e.doubled t + ((Delimited.code.pattern.found t).map (occurrences e.text)).sum := by
  have hmark : e.doubledCount.IgnoresMark "`".toList :=
    Weight.count_ignoresMark e.countable_doubled (by cases e <;> decide) 0
  have hmarkText : (Weight.count e.text e.countable_text).IgnoresMark "`".toList :=
    Weight.count_ignoresMark e.countable_text (by cases e <;> decide) 0
  have hloss : ∀ t out rest, Delimited.code.pattern.spanAt? t = some (out, rest) →
      ∃ read, t = read ++ rest ∧ IsMarkup out ∧
        (∀ s, e.doubledCount.of (s ++ read ++ rest) =
          e.doubledCount.of s + e.doubledCount.of read + e.doubledCount.of rest) ∧
        e.doubledCount.of out + (occurrences e.doubled read - occurrences e.text read) =
          e.doubledCount.of read := by
    intro t out rest hs
    obtain ⟨mark, hm, body, rfl, rfl, -⟩ := Delimited.spanAt?_eq_some hs
    rw [List.mem_singleton.1 hm]
    obtain ⟨-, hcut⟩ := Weight.of_span hmark body
    obtain ⟨hread, -⟩ := Weight.of_span hmarkText body
    have hwrite : e.doubledCount.of (Delimited.code.write body) = occurrences e.text body := by
      rw [← e.occurrences_doubled_encode]
      exact e.doubledCount.of_element_of_neutral e.doubledCount_neutral.1 _
    refine ⟨_, rfl, isMarkup_element _ _, fun s => hcut s rest, ?_⟩
    simp only [Weight.count_of] at hread
    rw [hwrite, hread]
    exact add_sub_cancel _ _
  have hformat := Weight.of_replace _ hloss t []
  rw [Weight.sum_map_sub] at hformat
  simp only [List.nil_append, doubledCount, Weight.count_of] at hformat
  unfold Delimited.format
  omega

/-- If no entity is doubled behind the fences, those in the code spans are doubled in the end. -/
theorem occurrences_doubled_render {t : Text} (ht : ¬ e.doubled <:+: Fence.codeBlocks t) :
    occurrences e.doubled (render t) = ((codeSpans t).map (occurrences e.text)).sum := by
  have hne : e.doubled ≠ [] := e.countable_doubled.ne_nil
  rw [← occurrences_eq_zero_iff hne, ← e.carried_doubled.occurrences_beforeCode] at ht
  have hcode := e.occurrences_doubled_code (beforeCode t)
  have hzero : ((codeSpans t).map (occurrences e.doubled)).sum = 0 := by
    rw [List.sum_eq_zero_iff_forall_eq_nat, List.forall_mem_map]
    intro span hspan
    rw [occurrences_eq_zero_iff hne] at ht ⊢
    refine fun h => ht (h.trans (Pattern.isInfix_of_mem_found (fun t out rest hs => ?_) hspan))
    exact (Delimited.suffix_of_spanAt? hs).imp fun _ => Eq.symm
  rw [e.carried_doubled.occurrences_render]
  unfold codeSpans at hzero ⊢
  unfold beforeCode at hcode ht ⊢
  omega

end Entity

/-! ## Fenced code -/

namespace Fence

/-- The code on lines of its own between two fences. -/
def fenced (code : Text) : Text := mark ++ '\n' :: code ++ '\n' :: mark

variable {code : Text}

/-- Code without a fence ends where the fence on the line below it starts. -/
theorem cut?_of_not_infix (h : ¬ mark <:+: code) (rest : Text) :
    cut? mark (code ++ '\n' :: (mark ++ rest)) = some (code ++ ['\n'], rest) := by
  induction code with
  | nil => rfl
  | cons c code ih =>
    have hopen : mark.isPrefixOf? (c :: code) = none :=
      isPrefixOf?_eq_none_iff.2 fun hstart => h hstart.isInfix
    have hbreak := isPrefixOf?_append_break (by decide : '\n' ∉ mark) (c :: code) (mark ++ rest)
    rw [hopen] at hbreak
    rw [List.cons_append] at hbreak ⊢
    rw [cut?, hbreak]
    simp only [Option.map_none]
    rw [ih fun hi => h (hi.trans (List.suffix_cons c code).isInfix)]
    rfl

/-- Fenced code is encoded without the line breaks that set it off from the fences. -/
theorem codeBlocks_fenced (h : ¬ mark <:+: code) :
    codeBlocks (fenced code) =
      element "pre".toList (element "code".toList (Entity.encode (dropLastBreak (code ++ ['\n'])))) := by
  have hbreak : ¬ mark <:+: '\n' :: code := by
    intro hi
    rcases isInfix_or_of_append_cons (a := []) hi (by decide) with hi | hi
    · exact absurd (List.infix_nil.1 hi) (by decide)
    · exact h hi
  have hblock : pattern.spanAt? (fenced code) = some (block ('\n' :: code ++ ['\n']), []) := by
    have hcut := cut?_of_not_infix hbreak []
    rw [List.append_nil] at hcut
    change blockAt? (fenced code) = _
    rw [blockAt?, fenced, List.append_assoc, isPrefixOf?_append, Option.bind_some, hcut]
    rfl
  rw [codeBlocks, Pattern.replace_of_spanAt? hblock, Pattern.replace_nil, List.append_nil]
  rfl

theorem not_mem_content {a : Char} (h : a ∉ code) (ha : a ≠ '\n') :
    a ∉ dropLastBreak (code ++ ['\n']) := by
  intro hm
  have hmem := mem_of_mem_dropLastBreak hm
  simp [h, ha] at hmem

theorem not_infix_doubled_fenced (hamp : '&' ∉ code) (hfence : ¬ mark <:+: code) (e : Entity) :
    ¬ e.doubled <:+: codeBlocks (fenced code) := by
  obtain ⟨word, hword⟩ := e.exists_text_eq
  have hnone : occurrences e.text (dropLastBreak (code ++ ['\n'])) = 0 := by
    rw [hword]
    exact occurrences_eq_zero_of_not_mem (not_mem_content hamp (by decide))
  have hblock : e.doubledCount.of (codeBlocks (fenced code)) = 0 := by
    rw [codeBlocks_fenced hfence, Weight.of_element_of_neutral _ e.doubledCount_neutral.2,
      Weight.of_element_of_neutral _ e.doubledCount_neutral.1, Entity.doubledCount, Weight.count_of,
      e.occurrences_doubled_encode, hnone]
    rfl
  rw [← occurrences_eq_zero_iff e.countable_doubled.ne_nil]
  exact Int.natCast_eq_zero.1 hblock

theorem backtick_not_mem_codeBlocks_fenced (h : '`' ∉ code) : '`' ∉ codeBlocks (fenced code) := by
  have hfence : ¬ mark <:+: code := fun hi => h (hi.subset (by decide))
  have hencode : '`' ∉ Entity.encode (dropLastBreak (code ++ ['\n'])) :=
    Entity.not_mem_encode (by intro e; cases e <;> decide) (not_mem_content h (by decide))
  rw [codeBlocks_fenced hfence]
  exact not_mem_element (by decide) (by decide) (not_mem_element (by decide) (by decide) hencode)

end Fence

/-- **When code is escaped once.** In the HTML of code between two fences, which has no ampersand
and no fence itself, an entity is doubled exactly if it stands in a code span that the code pass
finds in the block. So none is if the code has no backtick. -/
theorem escaped_once_iff {code : Text} (hamp : '&' ∉ code) (hfence : ¬ Fence.mark <:+: code)
    (e : Entity) :
    (¬ e.doubled <:+: render (Fence.fenced code) ↔
      ∀ span ∈ codeSpans (Fence.fenced code), ¬ e.text <:+: span) ∧
    ('`' ∉ code → ¬ e.doubled <:+: render (Fence.fenced code)) := by
  have hcount := e.occurrences_doubled_render (Fence.not_infix_doubled_fenced hamp hfence e)
  have hiff : ¬ e.doubled <:+: render (Fence.fenced code) ↔
      ∀ span ∈ codeSpans (Fence.fenced code), ¬ e.text <:+: span := by
    rw [← occurrences_eq_zero_iff e.countable_doubled.ne_nil, hcount,
      List.sum_eq_zero_iff_forall_eq_nat]
    simp only [List.forall_mem_map, occurrences_eq_zero_iff e.countable_text.ne_nil]
  refine ⟨hiff, fun hcode => hiff.2 ?_⟩
  rw [codeSpans_eq_nil_of_codeBlocks (Fence.backtick_not_mem_codeBlocks_fenced hcode)]
  exact fun span hspan => absurd hspan List.not_mem_nil

/-- Reserved characters beside a code span of the block are escaped once. -/
theorem escaped_once_beside_span :
    '&' ∉ "<a href='#'>\n`b`".toList ∧ ¬ Fence.mark <:+: "<a href='#'>\n`b`".toList ∧
    (∀ span ∈ codeSpans (Fence.fenced "<a href='#'>\n`b`".toList), ¬ Entity.less.text <:+: span) ∧
    ¬ Entity.less.doubled <:+: render (Fence.fenced "<a href='#'>\n`b`".toList) := by
  have hamp : '&' ∉ "<a href='#'>\n`b`".toList := by decide +kernel
  have hfence : ¬ Fence.mark <:+: "<a href='#'>\n`b`".toList := by decide +kernel
  have hspans : ∀ span ∈ codeSpans (Fence.fenced "<a href='#'>\n`b`".toList),
      ¬ Entity.less.text <:+: span := by decide +kernel
  exact ⟨hamp, hfence, hspans, (escaped_once_iff hamp hfence .less).1.2 hspans⟩

/-- Between two backticks in a block the code is encoded again. -/
theorem escaped_twice_between_backticks : '&' ∉ "`<`".toList ∧ ¬ Fence.mark <:+: "`<`".toList ∧
    Entity.less.doubled <:+: render (Fence.fenced "`<`".toList) := by
  decide +kernel

end MarkdownPreview

import MarkdownPreview.Proofs.CodePass
/-!
# A fence without a partner

The fence pass leaves a fence without a partner as it is, and so do the passes that read it next.
But the fence has the shape of a code span whose body is the middle one of its backticks, because
the body of a code span may start with the delimiter. So the code pass makes a span of it, wherever
in the text it stands: the HTML has one code tag more than the text, around a backtick, and no fence
(`lone_fence_becomes_code`).
-/

namespace MarkdownPreview

open Text

namespace Fence

/-! ## Up to the code pass -/

theorem carried_backtick : Carried ['`'] := by decide +kernel

theorem carried_mark : Carried mark := by decide +kernel

theorem carried_codeTag : Carried (openTag "code".toList) := by decide +kernel

variable {a b : Text}

theorem count_backtick (ha : '`' ∉ a) (hb : '`' ∉ b) : (a ++ mark ++ b).count '`' = 3 := by
  have hmark : mark.count '`' = 3 := by decide
  rw [List.count_append, List.count_append, List.count_eq_zero.2 ha, List.count_eq_zero.2 hb, hmark]

/-- A text with one fence and no more backticks is that still when the code pass reads it. -/
theorem exists_beforeCode_eq (ha : '`' ∉ a) (hb : '`' ∉ b) :
    ∃ p q, beforeCode (a ++ mark ++ b) = p ++ mark ++ q ∧ '`' ∉ p ∧ '`' ∉ q := by
  have hcount := count_backtick ha hb
  have hblocks : codeBlocks (a ++ mark ++ b) = a ++ mark ++ b :=
    codeBlocks_eq_self_of_count (by omega)
  have hmark := carried_mark.occurrences_beforeCode (a ++ mark ++ b)
  have hbacktick := carried_backtick.occurrences_beforeCode (a ++ mark ++ b)
  rw [hblocks] at hmark hbacktick
  have hinfix : mark <:+: beforeCode (a ++ mark ++ b) := by
    by_contra hnone
    rw [(occurrences_eq_zero_iff (by decide)).2 hnone, eq_comm,
      occurrences_eq_zero_iff (by decide)] at hmark
    exact hmark ⟨a, b, rfl⟩
  obtain ⟨p, q, hpq⟩ := hinfix
  rw [occurrences_singleton, occurrences_singleton, hcount, ← hpq, List.count_append,
    List.count_append, show mark.count '`' = 3 by decide] at hbacktick
  refine ⟨p, q, hpq.symm, ?_, ?_⟩
  · exact List.count_eq_zero.1 (by omega)
  · exact List.count_eq_zero.1 (by omega)

/-! ## The code pass -/

/-- The code pass copies what stands before the first backtick. -/
theorem format_code_append {s : Text} (hs : '`' ∉ s) (t : Text) :
    Delimited.code.format (s ++ t) = s ++ Delimited.code.format t := by
  refine Pattern.replace_append (fun c hc t => ?_) t
  cases hspan : Delimited.code.spanAt? (c :: t) with
  | none => exact hspan
  | some span =>
    obtain ⟨mark, hmark, body, ht, -⟩ := Delimited.spanAt?_eq_some hspan
    rw [List.mem_singleton.1 hmark] at ht
    have hbacktick : c = '`' := (List.cons.inj ht).1
    exact absurd (hbacktick ▸ hc) hs

/-- The code pass reads a fence as a code span around its middle backtick. -/
theorem format_code {p q : Text} (hp : '`' ∉ p) (hq : '`' ∉ q) :
    Delimited.code.format (p ++ mark ++ q) = p ++ element "code".toList ['`'] ++ q := by
  have hspan : Delimited.code.pattern.spanAt? (mark ++ q) =
      some (element "code".toList ['`'], q) := rfl
  have hfence : Delimited.code.format (mark ++ q) =
      element "code".toList ['`'] ++ Delimited.code.format q := Pattern.replace_of_spanAt? hspan
  have hempty : Delimited.code.format [] = [] := Pattern.replace_nil _
  have hrest := format_code_append hq []
  rw [hempty, List.append_nil] at hrest
  rw [List.append_assoc, format_code_append hp, hfence, hrest, List.append_assoc]

end Fence

variable {a b : Text}

/-- **A fence without a partner becomes a code span.** If the only backticks of a text are those of
one fence, its HTML has one code tag more than the text has, around a backtick, and the fence is in
it no more. -/
theorem lone_fence_becomes_code (ha : '`' ∉ a) (hb : '`' ∉ b) :
    occurrences (openTag "code".toList) (render (a ++ Fence.mark ++ b)) =
      occurrences (openTag "code".toList) (a ++ Fence.mark ++ b) + 1 ∧
    element "code".toList ['`'] <:+: render (a ++ Fence.mark ++ b) ∧
    ¬ Fence.mark <:+: render (a ++ Fence.mark ++ b) := by
  obtain ⟨p, q, hbefore, hp, hq⟩ := Fence.exists_beforeCode_eq ha hb
  have hformat := Fence.format_code hp hq
  rw [← hbefore] at hformat
  have hblocks : Fence.codeBlocks (a ++ Fence.mark ++ b) = a ++ Fence.mark ++ b :=
    Fence.codeBlocks_eq_self_of_count (by rw [Fence.count_backtick ha hb]; omega)
  refine ⟨?_, ?_, ?_⟩
  · have htag : occurrences (openTag "code".toList) (element "code".toList ['`']) = 1 := by decide
    have hmark : (occurrences (openTag "code".toList) (p ++ Fence.mark ++ q) : Int) =
        occurrences (openTag "code".toList) p + occurrences (openTag "code".toList) q :=
      Weight.count_ignoresMark Fence.carried_codeTag.countable (c := '`') (by decide) 2 p q
    have hspan := (Weight.count _ Fence.carried_codeTag.countable).of_append_markup
      (isMarkup_element "code".toList ['`']) p q
    have hcarried := Fence.carried_codeTag.occurrences_beforeCode (a ++ Fence.mark ++ b)
    rw [hblocks, hbefore] at hcarried
    simp only [Weight.count_of, htag] at hspan
    rw [Fence.carried_codeTag.occurrences_render, hformat, ← hcarried]
    omega
  · rw [render_eq_links, hformat]
    exact Link.isInfix_links (by decide) ⟨p, q, rfl⟩
  · intro hmark
    have hone := Fence.carried_backtick.occurrences_render (a ++ Fence.mark ++ b)
    rw [hformat, occurrences_singleton, occurrences_singleton, List.count_append,
      List.count_append, List.count_eq_zero.2 hp, List.count_eq_zero.2 hq] at hone
    have hcount := hmark.sublist.count_le '`'
    rw [hone] at hcount
    exact absurd hcount (by decide)

theorem lone_fence_in_quote :
    '`' ∉ "> *a* [b".toList ∧ '`' ∉ "](c)".toList ∧
    element "code".toList ['`'] <:+: render ("> *a* [b".toList ++ Fence.mark ++ "](c)".toList) := by
  have ha : '`' ∉ "> *a* [b".toList := by decide
  have hb : '`' ∉ "](c)".toList := by decide
  exact ⟨ha, hb, (lone_fence_becomes_code ha hb).2.1⟩

/-- A fence that is all of a text is no text in the HTML. -/
theorem lone_fence_lost : occurrences (openTag "code".toList) Fence.mark = 0 ∧
    occurrences (openTag "code".toList) (render Fence.mark) = 1 ∧
    ¬ Fence.mark <:+: render Fence.mark := by
  decide +kernel

end MarkdownPreview

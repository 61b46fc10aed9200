import MarkdownPreview.Text.Basic
/-!
# The first marker of a text

A marker is read off the start or the end of a text, and `cut?` looks for it at one position after the
other. The same is said without reading or searching: a text starts or ends with the marker, or the
marker stands in it and nowhere earlier (`IsFirst`), which fixes the place (`IsFirst.unique`). A first
marker stays the first one when text comes after it (`IsFirst.append`), and when text comes before it
in which it does not start (`IsFirst.prepend`).
-/

namespace MarkdownPreview.Text

variable {mark : Text}

/-! ## Markers at the ends of a text -/

/-- What a marker does not start is not read past it. -/
theorem isPrefixOf?_eq_none_iff {t : Text} :
    mark.isPrefixOf? t = none ↔ ¬ mark <+: t := by
  cases h : mark.isPrefixOf? t with
  | none =>
    have hnot : ¬ mark <+: t := by
      rintro ⟨rest, rfl⟩
      simp [isPrefixOf?_append] at h
    simp [hnot]
  | some rest =>
    have hstart : mark <+: t := ⟨rest, (eq_append_of_isPrefixOf? h).symm⟩
    simp [hstart]

/-- A marker is cut off the end of a text exactly if the text ends with it. -/
theorem isSuffixOf?_eq_some_iff {t rest : Text} :
    mark.isSuffixOf? t = some rest ↔ t = rest ++ mark := by
  constructor
  · intro h
    obtain ⟨r, hr, rfl⟩ := Option.map_eq_some_iff.1 h
    rw [← List.reverse_inj, eq_append_of_isPrefixOf? hr, List.reverse_append, List.reverse_reverse]
  · rintro rfl
    change (mark.reverse.isPrefixOf? (rest ++ mark).reverse).map List.reverse = some rest
    rw [List.reverse_append, isPrefixOf?_append, Option.map_some, List.reverse_reverse]

theorem isSuffixOf?_eq_none_iff {t : Text} : mark.isSuffixOf? t = none ↔ ¬ mark <:+ t := by
  change (mark.reverse.isPrefixOf? t.reverse).map List.reverse = none ↔ _
  rw [Option.map_eq_none_iff, isPrefixOf?_eq_none_iff, List.reverse_prefix]

/-! ## Cutting at a marker -/

/-- There is no marker in front of the first one. -/
theorem not_infix_of_cut? (hne : mark ≠ []) {t before rest : Text}
    (h : cut? mark t = some (before, rest)) : ¬ mark <:+: before := by
  induction t generalizing before with
  | nil => simp [cut?, hne] at h
  | cons c t ih =>
    simp only [cut?] at h
    split at h
    · simp only [Option.some.injEq, Prod.mk.injEq] at h
      rw [← h.1, List.infix_nil]
      exact hne
    · next hnone =>
      obtain ⟨⟨b, r⟩, hc, he⟩ := Option.map_eq_some_iff.1 h
      simp only [Prod.mk.injEq] at he
      obtain ⟨rfl, rfl⟩ := he
      rw [List.infix_cons_iff, not_or]
      refine ⟨fun hstart => isPrefixOf?_eq_none_iff.1 hnone (hstart.trans ?_), ih hc⟩
      rw [eq_append_of_cut? hc, List.append_assoc]
      exact List.prefix_append (c :: b) _

theorem not_infix_of_cut?_eq_none {t : Text} (h : cut? mark t = none) : ¬ mark <:+: t := by
  induction t with
  | nil =>
    rw [List.infix_nil]
    rintro rfl
    simp [cut?] at h
  | cons c t ih =>
    simp only [cut?] at h
    split at h
    · simp at h
    · next hnone =>
      rw [List.infix_cons_iff, not_or]
      exact ⟨isPrefixOf?_eq_none_iff.1 hnone, ih (Option.map_eq_none_iff.1 h)⟩

/-- The text is `before`, the marker and `rest`, and the marker does not occur earlier in it. -/
def IsFirst (mark t before rest : Text) : Prop :=
  t = before ++ mark ++ rest ∧ ∀ a b, t = a ++ mark ++ b → before.length ≤ a.length

/-- Before the first marker no marker starts. -/
theorem IsFirst.not_prefix {c : Char} {t before rest : Text}
    (h : IsFirst mark t (c :: before) rest) : ¬ mark <+: t := by
  rintro ⟨b, hb⟩
  have hle := h.2 [] b hb.symm
  simp at hle

/-- The first marker stays the first one when the text before it gets shorter. -/
theorem IsFirst.tail {c : Char} {t before rest : Text}
    (h : IsFirst mark (c :: t) (c :: before) rest) : IsFirst mark t before rest := by
  refine ⟨(List.cons.inj h.1).2, fun a b hab => ?_⟩
  have hle := h.2 (c :: a) b (by rw [hab]; rfl)
  simpa using hle

theorem length_le_of_cut? {t before rest a b : Text} (h : cut? mark t = some (before, rest))
    (hab : t = a ++ mark ++ b) : before.length ≤ a.length := by
  induction t generalizing before a with
  | nil =>
    simp only [cut?] at h
    split at h
    · simp only [Option.some.injEq, Prod.mk.injEq] at h
      simp [← h.1]
    · simp at h
  | cons c t ih =>
    simp only [cut?] at h
    split at h
    · simp only [Option.some.injEq, Prod.mk.injEq] at h
      simp [← h.1]
    · next hnone =>
      obtain ⟨⟨before', rest'⟩, hcut, he⟩ := Option.map_eq_some_iff.1 h
      simp only [Prod.mk.injEq] at he
      obtain ⟨rfl, rfl⟩ := he
      cases a with
      | nil => exact absurd ⟨b, hab.symm⟩ (isPrefixOf?_eq_none_iff.1 hnone)
      | cons d a =>
        have hle := ih hcut (List.cons.inj hab).2
        simpa using hle

theorem IsFirst.unique {t before rest before' rest' : Text} (h : IsFirst mark t before rest)
    (h' : IsFirst mark t before' rest') : before = before' ∧ rest = rest' := by
  have hlength : before.length = before'.length :=
    Nat.le_antisymm (h.2 _ _ h'.1) (h'.2 _ _ h.1)
  have heq := h.1.symm.trans h'.1
  rw [List.append_assoc, List.append_assoc] at heq
  obtain ⟨hbefore, hrest⟩ := List.append_inj heq hlength
  exact ⟨hbefore, List.append_cancel_left hrest⟩

/-- A text is cut at the first marker in it. -/
theorem cut?_eq_some_iff {t before rest : Text} :
    cut? mark t = some (before, rest) ↔ IsFirst mark t before rest := by
  have hfirst : ∀ {before rest}, cut? mark t = some (before, rest) → IsFirst mark t before rest :=
    fun h => ⟨eq_append_of_cut? h, fun _ _ hab => length_le_of_cut? h hab⟩
  constructor
  · exact hfirst
  · intro h
    cases hcut : cut? mark t with
    | none => exact absurd ⟨before, rest, h.1.symm⟩ (not_infix_of_cut?_eq_none hcut)
    | some cut =>
      obtain ⟨rfl, rfl⟩ := h.unique (hfirst hcut)
      rfl

theorem cut?_eq_none_iff {t : Text} : cut? mark t = none ↔ ¬ mark <:+: t := by
  constructor
  · exact not_infix_of_cut?_eq_none
  · intro h
    cases hcut : cut? mark t with
    | none => rfl
    | some cut => exact absurd ⟨cut.1, cut.2, (eq_append_of_cut? hcut).symm⟩ h

/-- What comes after a text does not change which marker in it is the first. -/
theorem IsFirst.append {s before rest : Text} (h : IsFirst mark s before rest) (t : Text) :
    IsFirst mark (s ++ t) before (rest ++ t) := by
  refine ⟨by rw [h.1, List.append_assoc], fun a b hab => Nat.le_of_not_lt fun hlt => ?_⟩
  have hlength := congrArg List.length h.1
  simp only [List.length_append] at hlength
  have hin : a ++ mark <+: s := by
    refine List.prefix_of_prefix_length_le ⟨b, hab.symm⟩ (List.prefix_append s t) ?_
    rw [List.length_append]
    omega
  obtain ⟨c, hc⟩ := hin
  exact Nat.not_le_of_lt hlt (h.2 a c hc.symm)

/-- A marker does not start in a text that lacks its first two characters side by side and does not
end in the first of them. -/
theorem IsFirst.prepend {x y : Char} {s t before rest : Text}
    (h : IsFirst (x :: y :: mark) t before rest) (hpair : ¬ [x, y] <:+: s)
    (hlast : x ∉ s.getLast?) : IsFirst (x :: y :: mark) (s ++ t) (s ++ before) rest := by
  induction s with
  | nil => exact h
  | cons c s ih =>
    have hfirst : IsFirst (x :: y :: mark) (s ++ t) (s ++ before) rest := by
      refine ih (fun hi => hpair (hi.trans (List.suffix_cons c s).isInfix)) fun hx => hlast ?_
      rw [Option.mem_def, List.getLast?_cons, Option.mem_def.1 hx]
      rfl
    refine ⟨by rw [List.cons_append, hfirst.1]; rfl, fun a b hab => ?_⟩
    cases a with
    | nil =>
      obtain ⟨rfl, htail⟩ := List.cons.inj hab
      cases s with
      | nil => exact absurd rfl hlast
      | cons d s =>
        rw [(List.cons.inj htail).1] at hpair
        exact absurd ⟨[], s, rfl⟩ hpair
    | cons d a =>
      have hle := hfirst.2 a b (List.cons.inj hab).2
      simpa using hle

end MarkdownPreview.Text

import Mathlib.Data.List.TakeWhile
import MarkdownPreview.Text.Blank
/-!
# Trimmed text

A text is the blanks at its two ends with the trimmed text between them (`trim_shape`). Trimming at one
end and then at the other is the same in either order (`trimStart_trimEnd`), blanks put in front or
behind are trimmed off again, and a text without blanks at its ends stays as it is (`trim_eq_self`).
-/

namespace MarkdownPreview.Text

/-- A text is what is trimmed off it at either end and the trimmed text between. -/
theorem trim_shape (t : Text) :
    ∃ a b, t = a ++ trim t ++ b ∧ (∀ c ∈ a, isBlank c = true) ∧ ∀ c ∈ b, isBlank c = true := by
  refine ⟨t.takeWhile isBlank, ((trimStart t).reverse.takeWhile isBlank).reverse, ?_, ?_, ?_⟩
  · have hend : trimStart t = trim t ++ ((trimStart t).reverse.takeWhile isBlank).reverse := by
      rw [trim, trimEnd, ← List.reverse_append, List.takeWhile_append_dropWhile, List.reverse_reverse]
    rw [List.append_assoc, ← hend, trimStart, List.takeWhile_append_dropWhile]
  · intro c hc; exact List.mem_takeWhile_imp hc
  · intro c hc; exact List.mem_takeWhile_imp (List.mem_reverse.1 hc)

theorem mem_of_mem_trim {t : Text} {x : Char} (h : x ∈ trim t) : x ∈ t := by
  obtain ⟨a, b, ht, -, -⟩ := trim_shape t
  rw [ht]
  simp [h]

/-- A text without a blank at its ends is not trimmed. -/
theorem trim_eq_self {t : Text} (hhead : ∀ c ∈ t.head?, isBlank c = false)
    (hlast : ∀ c ∈ t.getLast?, isBlank c = false) : trim t = t := by
  obtain ⟨a, b, ht, ha, hb⟩ := trim_shape t
  have hstart : a = [] := by
    cases a with
    | nil => rfl
    | cons c a =>
      have hc := hhead c (by rw [ht]; simp)
      rw [ha c List.mem_cons_self] at hc
      cases hc
  have hend : b = [] := by
    rcases List.eq_nil_or_concat b with rfl | ⟨b, c, rfl⟩
    · rfl
    · rw [List.concat_eq_append] at ht hb
      have hc := hlast c (by rw [ht]; simp)
      rw [hb c (by simp)] at hc
      cases hc
  simpa [hstart, hend] using ht.symm

theorem trimEnd_append (a b : Text) :
    trimEnd (a ++ b) = if trimEnd b = [] then trimEnd a else a ++ trimEnd b := by
  simp only [trimEnd, List.reverse_append, List.dropWhile_append, List.reverse_eq_nil_iff,
    List.isEmpty_iff]
  split <;> simp

theorem trimEnd_prefix (t : Text) : trimEnd t <+: t := by
  rw [← List.reverse_suffix, trimEnd, List.reverse_reverse]
  exact List.dropWhile_suffix _

theorem trimStart_of_not_blank {c : Char} (hc : isBlank c = false) (t : Text) :
    trimStart (c :: t) = c :: t := List.dropWhile_cons_of_neg (by simp [hc])

/-- No blank stands at the start of a text that is trimmed there. -/
theorem head?_trimStart {t : Text} {c : Char} (h : c ∈ (trimStart t).head?) : isBlank c = false := by
  have hnot := List.head?_dropWhile_not isBlank t
  rw [Option.mem_def] at h
  rw [← trimStart, h] at hnot
  simpa using hnot

theorem getLast?_trimEnd {t : Text} {c : Char} (h : c ∈ (trimEnd t).getLast?) :
    isBlank c = false := by
  rw [trimEnd, List.getLast?_reverse] at h
  exact head?_trimStart h

theorem trimEnd_trimEnd (t : Text) : trimEnd (trimEnd t) = trimEnd t := by
  have hstart : ∀ u : Text, trimStart (trimStart u) = trimStart u := by
    intro u
    cases hu : trimStart u with
    | nil => rfl
    | cons c v => exact trimStart_of_not_blank (head?_trimStart (by rw [hu]; rfl)) v
  rw [trimEnd, trimEnd, List.reverse_reverse]
  exact congrArg List.reverse (hstart t.reverse)

/-- A text is trimmed at one end and then at the other. -/
theorem trimStart_trimEnd (t : Text) : trimStart (trimEnd t) = trim t := by
  have hblank : ∀ c ∈ t.takeWhile isBlank, isBlank c = true := fun c hc => List.mem_takeWhile_imp hc
  have hnone : trimEnd (t.takeWhile isBlank) = [] := by
    rw [trimEnd, List.reverse_eq_nil_iff, List.dropWhile_eq_nil_iff]
    simpa using hblank
  have ht : t = t.takeWhile isBlank ++ trimStart t := List.takeWhile_append_dropWhile.symm
  have hend : trimEnd t = if trimEnd (trimStart t) = [] then trimEnd (t.takeWhile isBlank)
      else t.takeWhile isBlank ++ trimEnd (trimStart t) := by
    rw [← trimEnd_append, ← ht]
  rw [trim, hend]
  split
  · next hempty => rw [hnone, hempty]; rfl
  · next hne =>
    obtain ⟨c, u, hu⟩ := List.exists_cons_of_ne_nil hne
    have hc : isBlank c = false := by
      obtain ⟨v, hv⟩ := trimEnd_prefix (trimStart t)
      exact head?_trimStart (by rw [← hv, hu]; rfl)
    rw [trimStart, List.dropWhile_append_of_pos hblank, hu]
    exact trimStart_of_not_blank hc u

theorem trim_trimEnd (t : Text) : trim (trimEnd t) = trim t := by
  rw [← trimStart_trimEnd, trimEnd_trimEnd, trimStart_trimEnd]

theorem trimEnd_eq_nil_iff {t : Text} : trimEnd t = [] ↔ trim t = [] := by
  rw [← trimStart_trimEnd]
  constructor
  · intro h
    rw [h]
    rfl
  · intro h
    rcases List.eq_nil_or_concat (trimEnd t) with hnil | ⟨u, c, hu⟩
    · exact hnil
    · rw [List.concat_eq_append] at hu
      have hc : isBlank c = false := getLast?_trimEnd (t := t) (by rw [hu]; simp)
      have hall := List.dropWhile_eq_nil_iff.1 h c (by rw [hu]; simp)
      rw [hc] at hall
      cases hall

theorem trim_of_not_blank {c : Char} (hc : isBlank c = false) (t : Text) :
    trim (c :: t) = c :: trimEnd t := by
  have hone : trimEnd [c] = [c] := by simp [trimEnd, hc]
  rw [trim, trimStart_of_not_blank hc, ← List.singleton_append, trimEnd_append, hone]
  split
  · next h => rw [h]
  · rfl

theorem trim_append_blanks {b : Text} (hb : ∀ c ∈ b, isBlank c = true) (t : Text) :
    trim (t ++ b) = trim t := by
  have hend : trimEnd b = [] := by
    rw [trimEnd, List.reverse_eq_nil_iff, List.dropWhile_eq_nil_iff]
    simpa using hb
  rw [← trimStart_trimEnd, trimEnd_append, if_pos hend, trimStart_trimEnd]

theorem trim_blanks_append {a : Text} (ha : ∀ c ∈ a, isBlank c = true) (t : Text) :
    trim (a ++ t) = trim t := by
  rw [trim, trimStart, List.dropWhile_append_of_pos ha]
  rfl

theorem trim_cons {c : Char} (hc : isBlank c = true) (t : Text) : trim (c :: t) = trim t :=
  trim_blanks_append (a := [c]) (by simpa using hc) t

theorem trim_concat {c : Char} (hc : isBlank c = true) (t : Text) : trim (t ++ [c]) = trim t :=
  trim_append_blanks (by simpa using hc) t

end MarkdownPreview.Text

import MarkdownPreview.Text.Basic
/-!
# Patterns

A `Pattern` recognises a span at the start of a text and says what replaces it. `Pattern.replace`
walks a text from left to right: where a span starts it is replaced and the walk goes on right after
it, elsewhere one character is copied. What a span is replaced by is never read again, and a span
is never empty, so the walk ends.
-/

namespace MarkdownPreview.Text

/-- A kind of span and what replaces it. -/
structure Pattern where
  /-- What replaces the span the text starts with, and the text after that span. -/
  spanAt? : Text → Option (Text × Text)
  /-- A span is not empty. -/
  length_lt : ∀ {t out rest : Text}, spanAt? t = some (out, rest) → rest.length < t.length

namespace Pattern

/-- Replace the spans of a text from left to right. -/
def replace (p : Pattern) (t : Text) : Text :=
  match _h : p.spanAt? t with
  | some (out, rest) => out ++ p.replace rest
  | none =>
    match t with
    | [] => []
    | c :: t => c :: p.replace t
termination_by t.length
decreasing_by
  · exact p.length_lt ‹_›
  · exact Nat.lt_succ_self _

/-- A span is replaced and the walk goes on after it. -/
theorem replace_of_spanAt? {p : Pattern} {t out rest : Text} (h : p.spanAt? t = some (out, rest)) :
    p.replace t = out ++ p.replace rest := by
  rw [replace]
  split
  · next h' =>
    rw [h] at h'
    simp only [Option.some.injEq, Prod.mk.injEq] at h'
    rw [h'.1, h'.2]
  · next h' => simp [h] at h'

/-- Where no span starts, a character is copied. -/
theorem replace_cons {p : Pattern} {c : Char} {t : Text} (h : p.spanAt? (c :: t) = none) :
    p.replace (c :: t) = c :: p.replace t := by
  rw [replace]
  split
  · next h' => simp [h] at h'
  · rfl

/-- The empty text has no span. -/
theorem spanAt?_nil (p : Pattern) : p.spanAt? [] = none := by
  cases h : p.spanAt? [] with
  | none => rfl
  | some s => exact absurd (p.length_lt h) (by simp)

theorem replace_nil (p : Pattern) : p.replace [] = [] := by
  rw [replace]
  split
  · next h => simp [p.spanAt?_nil] at h
  · rfl

end Pattern

end MarkdownPreview.Text

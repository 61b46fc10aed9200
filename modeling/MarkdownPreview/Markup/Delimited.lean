import MarkdownPreview.Markup.Tag
import MarkdownPreview.Text.Entity
import MarkdownPreview.Text.Pattern
/-!
# Delimited spans

Strong text, emphasis and code spans stand between two equal delimiters on one line. The body is
the shortest one that is not empty and is followed by the delimiter; for strong text and emphasis it
may not start with the delimiter itself. Of two delimiters of a style the first that opens a whole
span wins, and a span is not looked into again for more of the same style.
-/

namespace MarkdownPreview

/-- A style of delimited span. -/
structure Delimited where
  /-- The delimiters, in the order they are tried. -/
  marks : List Text
  /-- The body may start with the delimiter. -/
  bodyMayStartWithMark : Bool
  /-- What a span with the given body becomes. -/
  write : Text → Text

namespace Delimited

/-! ## Spans -/

/-- The text up to the next delimiter on the line, and the text after it. -/
def closing? (mark : Text) : Text → Option (Text × Text)
  | [] => none
  | c :: t =>
    match mark.isPrefixOf? (c :: t) with
    | some rest => some ([], rest)
    | none => if c = '\n' then none else (closing? mark t).map fun (body, rest) => (c :: body, rest)

theorem length_of_closing? {mark t body rest : Text} (h : closing? mark t = some (body, rest)) :
    rest.length ≤ t.length := by
  induction t generalizing body with
  | nil => simp [closing?] at h
  | cons c t ih =>
    simp only [closing?] at h
    split at h
    · next r hr =>
      simp only [Option.some.injEq, Prod.mk.injEq] at h
      rw [Text.length_of_isPrefixOf? hr, h.2]
      omega
    · split at h
      · simp at h
      · obtain ⟨⟨b, r⟩, hc, he⟩ := Option.map_eq_some_iff.1 h
        simp only [Prod.mk.injEq] at he
        obtain ⟨-, rfl⟩ := he
        exact Nat.le_succ_of_le (ih hc)

/-- The body of a span, given the text after its opening delimiter, and the text after the span:
one character, whatever it is but a line break, and all up to the next delimiter. -/
def body? (mark : Text) : Text → Option (Text × Text)
  | [] => none
  | c :: t => if c = '\n' then none else (closing? mark t).map fun (body, rest) => (c :: body, rest)

theorem length_of_body? {mark t body rest : Text} (h : body? mark t = some (body, rest)) :
    rest.length < t.length := by
  cases t with
  | nil => simp [body?] at h
  | cons c t =>
    simp only [body?] at h
    split at h
    · simp at h
    · obtain ⟨⟨b, r⟩, hc, he⟩ := Option.map_eq_some_iff.1 h
      simp only [Prod.mk.injEq] at he
      obtain ⟨-, rfl⟩ := he
      exact Nat.lt_succ_of_le (length_of_closing? hc)

/-- The body of the span a delimiter opens at the start of a text, and the text after the span. -/
def bodyAt? (s : Delimited) (mark t : Text) : Option (Text × Text) :=
  (mark.isPrefixOf? t).bind fun inner =>
    if s.bodyMayStartWithMark = false ∧ mark.isPrefixOf inner then none else body? mark inner

/-- The span a text starts with, written in its style. -/
def spanAt? (s : Delimited) (t : Text) : Option (Text × Text) :=
  s.marks.findSome? fun mark => (s.bodyAt? mark t).map fun (body, rest) => (s.write body, rest)

theorem length_of_bodyAt? {s : Delimited} {mark t body rest : Text}
    (h : s.bodyAt? mark t = some (body, rest)) : rest.length < t.length := by
  obtain ⟨inner, hi, h⟩ := Option.bind_eq_some_iff.1 h
  have h₁ := Text.length_of_isPrefixOf? hi
  split at h
  · simp at h
  · have h₂ := length_of_body? h
    omega

theorem length_of_spanAt? {s : Delimited} {t out rest : Text}
    (h : s.spanAt? t = some (out, rest)) : rest.length < t.length := by
  obtain ⟨mark, _, hm⟩ := List.exists_of_findSome?_eq_some h
  obtain ⟨⟨body, r⟩, hb, he⟩ := Option.map_eq_some_iff.1 hm
  simp only [Prod.mk.injEq] at he
  obtain ⟨-, rfl⟩ := he
  exact length_of_bodyAt? hb

/-- The spans of a style. -/
def pattern (s : Delimited) : Text.Pattern where
  spanAt? := s.spanAt?
  length_lt := length_of_spanAt?

/-- Write the spans of a style from left to right. -/
def format (s : Delimited) (t : Text) : Text := s.pattern.replace t

/-! ## The three styles -/

/-- Strong text, between two asterisks or two underscores. -/
def strong : Delimited where
  marks := ["**".toList, "__".toList]
  bodyMayStartWithMark := false
  write := element "strong".toList

/-- Emphasis, between single asterisks or underscores. -/
def emphasis : Delimited where
  marks := ["*".toList, "_".toList]
  bodyMayStartWithMark := false
  write := element "em".toList

/-- Code, between backticks; its body is encoded. -/
def code : Delimited where
  marks := ["`".toList]
  bodyMayStartWithMark := true
  write body := element "code".toList (Entity.encode body)

/-- Write strong text, then emphasis, then code. -/
def inlineFormats (t : Text) : Text := code.format (emphasis.format (strong.format t))

end Delimited

end MarkdownPreview

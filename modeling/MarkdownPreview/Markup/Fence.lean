import MarkdownPreview.Markup.Tag
import MarkdownPreview.Text.Entity
import MarkdownPreview.Text.Pattern
/-!
# Fenced code

A fence is three backticks. Fences pair up from left to right, and what stands between two of them
becomes a code block, encoded and without the line break right after the first fence and right
before the second. A fence without a partner is text.
-/

namespace MarkdownPreview.Fence

/-- The fence. -/
def mark : Text := "```".toList

/-- The text without the one line break it starts with. -/
def dropFirstBreak (t : Text) : Text :=
  ((['\r', '\n'].isPrefixOf? t).or (['\n'].isPrefixOf? t)).getD t

/-- The text without the one line break it ends with. -/
def dropLastBreak (t : Text) : Text :=
  ((['\r', '\n'].isSuffixOf? t).or (['\n'].isSuffixOf? t)).getD t

/-- The code block that stands for what two fences enclose. -/
def block (code : Text) : Text :=
  element "pre".toList (element "code".toList (Entity.encode (dropLastBreak (dropFirstBreak code))))

/-- The fenced code a text starts with, as a block. -/
def blockAt? (t : Text) : Option (Text × Text) :=
  (mark.isPrefixOf? t).bind fun inner =>
    (Text.cut? mark inner).map fun (code, rest) => (block code, rest)

theorem length_of_blockAt? {t out rest : Text} (h : blockAt? t = some (out, rest)) :
    rest.length < t.length := by
  obtain ⟨inner, hi, h⟩ := Option.bind_eq_some_iff.1 h
  obtain ⟨⟨code, r⟩, hc, he⟩ := Option.map_eq_some_iff.1 h
  simp only [Prod.mk.injEq] at he
  have h₁ := Text.length_of_isPrefixOf? hi
  have h₂ := Text.length_of_cut? hc
  have h₃ : mark.length = 3 := rfl
  rw [← he.2]
  omega

/-- Pairs of fences as spans. -/
def pattern : Text.Pattern where
  spanAt? := blockAt?
  length_lt := length_of_blockAt?

/-- Write every pair of fences as a code block. -/
def codeBlocks (t : Text) : Text := pattern.replace t

end MarkdownPreview.Fence

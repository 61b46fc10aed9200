import MarkdownPreview.Markup.Tag
import MarkdownPreview.Text.Blank
import MarkdownPreview.Text.Line
/-!
# Headings

A heading line is one or more `#`, a space or a tab, and at least one more character. The number of
`#` is the level, six at most, and the title is trimmed, which may leave it empty.
-/

namespace MarkdownPreview

/-- A heading: its level and its title. -/
structure Heading where
  level : Nat
  title : Text
  deriving DecidableEq, Repr

namespace Heading

/-- The deepest level of a heading. -/
def maxLevel : Nat := 6

/-- The heading a line is. -/
def ofLine? (line : Text) : Option Heading :=
  let hashes := line.takeWhile (· == '#')
  match line.dropWhile (· == '#') with
  | b :: c :: rest =>
    if hashes ≠ [] ∧ (b = ' ' ∨ b = '\t') then
      some ⟨min hashes.length maxLevel, Text.trim (c :: rest)⟩
    else none
  | _ => none

/-- The heading as an element. -/
def html (h : Heading) : Text := element ('h' :: Text.decimal h.level) h.title

/-- A heading line becomes its element; another line is left alone. -/
def line (l : Text) : Text :=
  match ofLine? l with
  | some h => h.html
  | none => l

/-- Write the headings of a text as elements. -/
def headings (t : Text) : Text := Text.mapLines line t

end Heading

end MarkdownPreview

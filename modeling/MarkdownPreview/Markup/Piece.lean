import MarkdownPreview.Text.Basic
/-!
# Pieces of a text

A block pass reads a text line by line and answers with pieces: lines it leaves alone and markup it
writes in place of others. Printed, a line keeps the break after it as long as a piece follows, and
markup takes none, so a block that replaces several lines leaves no break of its own behind. Lines
alone print as the text they were cut from (`print_map_line`).
-/

namespace MarkdownPreview

/-- One piece of what a block pass writes. -/
inductive Piece
  /-- Markup that stands for a line, or opens or closes a block. -/
  | markup (text : Text)
  /-- A line that is left alone. -/
  | line (text : Text)
  deriving DecidableEq, Repr

namespace Piece

/-- The text of the pieces, a break after every line but a last one. -/
def print : List Piece → Text
  | [] => []
  | .markup m :: ps => m ++ print ps
  | [.line l] => l
  | .line l :: p :: ps => l ++ '\n' :: print (p :: ps)

theorem print_markup (m : Text) (ps : List Piece) : print (.markup m :: ps) = m ++ print ps := rfl

theorem print_line_cons (l : Text) (p : Piece) (ps : List Piece) :
    print (.line l :: p :: ps) = l ++ '\n' :: print (p :: ps) := rfl

/-- Lines that are left alone print as the text they are cut from. -/
theorem print_map_line (ls : List Text) : print (ls.map .line) = Text.joinLines ls := by
  induction ls with
  | nil => rfl
  | cons l ls ih =>
    cases ls with
    | nil => simp [print, Text.joinLines, List.intercalate, List.intersperse]
    | cons l' ls =>
      simp only [List.map_cons, print_line_cons] at ih ⊢
      rw [ih]
      simp [Text.joinLines, List.intercalate, List.intersperse]

end Piece

end MarkdownPreview

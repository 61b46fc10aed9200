import MarkdownPreview.Markup.Piece
import MarkdownPreview.Markup.Tag
import MarkdownPreview.Text.Blank
/-!
# Quotes

A quote line is one or more `>`, one blank, and at least one more character; the number of `>` is
its depth. From one line to the next the quotes are closed or opened one level at a time, and a line
that is no quote line has depth 0, so quotes never reach past it.
-/

namespace MarkdownPreview

/-- A line of a quote: how deep it is quoted, and what it says. -/
structure QuoteLine where
  depth : Nat
  content : Text
  deriving DecidableEq, Repr

namespace QuoteLine

/-- The quote line a line is. -/
def ofLine? (line : Text) : Option QuoteLine :=
  let markers := line.takeWhile (· == '>')
  match line.dropWhile (· == '>') with
  | b :: c :: rest =>
    if markers ≠ [] ∧ Text.isBlank b = true then some ⟨markers.length, c :: rest⟩ else none
  | _ => none

/-- Close or open quotes to get from one depth to another. -/
def step (source target : Nat) : List Piece :=
  List.replicate (source - target) (.markup (closeTag "blockquote".toList)) ++
    List.replicate (target - source) (.markup (openTag "blockquote".toList))

/-- What is written for lines that follow a line of the given depth. -/
def pieces : Nat → List Text → List Piece
  | depth, [] => step depth 0
  | depth, l :: ls =>
    match ofLine? l with
    | some q => step depth q.depth ++ .markup (q.content ++ "<br>".toList) :: pieces q.depth ls
    | none => step depth 0 ++ .line l :: pieces 0 ls

/-- Write the quotes of a text as elements. -/
def blockquotes (t : Text) : Text := Piece.print (pieces 0 (Text.lines t))

end QuoteLine

end MarkdownPreview

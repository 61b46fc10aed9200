import MarkdownPreview.Text.Blank
/-!
# Column alignments

A delimiter cell sets the alignment of its column by its colons: one at each end centres the column,
one at the end alone moves it to the right, anything else leaves it on the left.
-/

namespace MarkdownPreview

/-- How the cells of a column are aligned. -/
inductive Alignment
  | left
  | center
  | right
  deriving DecidableEq, Repr

namespace Alignment

/-- The alignment a delimiter cell asks for; a lone colon is at the end only. -/
def ofDelimiter (cell : Text) : Alignment :=
  let cell := Text.trim cell
  if cell.getLast? = some ':' then
    if cell.head? = some ':' ∧ 1 < cell.length then .center else .right
  else .left

/-- The value of the `text-align` property. -/
def css : Alignment → Text
  | .left => "left".toList
  | .center => "center".toList
  | .right => "right".toList

end Alignment

end MarkdownPreview

import MarkdownPreview.Text.Line
/-!
# Horizontal rules

A line of three or more of one of `-`, `*` and `_`, and of nothing else, is a rule.
-/

namespace MarkdownPreview.Rule

/-- The characters a rule is drawn with. -/
def marks : List Char := ['-', '*', '_']

/-- The line is a rule. -/
def isRule (line : Text) : Bool :=
  3 ≤ line.length && marks.any fun m => line.all (· == m)

/-- A rule becomes `<hr>`; another line is left alone. -/
def line (l : Text) : Text := if isRule l then "<hr>".toList else l

/-- Draw the rules of a text. -/
def horizontalRules (t : Text) : Text := Text.mapLines line t

end MarkdownPreview.Rule

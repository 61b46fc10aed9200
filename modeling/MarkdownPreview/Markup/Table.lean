import MarkdownPreview.Markup.Alignment
import MarkdownPreview.Markup.Piece
import MarkdownPreview.Markup.Tag
/-!
# Tables

A row is a line between two bars with something between them, and its cells stand between the bars.
A table opens where a row outside a table is directly followed by a delimiter row; the delimiter row
sets the columns' alignments and is not written. From there on every row belongs to the table, one
that looks like a delimiter row too, and the first other line closes it.

`isDelimiter` reads a delimiter row from left to right and knows nothing of `cells?`, which cuts at
the bars.
-/

namespace MarkdownPreview.Table

/-! ## Rows -/

/-- The cells of a row, trimmed. -/
def cells? : Text → Option (List Text)
  | '|' :: t =>
    if t.getLast? = some '|' ∧ 2 ≤ t.length then some ((t.dropLast.splitOn '|').map Text.trim)
    else none
  | _ => none

/-- A text without the colon it starts with. -/
def dropColon (t : Text) : Text := ([':'].isPrefixOf? t).getD t

theorem length_dropColon_le (t : Text) : (dropColon t).length ≤ t.length := by
  unfold dropColon
  cases h : [':'].isPrefixOf? t with
  | none => simp
  | some rest => simp [Text.length_of_isPrefixOf? h]

/-- What follows a delimiter cell and the bar that ends it: a cell is one or more dashes, with a
colon or none at each end, and blanks around it. -/
def delimiterCell? (t : Text) : Option Text :=
  let start := dropColon (Text.trimStart t)
  match start.head? with
  | some '-' => ['|'].isPrefixOf? (Text.trimStart (dropColon (start.dropWhile (· == '-'))))
  | _ => none

theorem length_of_delimiterCell? {t rest : Text} (h : delimiterCell? t = some rest) :
    rest.length < t.length := by
  simp only [delimiterCell?] at h
  split at h
  · have h₁ := Text.length_of_isPrefixOf? h
    have h₂ := Text.length_dropWhile_le Text.isBlank
      (dropColon ((dropColon (Text.trimStart t)).dropWhile (· == '-')))
    have h₃ := length_dropColon_le ((dropColon (Text.trimStart t)).dropWhile (· == '-'))
    have h₄ := Text.length_dropWhile_le (· == '-') (dropColon (Text.trimStart t))
    have h₅ := length_dropColon_le (Text.trimStart t)
    have h₆ := Text.length_dropWhile_le Text.isBlank t
    simp only [List.length_cons, List.length_nil, Text.trimStart] at h₁ h₂ h₃ h₄ h₅ h₆
    omega
  · simp at h

/-- The text is one or more delimiter cells. -/
def isDelimiterCells (t : Text) : Bool :=
  match _h : delimiterCell? t with
  | none => false
  | some [] => true
  | some (c :: rest) => isDelimiterCells (c :: rest)
termination_by t.length
decreasing_by exact length_of_delimiterCell? ‹_›

/-- The line is a delimiter row: a bar and delimiter cells. -/
def isDelimiter : Text → Bool
  | '|' :: t => isDelimiterCells t
  | _ => false

/-- The alignments a delimiter row sets, column by column. -/
def columns? (line : Text) : Option (List Alignment) :=
  if isDelimiter line then (cells? line).map fun cells => cells.map Alignment.ofDelimiter else none

/-! ## Lines and rows in order -/

/-- What a line of a text is to its tables. -/
inductive Event
  /-- A header row opens a table with these columns. -/
  | opens (columns : List Alignment) (header : List Text)
  /-- A row of the open table. -/
  | row (columns : List Alignment) (cells : List Text)
  /-- The open table ends. -/
  | closes
  /-- A line outside the tables. -/
  | line (text : Text)
  deriving DecidableEq, Repr

/-- Read lines, given the columns of the table that is open, if one is. -/
def events : Option (List Alignment) → List Text → List Event
  | none, [] => []
  | some _, [] => [.closes]
  | some columns, l :: ls =>
    match cells? l with
    | some cells => .row columns cells :: events (some columns) ls
    | none => .closes :: .line l :: events none ls
  | none, [l] => [.line l]
  | none, l :: d :: ls =>
    match cells? l, columns? d with
    | some header, some columns => .opens columns header :: events (some columns) ls
    | _, _ => .line l :: events none (d :: ls)

/-! ## Writing -/

/-- A cell, aligned as its column. -/
def cell (tag : Text) (alignment : Alignment) (content : Text) : Text :=
  '<' :: tag ++ " style=\"text-align: ".toList ++ alignment.css ++ "\">".toList ++ content ++
    closeTag tag

/-- The cells of a row, those beyond the last column on the left. -/
def row (tag : Text) : List Alignment → List Text → Text
  | _, [] => []
  | columns, c :: cs => cell tag (columns.headD .left) c ++ row tag columns.tail cs

/-- What is written for an event. -/
def Event.piece : Event → Piece
  | .opens columns header =>
    .markup ("<table><thead><tr>".toList ++ Table.row "th".toList columns header ++
      "</tr></thead><tbody>".toList)
  | .row columns cells => .markup (element "tr".toList (Table.row "td".toList columns cells))
  | .closes => .markup "</tbody></table>".toList
  | .line l => .line l

/-- Write the tables of a text as elements. -/
def tables (t : Text) : Text := Piece.print ((events none (Text.lines t)).map Event.piece)

end MarkdownPreview.Table

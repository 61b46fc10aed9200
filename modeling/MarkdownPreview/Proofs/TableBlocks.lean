import MarkdownPreview.Proofs.BlockEnd
/-!
# Tables as blocks of lines

`Grouped ls blocks` is the grammar of tables: where a row has a delimiter row right below it a table
starts, and it takes all the rows that follow, also those that look like delimiter rows; every other
line stands alone. There is one way to group the lines of a text (`exists_grouped`,
`Grouped.unique`).

A table is written from its own lines only (`tableHtml`): its header and its rows cell by cell, each
cell aligned as its delimiter row says (`alignment`). Main result `tables_eq_blocks`: the pass, which
carries the columns of the open table from line to line and looks one line ahead, writes block after
block. The step lemma is `events_body`, what is read of the rows of an open table up to its end.
-/

namespace MarkdownPreview.Table

open Text

/-! ## Rows -/

/-- The cells of a row: what stands between its bars, trimmed. -/
def rowCells (l : Text) : List Text := (l.tail.dropLast.splitOn '|').map trim

theorem cells?_eq_some_iff {l : Text} {cells : List Text} :
    cells? l = some cells ↔ IsRow l ∧ cells = rowCells l := by
  constructor
  · intro h
    refine ⟨by simp [IsRow, h], ?_⟩
    obtain ⟨inner, rfl, rfl⟩ := cells?_eq_some h
    simp [rowCells]
  · rintro ⟨hl, rfl⟩
    obtain ⟨cells, hcells⟩ := Option.isSome_iff_exists.1 hl
    obtain ⟨inner, rfl, rfl⟩ := cells?_eq_some hcells
    simpa [rowCells] using hcells

theorem cells?_of_isRow {l : Text} (h : IsRow l) : cells? l = some (rowCells l) :=
  cells?_eq_some_iff.2 ⟨h, rfl⟩

theorem cells?_of_not_isRow {l : Text} (h : ¬ IsRow l) : cells? l = none := by
  simpa [IsRow] using h

/-! ## Alignments -/

/-- The alignment a delimiter cell sets: centred with a colon at both ends, right with one at the
end only, else left. -/
def alignment (cell : Text) : Alignment :=
  if cell.getLast? = some ':' then
    if cell.head? = some ':' then .center else .right
  else .left

theorem IsDelimiterCell.trim_eq {cell : Text} (h : IsDelimiterCell cell) : trim cell = cell := by
  have hblank : ∀ c ∈ cell, isBlank c = false := by
    intro c hc
    rcases h.chars c hc with rfl | rfl <;> decide
  exact trim_eq_self (fun c hc => hblank c (List.mem_of_mem_head? hc))
    fun c hc => hblank c (List.mem_of_mem_getLast? hc)

/-- A lone colon is no delimiter cell, so a colon at both ends is two colons. -/
theorem IsDelimiterCell.ofDelimiter_eq {cell : Text} (h : IsDelimiterCell cell) :
    Alignment.ofDelimiter cell = alignment cell := by
  have hlength : cell.head? = some ':' → 1 < cell.length := by
    intro hcolon
    obtain ⟨t, rfl⟩ := List.head?_eq_some_iff.1 hcolon
    have hdash : '-' ∈ t := by simpa using h.dash_mem
    have := List.length_pos_of_mem hdash
    simpa using this
  simp only [Alignment.ofDelimiter, h.trim_eq, alignment]
  split
  · by_cases hcolon : cell.head? = some ':'
    · simp [hcolon, hlength hcolon]
    · simp [hcolon]
  · rfl

theorem delimiterCell?_trim {t rest : Text} (h : delimiterCell? t = some rest) :
    ∃ part, t = part ++ '|' :: rest ∧ '|' ∉ part ∧ IsDelimiterCell (trim part) := by
  obtain ⟨before, cell, behind, rfl, hbefore, hcell, hbehind⟩ := delimiterCell?_eq_some h
  refine ⟨before ++ cell ++ behind, rfl, ?_, ?_⟩
  · have hbar : isBlank '|' = false := by decide
    simp only [List.mem_append, not_or]
    refine ⟨⟨fun hm => ?_, fun hm => ?_⟩, fun hm => ?_⟩
    · simp [hbefore _ hm] at hbar
    · rcases hcell.chars _ hm with h | h <;> simp at h
    · simp [hbehind _ hm] at hbar
  · rw [trim_append_blanks hbehind, trim_blanks_append hbefore, hcell.trim_eq]
    exact hcell

/-- What the bars of a delimiter row enclose are delimiter cells with blanks around them. -/
theorem isDelimiterCell_of_mem {t : Text} (h : isDelimiterCells t = true) :
    ∀ part ∈ t.dropLast.splitOn '|', IsDelimiterCell (trim part) := by
  fun_induction isDelimiterCells t with
  | case1 t hc => simp at h
  | case2 t hc =>
    obtain ⟨cell, rfl, hbar, hcell⟩ := delimiterCell?_trim hc
    simpa [List.splitOn_eq_singleton hbar] using hcell
  | case3 t c rest hc ih =>
    obtain ⟨cell, rfl, hbar, hcell⟩ := delimiterCell?_trim hc
    have hlast : (cell ++ '|' :: c :: rest).dropLast = cell ++ '|' :: (c :: rest).dropLast := by
      simp
    rw [hlast, List.splitOn_append_cons_self, List.splitOn_eq_singleton hbar]
    simpa using ⟨hcell, ih h⟩

theorem isDelimiterCell_of_mem_rowCells {d : Text} (h : isDelimiter d = true) :
    ∀ cell ∈ rowCells d, IsDelimiterCell cell := by
  intro cell hcell
  obtain ⟨part, hpart, rfl⟩ := List.mem_map.1 hcell
  unfold isDelimiter at h
  split at h
  · exact isDelimiterCell_of_mem h part hpart
  · simp at h

/-- A delimiter row sets the alignment of every column. -/
theorem columns?_of_isDelimiter {d : Text} (h : isDelimiter d = true) :
    columns? d = some ((rowCells d).map alignment) := by
  rw [columns?, if_pos h, cells?_of_isRow (isRow_of_isDelimiter h), Option.map_some]
  refine congrArg some (List.map_congr_left fun cell hcell => ?_)
  exact (isDelimiterCell_of_mem_rowCells h cell hcell).ofDelimiter_eq

/-! ## The grammar -/

/-- A block of lines: a table, or a line outside the tables. -/
inductive Block
  | table (header delimiter : Text) (body : List Text)
  | line (text : Text)

/-- The lines of a block. -/
def Block.lines : Block → List Text
  | .table header delimiter body => header :: delimiter :: body
  | .line l => [l]

/-- How lines fall into blocks. -/
inductive Grouped : List Text → List Block → Prop
  | nil : Grouped [] []
  /-- A row with a delimiter row right below it starts a table, with all the rows that follow. -/
  | table {header delimiter : Text} {body rest : List Text} {blocks : List Block} :
    IsRow header → isDelimiter delimiter = true → (∀ r ∈ body, IsRow r) →
    (∀ l ∈ rest.head?, ¬ IsRow l) → Grouped rest blocks →
    Grouped (header :: delimiter :: (body ++ rest)) (.table header delimiter body :: blocks)
  /-- Another line stands alone. -/
  | line {l : Text} {rest : List Text} {blocks : List Block} :
    ¬ (IsRow l ∧ ∃ d ∈ rest.head?, isDelimiter d = true) → Grouped rest blocks →
    Grouped (l :: rest) (.line l :: blocks)

/-! ## Writing -/

/-- A cell, styled as the alignment of its column asks for. -/
def styledCell (tag : Text) (alignment : Alignment) (content : Text) : Text :=
  let side := match alignment with
    | .left => "left".toList
    | .center => "center".toList
    | .right => "right".toList
  '<' :: tag ++ " style=\"text-align: ".toList ++ side ++ "\">".toList ++ content ++
    ('<' :: '/' :: tag ++ ['>'])

theorem cell_eq (tag : Text) (alignment : Alignment) (content : Text) :
    cell tag alignment content = styledCell tag alignment content := by
  cases alignment <;> rfl

/-- The cells of a row, the one at column `c` aligned as column `c`, and on the left beyond the last
column. -/
def alignedCells (tag : Text) (columns : List Alignment) (l : Text) : Text :=
  (rowCells l).zipIdx.flatMap fun x => styledCell tag (columns.getD x.2 .left) x.1

/-- A table: its header, and its body row by row. -/
def tableHtml (header delimiter : Text) (body : List Text) : Text :=
  let columns := (rowCells delimiter).map alignment
  element "table".toList
    (element "thead".toList (element "tr".toList (alignedCells "th".toList columns header)) ++
      element "tbody".toList
        (body.flatMap fun r => element "tr".toList (alignedCells "td".toList columns r)))

/-- What is written for a block. -/
def Block.piece : Block → Piece
  | .table header delimiter body => .markup (tableHtml header delimiter body)
  | .line l => .line l

/-! ## One grouping -/

/-- The lines of some blocks are read in order, none twice. -/
theorem Grouped.flatMap_lines {ls : List Text} {blocks : List Block} (h : Grouped ls blocks) :
    blocks.flatMap Block.lines = ls := by
  induction h with
  | nil => rfl
  | table _ _ _ _ _ ih => simp [Block.lines, ih]
  | line _ _ ih => simp [Block.lines, ih]

theorem head_dropWhile (ls : List Text) : ∀ l ∈ (ls.dropWhile (IsRow ·)).head?, ¬ IsRow l := by
  intro l hl
  have hnot := List.head?_dropWhile_not (IsRow ·) ls
  rw [Option.mem_def] at hl
  simpa [hl] using hnot

theorem exists_grouped (ls : List Text) : ∃ blocks, Grouped ls blocks := by
  induction hn : ls.length using Nat.strongRecOn generalizing ls with
  | ind n ih =>
    subst hn
    cases ls with
    | nil => exact ⟨[], .nil⟩
    | cons l rest =>
      by_cases hopen : IsRow l ∧ ∃ d ∈ rest.head?, isDelimiter d = true
      · obtain ⟨hl, d, hd, hdelimiter⟩ := hopen
        obtain ⟨below, rfl⟩ := List.head?_eq_some_iff.1 hd
        have hshort := (List.dropWhile_sublist (IsRow ·) (l := below)).length_le
        obtain ⟨blocks, hblocks⟩ := ih _ (by simp; omega) (below.dropWhile (IsRow ·)) rfl
        refine ⟨.table l d (below.takeWhile (IsRow ·)) :: blocks, ?_⟩
        have hbelow := List.takeWhile_append_dropWhile (p := (IsRow ·)) (l := below)
        have hrows : ∀ r ∈ below.takeWhile (IsRow ·), IsRow r := by
          intro r hr
          have hr := List.mem_takeWhile_imp hr
          exact of_decide_eq_true hr
        have htable := Grouped.table hl hdelimiter hrows (head_dropWhile below) hblocks
        rwa [hbelow] at htable
      · obtain ⟨blocks, hblocks⟩ := ih _ (by simp) rest rfl
        exact ⟨.line l :: blocks, .line hopen hblocks⟩

/-- The rows at the start of some lines, as many as there are. -/
theorem span_rows {body rest : List Text} (hbody : ∀ r ∈ body, IsRow r)
    (hrest : ∀ l ∈ rest.head?, ¬ IsRow l) :
    (body ++ rest).takeWhile (IsRow ·) = body ∧ (body ++ rest).dropWhile (IsRow ·) = rest := by
  have hpos : ∀ r ∈ body, decide (IsRow r) = true := fun r hr => by simpa using hbody r hr
  rw [List.takeWhile_append_of_pos hpos, List.dropWhile_append_of_pos hpos]
  cases rest with
  | nil => simp
  | cons l rest =>
    have hl : ¬ IsRow l := hrest l rfl
    simp [hl]

theorem Grouped.unique {ls : List Text} {blocks blocks' : List Block} (h : Grouped ls blocks)
    (h' : Grouped ls blocks') : blocks = blocks' := by
  induction h generalizing blocks' with
  | nil => cases h' with
    | nil => rfl
  | @table header delimiter body rest blocks hheader hdelimiter hbody hrest _ ih =>
    generalize hls : header :: delimiter :: (body ++ rest) = ls at h'
    cases h' with
    | nil => simp at hls
    | @table header' delimiter' body' rest' blocks' _ _ hbody' hrest' h' =>
      simp only [List.cons.injEq] at hls
      obtain ⟨rfl, rfl, hls⟩ := hls
      obtain ⟨htake, hdrop⟩ := span_rows hbody hrest
      obtain ⟨htake', hdrop'⟩ := span_rows hbody' hrest'
      rw [hls, htake'] at htake
      rw [hls, hdrop'] at hdrop
      subst htake hdrop
      rw [ih h']
    | line hline _ =>
      simp only [List.cons.injEq] at hls
      obtain ⟨rfl, rfl⟩ := hls
      exact absurd ⟨hheader, delimiter, rfl, hdelimiter⟩ hline
  | @line l rest blocks hline _ ih =>
    generalize hls : l :: rest = ls at h'
    cases h' with
    | nil => simp at hls
    | @table header' delimiter' _ _ _ hheader hdelimiter _ _ _ =>
      simp only [List.cons.injEq] at hls
      obtain ⟨rfl, rfl⟩ := hls
      exact absurd ⟨hheader, delimiter', rfl, hdelimiter⟩ hline
    | line _ h' =>
      simp only [List.cons.injEq] at hls
      obtain ⟨rfl, rfl⟩ := hls
      rw [ih h']

/-! ## The whole pass -/

theorem row_eq_alignedCells (tag : Text) (columns : List Alignment) (l : Text) :
    row tag columns (rowCells l) = alignedCells tag columns l := by
  -- the columns that are left are those from the number of the next cell on
  have hfrom : ∀ (cells : List Text) (n : Nat), row tag (columns.drop n) cells =
      (cells.zipIdx n).flatMap fun x => styledCell tag (columns.getD x.2 .left) x.1 := by
    intro cells
    induction cells with
    | nil => intro n; rfl
    | cons c cells ih =>
      intro n
      have hhead : (columns.drop n).headD .left = columns.getD n .left := by
        simp [List.headD_eq_head?_getD, List.head?_drop]
      rw [row, hhead, List.tail_drop, ih, List.zipIdx_cons, List.flatMap_cons, cell_eq]
  exact hfrom (rowCells l) 0

/-- What is read of an open table: its rows, and its end before the first other line. -/
theorem events_body (columns : List Alignment) {rest : List Text}
    (hrest : ∀ l ∈ rest.head?, ¬ IsRow l) : ∀ {body : List Text}, (∀ r ∈ body, IsRow r) →
    events (some columns) (body ++ rest) =
      body.map (fun r => .row columns (rowCells r)) ++ .closes :: events none rest
  | [], _ => by
    cases rest with
    | nil => simp [events]
    | cons l rest =>
      have hl : cells? l = none := cells?_of_not_isRow (hrest l rfl)
      simp [events, hl, events_plain hl]
  | r :: body, hbody => by
    have hr : cells? r = some (rowCells r) := cells?_of_isRow (hbody r List.mem_cons_self)
    have ih := events_body columns hrest fun r' hr' => hbody r' (List.mem_cons_of_mem _ hr')
    simp [events, hr, ih]

theorem print_rows (columns : List Alignment) (ps : List Piece) : ∀ body : List Text,
    Piece.print (body.map (fun r => (Event.row columns (rowCells r)).piece) ++ ps) =
      (body.flatMap fun r => element "tr".toList (alignedCells "td".toList columns r)) ++
        Piece.print ps
  | [] => rfl
  | r :: body => by
    have ih := print_rows columns ps body
    rw [List.map_cons, List.cons_append, Event.piece, Piece.print_markup, ih, row_eq_alignedCells,
      List.flatMap_cons, List.append_assoc]

/-- Pieces below a line are printed below a break, if there are any. -/
theorem print_line_congr {l : Text} {ps qs : List Piece} (hnil : ps = [] ↔ qs = [])
    (h : Piece.print ps = Piece.print qs) :
    Piece.print (.line l :: ps) = Piece.print (.line l :: qs) := by
  cases ps with
  | nil => rw [hnil.1 rfl]
  | cons p ps =>
    obtain ⟨q, qs, rfl⟩ := List.exists_cons_of_ne_nil (mt hnil.2 (by simp))
    rw [Piece.print_line_cons, Piece.print_line_cons, h]

theorem events_table {header delimiter : Text} (hheader : IsRow header)
    (hdelimiter : isDelimiter delimiter = true) (below : List Text) :
    events none (header :: delimiter :: below) =
      .opens ((rowCells delimiter).map alignment) (rowCells header) ::
        events (some ((rowCells delimiter).map alignment)) below := by
  rw [events, cells?_of_isRow hheader, columns?_of_isDelimiter hdelimiter]

theorem events_line {l : Text} {rest : List Text}
    (hline : ¬ (IsRow l ∧ ∃ d ∈ rest.head?, isDelimiter d = true)) :
    events none (l :: rest) = .line l :: events none rest := by
  cases rest with
  | nil => rfl
  | cons d below =>
    rw [events]
    split
    · next hl hd =>
      exact absurd ⟨(cells?_eq_some_iff.1 hl).1, d, rfl, (columns?_eq_some hd).1⟩ hline
    · rfl

/-- The tags that a table begins with, those between its header and its body, and those at its end. -/
theorem table_tags :
    "<table><thead><tr>".toList =
      openTag "table".toList ++ openTag "thead".toList ++ openTag "tr".toList ∧
    "</tr></thead><tbody>".toList =
      closeTag "tr".toList ++ closeTag "thead".toList ++ openTag "tbody".toList ∧
    "</tbody></table>".toList = closeTag "tbody".toList ++ closeTag "table".toList := by
  decide +kernel

/-- Block by block: the pass writes some lines as the blocks they are grouped into. -/
theorem print_events {ls : List Text} {blocks : List Block} (h : Grouped ls blocks) :
    Piece.print ((events none ls).map Event.piece) = Piece.print (blocks.map Block.piece) := by
  induction h with
  | nil => rfl
  | @table header delimiter body rest blocks hheader hdelimiter hbody hrest _ ih =>
    rw [events_table hheader hdelimiter, events_body _ hrest hbody]
    simp only [List.map_cons, List.map_append, List.map_map, Function.comp_def]
    obtain ⟨hopens, hturns, hcloses⟩ := table_tags
    rw [Event.piece, Piece.print_markup, print_rows, Event.piece, Piece.print_markup, ih,
      Block.piece, Piece.print_markup, row_eq_alignedCells, hopens, hturns, hcloses]
    simp only [tableHtml, element, List.append_assoc]
  | @line l rest blocks hline h ih =>
    rw [events_line hline]
    refine print_line_congr ?_ ih
    rw [List.map_eq_nil_iff, List.map_eq_nil_iff]
    cases h with
    | nil => simp [events]
    | table => simp [events_ne_nil]
    | line => simp [events_ne_nil]

/-- **Tables are written block by block.** The lines of a text fall into blocks in one way: a row
with a delimiter row right below it starts a table with all the rows that follow, and every other
line stands alone. No line is lost or moved, and what is written is block after block: a table as one
element with its header, its rows and the alignments of its own delimiter row, and another line as
it is, with its break as long as a block follows. -/
theorem tables_eq_blocks (t : Text) : ∃ blocks, Grouped (lines t) blocks ∧
    (∀ other, Grouped (lines t) other → other = blocks) ∧
    blocks.flatMap Block.lines = lines t ∧
    tables t = Piece.print (blocks.map Block.piece) := by
  obtain ⟨blocks, h⟩ := exists_grouped (lines t)
  exact ⟨blocks, h, fun other hother => hother.unique h, h.flatMap_lines, print_events h⟩

/-- The second table has its own columns, and fewer of them than cells. -/
example : tables "|a|b|\n|:-:|-:|\n| c |\nx\n|d|e|\n|--|\n|:-|".toList =
    "<table><thead><tr><th style=\"text-align: center\">a</th>".toList ++
    "<th style=\"text-align: right\">b</th></tr></thead><tbody>".toList ++
    "<tr><td style=\"text-align: center\">c</td></tr></tbody></table>x\n".toList ++
    "<table><thead><tr><th style=\"text-align: left\">d</th>".toList ++
    "<th style=\"text-align: left\">e</th></tr></thead><tbody>".toList ++
    "<tr><td style=\"text-align: left\">:-</td></tr></tbody></table>".toList := by
  decide +kernel

end MarkdownPreview.Table

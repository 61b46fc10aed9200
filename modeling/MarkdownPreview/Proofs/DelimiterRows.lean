import Mathlib.Computability.Language
import MarkdownPreview.Proofs.TableBlocks
/-!
# Delimiter rows are rows

Rows and delimiter rows are two patterns, each the language of its matches. A row is a bar, one or more
characters and a bar (`rows`). A delimiter row is a bar and one or more parts with a bar behind each,
and a part is dashes with optional colons and blanks around them (`delimiterRows`). The second pattern
is read by one scanner and rows are cut by another, and a table opens only where both succeed: a
delimiter row that could not be cut into cells would lose its table.

The blanks of a part are those that are trimmed off a cell, so a part is what trims to a delimiter
cell (`mem_delimiterParts`), and it holds no bar, so cutting at the bars gives back the parts. From
this the scanner, the pattern and the cells agree in a circle: the scanner takes every match
(`isDelimiter_of_mem`), what it takes is a row of delimiter cells
(`isDelimiterCell_of_mem_rowCells`), and such a row is a match (`mem_delimiterRows_of_cells`).

Main result `delimiter_rows_readable`: the delimiter rows are exactly the rows with delimiter cells only,
they have one cell less than bars, and below a row each of them opens a table with one column for
each cell.
-/

namespace MarkdownPreview

/-! ## Patterns -/

namespace Text

open scoped Computability

/-- The texts of one character that passes a test. -/
def oneOf (p : Char → Prop) : Language Char := {t | ∃ c, p c ∧ t = [c]}

/-- The texts of a language, and the empty one. -/
def optional (L : Language Char) : Language Char := 1 + L

/-- One or more texts of a language, one behind the other. -/
def oneOrMore (L : Language Char) : Language Char := L * L∗

variable {p : Char → Prop} {t : Text} {L : Language Char}

theorem mem_oneOf : t ∈ oneOf p ↔ ∃ c, p c ∧ t = [c] := Iff.rfl

theorem mem_optional_oneOf {a : Char} : t ∈ optional (oneOf (· = a)) ↔ t ∈ [[], [a]] := by
  rw [optional, Language.mem_add, Language.mem_one, mem_oneOf]
  simp

theorem mem_oneOrMore :
    t ∈ oneOrMore L ↔ ∃ parts, parts ≠ [] ∧ (∀ part ∈ parts, part ∈ L) ∧ t = parts.flatten := by
  rw [oneOrMore, Language.mem_mul]
  constructor
  · rintro ⟨first, hfirst, rest, hrest, rfl⟩
    obtain ⟨parts, rfl, hparts⟩ := Language.mem_kstar.1 hrest
    exact ⟨first :: parts, by simp, by simpa using ⟨hfirst, hparts⟩, by simp⟩
  · rintro ⟨parts, hne, hparts, rfl⟩
    obtain ⟨first, parts, rfl⟩ := List.exists_cons_of_ne_nil hne
    rw [List.forall_mem_cons] at hparts
    exact ⟨first, hparts.1, _, Language.join_mem_kstar hparts.2, by simp⟩

theorem mem_kstar_oneOf : t ∈ (oneOf p)∗ ↔ ∀ c ∈ t, p c := by
  rw [Language.mem_kstar]
  constructor
  · rintro ⟨parts, rfl, hparts⟩ c hc
    obtain ⟨part, hpart, hc⟩ := List.mem_flatten.1 hc
    obtain ⟨a, ha, rfl⟩ := hparts part hpart
    rwa [List.mem_singleton.1 hc]
  · intro h
    refine ⟨t.map ([·]), ?_, ?_⟩
    · rw [← List.flatMap_def, List.flatMap_singleton']
    · intro part hpart
      obtain ⟨c, hc, rfl⟩ := List.mem_map.1 hpart
      exact ⟨c, h c hc, rfl⟩

theorem mem_oneOrMore_oneOf : t ∈ oneOrMore (oneOf p) ↔ t ≠ [] ∧ ∀ c ∈ t, p c := by
  rw [oneOrMore, Language.mem_mul]
  constructor
  · rintro ⟨_, ⟨c, hc, rfl⟩, rest, hrest, rfl⟩
    exact ⟨by simp, by simpa using ⟨hc, mem_kstar_oneOf.1 hrest⟩⟩
  · rintro ⟨hne, h⟩
    obtain ⟨c, rest, rfl⟩ := List.exists_cons_of_ne_nil hne
    rw [List.forall_mem_cons] at h
    exact ⟨[c], ⟨c, h.1, rfl⟩, rest, mem_kstar_oneOf.2 h.2, rfl⟩

/-! ## Cutting at a character -/

/-- A text is cut at a character into one part more than it has of them. -/
theorem length_splitOn (a : Char) (t : Text) : (t.splitOn a).length = t.count a + 1 := by
  induction t with
  | nil => rfl
  | cons c t ih =>
    rw [List.splitOn_cons_eq_if_modifyHead, List.count_cons]
    split <;> simp [ih]

/-- The parts of a text with a character behind each at which it is cut. -/
theorem flatMap_splitOn (a : Char) (t : Text) : (t.splitOn a).flatMap (· ++ [a]) = t ++ [a] := by
  induction t with
  | nil => rfl
  | cons c t ih =>
    rw [List.splitOn_cons_eq_if_modifyHead]
    split
    · next hc => simp [ih, beq_iff_eq.1 hc]
    · obtain ⟨first, parts, hparts⟩ := List.exists_cons_of_ne_nil (List.splitOn_ne_nil a t)
      rw [hparts] at ih ⊢
      simpa using ih

end Text

namespace Table

open Text
open scoped Computability

/-! ## The patterns of rows -/

/-- The bar between cells. -/
def bar : Language Char := oneOf (· = '|')

/-- Rows: a bar, one or more characters that are no line break, and a bar. -/
def rows : Language Char := bar * oneOrMore (oneOf (· ≠ '\n')) * bar

/-- What stands between two bars of a delimiter row: one or more dashes, with a colon or none at each
end, and blanks around them. -/
def delimiterParts : Language Char :=
  (oneOf (isBlank · = true))∗ * optional (oneOf (· = ':')) * oneOrMore (oneOf (· = '-')) *
    optional (oneOf (· = ':')) * (oneOf (isBlank · = true))∗

/-- Delimiter rows: a bar, and one or more parts with a bar behind each. -/
def delimiterRows : Language Char := bar * oneOrMore (delimiterParts * bar)

theorem mem_bar_mul {t : Text} {L : Language Char} : t ∈ bar * L ↔ ∃ u ∈ L, t = '|' :: u := by
  simp [bar, Language.mem_mul, mem_oneOf, eq_comm]

theorem mem_mul_bar {t : Text} {L : Language Char} : t ∈ L * bar ↔ ∃ u ∈ L, t = u ++ ['|'] := by
  simp [bar, Language.mem_mul, mem_oneOf, eq_comm]

/-- The blanks the pattern allows around a cell are those that are trimmed off it. -/
theorem mem_delimiterParts {part : Text} : part ∈ delimiterParts ↔ IsDelimiterCell (trim part) := by
  simp only [delimiterParts, Language.mem_mul, mem_kstar_oneOf, mem_optional_oneOf,
    mem_oneOrMore_oneOf]
  constructor
  · rintro ⟨_, ⟨_, ⟨_, ⟨before, hbefore, first, hfirst, rfl⟩, dashes, ⟨hne, hdashes⟩, rfl⟩, last,
      hlast, rfl⟩, behind, hbehind, rfl⟩
    obtain ⟨n, rfl⟩ : ∃ n, dashes = List.replicate (n + 1) '-' := by
      obtain ⟨d, dashes, rfl⟩ := List.exists_cons_of_ne_nil hne
      exact ⟨dashes.length, List.eq_replicate_of_mem hdashes⟩
    have hcell : IsDelimiterCell (first ++ List.replicate (n + 1) '-' ++ last) :=
      ⟨first, last, n, rfl, hfirst, hlast⟩
    rw [trim_append_blanks hbehind, List.append_assoc, List.append_assoc, trim_blanks_append hbefore,
      ← List.append_assoc, hcell.trim_eq]
    exact hcell
  · rintro ⟨first, last, n, hcell, hfirst, hlast⟩
    obtain ⟨before, behind, hpart, hbefore, hbehind⟩ := trim_shape part
    rw [hcell] at hpart
    refine ⟨_, ⟨_, ⟨_, ⟨before, hbefore, first, hfirst, rfl⟩, List.replicate (n + 1) '-', ?_, rfl⟩,
      last, hlast, rfl⟩, behind, hbehind, by simp [hpart]⟩
    simp [List.mem_replicate]

/-! ## Every match is read -/

/-- What ends the dashes and colons of a part, a blank or the bar behind it, is none of them. -/
theorem exists_head_blanks_bar {behind : Text} (hbehind : ∀ c ∈ behind, isBlank c = true)
    (rest : Text) : ∃ b u, behind ++ '|' :: rest = b :: u ∧ b ≠ ':' ∧ b ≠ '-' := by
  cases behind with
  | nil => exact ⟨'|', rest, rfl, by decide, by decide⟩
  | cons b behind =>
    have hb : isBlank b = true := hbehind b List.mem_cons_self
    refine ⟨b, behind ++ '|' :: rest, rfl, ?_, ?_⟩ <;> rintro rfl <;> exact absurd hb (by decide)

theorem eq_nil_or_colon {colon : Text} (h : colon ∈ [[], [':']]) : colon = [] ∨ colon = [':'] := by
  simpa using h

theorem dropColon_append {colon : Text} (hcolon : colon ∈ [[], [':']]) {b : Char} (hb : b ≠ ':')
    (u : Text) : dropColon (colon ++ b :: u) = b :: u := by
  rcases eq_nil_or_colon hcolon with rfl | rfl
  · simp [dropColon, isPrefixOf?_cons_cons, hb.symm]
  · rw [dropColon, isPrefixOf?_append, Option.getD_some]

/-- With an optional colon in front, a text starts with the colon or as it did. -/
theorem exists_head_colon {colon : Text} (hcolon : colon ∈ [[], [':']]) {P : Char → Prop}
    (hP : P ':') {b : Char} (hb : P b) (u : Text) :
    ∃ c v, colon ++ b :: u = c :: v ∧ P c := by
  rcases eq_nil_or_colon hcolon with rfl | rfl
  · exact ⟨b, u, rfl, hb⟩
  · exact ⟨':', b :: u, rfl, hP⟩

/-- A part is read up to the bar behind it, whatever follows. -/
theorem delimiterCell?_append {part : Text} (h : IsDelimiterCell (trim part)) (rest : Text) :
    delimiterCell? (part ++ '|' :: rest) = some rest := by
  obtain ⟨first, last, n, hcell, hfirst, hlast⟩ := h
  obtain ⟨before, behind, hpart, hbefore, hbehind⟩ := trim_shape part
  obtain ⟨b, u, hu, hcolon, hdash⟩ := exists_head_blanks_bar hbehind rest
  -- each run the scanner drops ends where the part says it does: the blanks at the cell, the dashes
  -- at the last colon or at `b`, the blanks behind at the bar
  have hstart : trimStart (part ++ '|' :: rest) =
      first ++ '-' :: (List.replicate n '-' ++ (last ++ b :: u)) := by
    rw [hpart, hcell, List.append_assoc, List.append_assoc, hu, trimStart,
      List.dropWhile_append_of_pos hbefore, List.append_assoc, List.append_assoc,
      List.replicate_succ, List.cons_append]
    obtain ⟨c, v, hv, hc⟩ := exists_head_colon (P := (isBlank · = false)) hfirst (by decide)
      (b := '-') (by decide) (List.replicate n '-' ++ (last ++ b :: u))
    rw [hv]
    exact trimStart_of_not_blank hc v
  have hdashes : ('-' :: (List.replicate n '-' ++ (last ++ b :: u))).dropWhile (· == '-') =
      last ++ b :: u := by
    obtain ⟨c, v, hv, hc⟩ := exists_head_colon (P := (· ≠ '-')) hlast (by decide) hdash u
    rw [hv, ← List.cons_append, ← List.replicate_succ]
    exact dropWhile_replicate_append hc (n + 1) v
  have hbar : trimStart (b :: u) = '|' :: rest := by
    rw [← hu, trimStart, List.dropWhile_append_of_pos hbehind]
    exact trimStart_of_not_blank (by decide) rest
  simp only [delimiterCell?, hstart, dropColon_append hfirst (show '-' ≠ ':' by decide), hdashes,
    dropColon_append hlast hcolon, hbar, List.head?_cons]
  exact isPrefixOf?_append ['|'] rest

theorem isDelimiterCells_append {part : Text} (h : IsDelimiterCell (trim part)) (rest : Text) :
    isDelimiterCells (part ++ '|' :: rest) = (rest == [] || isDelimiterCells rest) := by
  have hcell := delimiterCell?_append h rest
  rw [isDelimiterCells]
  split
  · next hnone => cases hcell.symm.trans hnone
  · next hend =>
    obtain rfl : rest = [] := Option.some.inj (hcell.symm.trans hend)
    rfl
  · next c below hbelow =>
    obtain rfl : rest = c :: below := Option.some.inj (hcell.symm.trans hbelow)
    rfl

theorem isDelimiterCells_flatten : ∀ {barred : List Text}, barred ≠ [] →
    (∀ b ∈ barred, b ∈ delimiterParts * bar) → isDelimiterCells barred.flatten = true
  | b :: barred, _, h => by
    rw [List.forall_mem_cons, mem_mul_bar] at h
    obtain ⟨⟨part, hpart, rfl⟩, hbarred⟩ := h
    rw [List.flatten_cons, List.append_assoc, List.singleton_append,
      isDelimiterCells_append (mem_delimiterParts.1 hpart)]
    cases barred with
    | nil => rfl
    | cons next barred =>
      rw [isDelimiterCells_flatten (List.cons_ne_nil next barred) hbarred, Bool.or_true]

theorem isDelimiter_of_mem {l : Text} (h : l ∈ delimiterRows) : isDelimiter l = true := by
  obtain ⟨t, ht, rfl⟩ := mem_bar_mul.1 h
  obtain ⟨barred, hne, hbarred, rfl⟩ := mem_oneOrMore.1 ht
  exact isDelimiterCells_flatten hne hbarred

/-! ## Rows of delimiter cells -/

variable {l : Text}

/-- A row with delimiter cells only matches the pattern of delimiter rows. -/
theorem mem_delimiterRows_of_cells {cells : List Text} (h : cells? l = some cells)
    (hcells : ∀ cell ∈ cells, IsDelimiterCell cell) : l ∈ delimiterRows := by
  obtain ⟨inner, rfl, rfl⟩ := cells?_eq_some h
  have hbarred : inner ++ ['|'] ∈ oneOrMore (delimiterParts * bar) := by
    refine mem_oneOrMore.2 ⟨(inner.splitOn '|').map (· ++ ['|']), ?_, ?_, ?_⟩
    · simp [List.splitOn_ne_nil]
    · intro barred hb
      obtain ⟨part, hpart, rfl⟩ := List.mem_map.1 hb
      have hcell := hcells (trim part) (List.mem_map_of_mem hpart)
      exact mem_mul_bar.2 ⟨part, mem_delimiterParts.2 hcell, rfl⟩
    · rw [← List.flatMap_def, flatMap_splitOn]
  exact mem_bar_mul.2 ⟨_, hbarred, rfl⟩

/-- The scanner accepts the matches of the pattern. -/
theorem isDelimiter_iff : isDelimiter l = true ↔ l ∈ delimiterRows := by
  constructor
  · intro h
    exact mem_delimiterRows_of_cells (cells?_of_isRow (isRow_of_isDelimiter h))
      (isDelimiterCell_of_mem_rowCells h)
  · exact isDelimiter_of_mem

/-- A row has one cell less than it has bars. -/
theorem length_rowCells (h : IsRow l) : (rowCells l).length + 1 = l.count '|' := by
  obtain ⟨inner, rfl, hcells⟩ := cells?_eq_some (cells?_of_isRow h)
  rw [hcells, List.length_map, length_splitOn]
  simp

theorem isRow_iff (hline : '\n' ∉ l) : IsRow l ↔ l ∈ rows := by
  simp only [rows, mem_mul_bar, mem_bar_mul, mem_oneOrMore_oneOf]
  constructor
  · intro h
    obtain ⟨inner, rfl, -⟩ := cells?_eq_some (cells?_of_isRow h)
    refine ⟨'|' :: inner, ⟨inner, ⟨?_, ?_⟩, rfl⟩, rfl⟩
    · rintro rfl
      simp [IsRow, cells?] at h
    · rintro c hc rfl
      exact hline (by simp [hc])
  · rintro ⟨_, ⟨inner, ⟨hne, -⟩, rfl⟩, rfl⟩
    have hlength := List.length_pos_iff.2 hne
    simp [IsRow, cells?]
    omega

/-- **Delimiter rows are rows.** The scanners of rows and of delimiter rows accept the matches of their
patterns, and the delimiter rows are exactly the rows whose trimmed cells are all dashes with a
colon or none at each end. Such a row has one cell less than it has bars, and where no table is open
and a row stands right above it, a table opens with one column for each cell, aligned as the cell
says. -/
theorem delimiter_rows_readable (hline : '\n' ∉ l) :
    (isDelimiter l = true ↔ l ∈ delimiterRows) ∧ (IsRow l ↔ l ∈ rows) ∧
    (isDelimiter l = true ↔ ∃ cells, cells? l = some cells ∧
      (∀ cell ∈ cells, IsDelimiterCell cell) ∧ cells.length + 1 = l.count '|' ∧
      ∀ header names below, cells? header = some names → events none (header :: l :: below) =
        .opens (cells.map alignment) names :: events (some (cells.map alignment)) below) := by
  refine ⟨isDelimiter_iff, isRow_iff hline, ?_⟩
  constructor
  · intro h
    have hrow : IsRow l := isRow_of_isDelimiter h
    refine ⟨rowCells l, cells?_of_isRow hrow, isDelimiterCell_of_mem_rowCells h,
      length_rowCells hrow, fun header names below hheader => ?_⟩
    obtain ⟨habove, rfl⟩ := cells?_eq_some_iff.1 hheader
    exact events_table habove h below
  · rintro ⟨cells, hcells, hshape, -⟩
    exact isDelimiter_of_mem (mem_delimiterRows_of_cells hcells hshape)

/-- An ideographic space, a tab and a carriage return stand around the cells. -/
theorem delimiter_rows_readable_blanks :
    '\n' ∉ "|\u3000:--\t|-:\r|".toList ∧ "|\u3000:--\t|-:\r|".toList ∈ delimiterRows ∧
      "|\u3000:--\t|-:\r|".toList ∈ rows ∧
      events none ["|n|".toList, "|\u3000:--\t|-:\r|".toList] =
        [.opens [.left, .right] ["n".toList], .closes] := by
  have hbreak : '\n' ∉ "|\u3000:--\t|-:\r|".toList := by decide
  have hcells : cells? "|\u3000:--\t|-:\r|".toList = some [":--".toList, "-:".toList] := by decide
  have hdelimiter : isDelimiter "|\u3000:--\t|-:\r|".toList = true := by cbv
  obtain ⟨hpattern, hrow, hread⟩ := delimiter_rows_readable hbreak
  obtain ⟨cells, hsome, -, -, hopens⟩ := hread.1 hdelimiter
  obtain rfl : [":--".toList, "-:".toList] = cells := Option.some.inj (hcells.symm.trans hsome)
  refine ⟨hbreak, hpattern.1 hdelimiter, hrow.1 (isRow_of_isDelimiter hdelimiter), ?_⟩
  exact hopens "|n|".toList ["n".toList] [] (by decide)

end Table

end MarkdownPreview

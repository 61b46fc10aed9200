import MarkdownPreview.Proofs.Verbatim
/-!
# Where blocks end

A block leaves no break behind it, so the line right below a block comes to stand behind the tag
that closes it. `EndsInBlock` says of some lines, as they stand in the source, that the last one
goes into a block: a row of an open table, a quote line, an item. A quote line that stands behind a
table, and an item that stands behind a table or a quote, is on the line of that tag itself and goes
into no block.

Main result: a plain line below lines that end in a block stands behind a tag once tables, quotes
and lists are written (`endsBehindTag_of_endsInBlock`), and below other lines it stays a line of its
own (`append_break_of_not_endsInBlock`).
-/

namespace MarkdownPreview

open Text

/-! ## The last line of a text -/

namespace Text

/-- What is put at the end of a text without a break goes to its last line. -/
theorem lines_append_of_break_not_mem (t : Text) :
    ∃ ls l, lines t = ls ++ [l] ∧ ∀ z, '\n' ∉ z → lines (t ++ z) = ls ++ [l ++ z] := by
  induction t with
  | nil => exact ⟨[], [], rfl, fun z hz => by simpa using lines_of_break_not_mem hz⟩
  | cons c t ih =>
    obtain ⟨ls, l, ht, happend⟩ := ih
    simp only [lines, List.cons_append, List.splitOn_cons_eq_if_modifyHead] at *
    by_cases hc : c = '\n'
    · exact ⟨[] :: ls, l, by simp [hc, ht], fun z hz => by simp [hc, happend z hz]⟩
    · cases ls with
      | nil => exact ⟨[], c :: l, by simp [hc, ht], fun z hz => by simp [hc, happend z hz]⟩
      | cons a ls =>
        exact ⟨(c :: a) :: ls, l, by simp [hc, ht], fun z hz => by simp [hc, happend z hz]⟩

theorem EndsInTag.append {t z : Text} (h : EndsInTag t) (hz : '\n' ∉ z) : EndsInTag (t ++ z) := by
  obtain ⟨ls, l, ht⟩ := h
  obtain ⟨ls', l', ht', happend⟩ := lines_append_of_break_not_mem t
  obtain ⟨rfl, hl⟩ := List.append_inj' (ht'.symm.trans ht) rfl
  exact ⟨ls', l ++ z, by rw [happend z hz, List.singleton_inj.1 hl, List.cons_append]⟩

/-- An end of two texts is an end of the second, or it has all of the second in it. -/
theorem suffix_append_cases {z a b : Text} (h : z <:+ a ++ b) :
    z <:+ b ∨ ∃ x, x ≠ [] ∧ x <:+ a ∧ z = x ++ b := by
  obtain ⟨w, hw⟩ := h
  rcases List.append_eq_append_iff.1 hw with ⟨x, ha, hz⟩ | ⟨y, -, hb⟩
  · cases x with
    | nil => exact Or.inl ⟨[], by simpa using hz⟩
    | cons c x => exact Or.inr ⟨c :: x, by simp, ⟨w, ha.symm⟩, hz⟩
  · exact Or.inl ⟨y, hb.symm⟩

/-- An end of a text without a break is an end of its last line. -/
theorem isSuffix_of_lines_eq_concat {t l z : Text} {ls : List Text} (ht : lines t = ls ++ [l])
    (hz : z <:+ t) (hbreak : '\n' ∉ z) : z <:+ l := by
  obtain ⟨a, rfl⟩ := hz
  obtain ⟨ls', l', -, happend⟩ := lines_append_of_break_not_mem a
  rw [happend z hbreak] at ht
  obtain ⟨-, hl⟩ := List.append_inj' ht rfl
  rw [← List.singleton_inj.1 hl]
  exact List.suffix_append _ _

/-- The text is one line, or a text, a break and a line. -/
theorem eq_or_eq_append_break (t : Text) :
    ∃ l, '\n' ∉ l ∧ (t = l ∨ ∃ a, t = a ++ '\n' :: l) := by
  induction t with
  | nil => exact ⟨[], by simp, Or.inl rfl⟩
  | cons c t ih =>
    obtain ⟨l, hl, rfl | ⟨a, rfl⟩⟩ := ih
    · by_cases hc : c = '\n'
      · exact ⟨t, hl, Or.inr ⟨[], by rw [hc, List.nil_append]⟩⟩
      · exact ⟨c :: t, by simp [Ne.symm hc, hl], Or.inl rfl⟩
    · exact ⟨l, hl, Or.inr ⟨c :: a, rfl⟩⟩

/-- The last line starts with a tag, and the text ends in `z`, right behind a tag. -/
def EndsBehindTag (z t : Text) : Prop := EndsInTag t ∧ '>' :: z <:+ t

end Text

namespace LineScan
open Piece

variable (S : LineScan)

theorem pieces_concat {l : Text} (h : S.Plain l) (ls : List Text) :
    S.pieces (ls ++ [l]) = S.pieces ls ++ [.line l] := by
  have hend := S.pieces_append ls [] h
  rwa [S.pieces_nil] at hend

/-- The last of some lines goes into a block of the pass. -/
def Takes (ls : List Text) : Prop := ∃ m, (S.pieces ls).getLast? = some (.markup m)

theorem not_takes_nil : ¬ S.Takes [] := by
  rintro ⟨m, hm⟩
  rw [S.pieces_nil] at hm
  simp at hm

variable {S}

theorem Takes.gap_eq {ls : List Text} (h : S.Takes ls) : gap (S.pieces ls) = [] := by
  obtain ⟨m, hm⟩ := h
  simp [gap, hm]

theorem gap_eq_of_not_takes {ls : List Text} (hne : ls ≠ []) (h : ¬ S.Takes ls) :
    gap (S.pieces ls) = ['\n'] := by
  cases hlast : (S.pieces ls).getLast? with
  | none => exact absurd (List.getLast?_eq_none_iff.1 hlast) (S.pieces_ne_nil hne)
  | some p =>
    cases p with
    | markup m => exact absurd ⟨m, hlast⟩ h
    | line l => simp [gap, hlast]

theorem Takes.endsInTag {t : Text} (h : S.Takes (lines t)) : EndsInTag (S.run t) := by
  obtain ⟨m, hm⟩ := h
  exact S.endsInTag_run fun l hl => by simp [hm] at hl

/-- A line that is written as it is after the lines of a text. -/
theorem run_append_break {t l : Text} (hl : '\n' ∉ l)
    (h : S.pieces (lines t ++ [l]) = S.pieces (lines t) ++ [.line l]) :
    S.run (t ++ '\n' :: l) = S.run t ++ gap (S.pieces (lines t)) ++ l := by
  rw [run, lines_append_break, lines_of_break_not_mem hl, h, print_append (by simp)]
  rfl

theorem endsInTag_run_of_endsInTag {t : Text} (h : EndsInTag t) : EndsInTag (S.run t) := by
  obtain ⟨ls, l, ht⟩ := h
  refine S.endsInTag_run fun l' hl => ?_
  rw [ht, S.pieces_concat (S.plain_tag l), List.getLast?_concat] at hl
  rw [← Piece.line.inj (Option.some.inj hl)]
  rfl

/-- What stands behind a tag still does after the pass. -/
theorem endsBehindTag_run {t z : Text} (hz : '\n' ∉ z) (h : EndsBehindTag z t) :
    EndsBehindTag z (S.run t) := by
  obtain ⟨htag, hend⟩ := h
  refine ⟨endsInTag_run_of_endsInTag htag, ?_⟩
  obtain ⟨ls, l, ht⟩ := htag
  have hline := isSuffix_of_lines_eq_concat ht hend (by simp [hz])
  rw [run, ht, S.pieces_concat (S.plain_tag l), print_append (by simp)]
  exact hline.trans (List.suffix_append _ _)

/-- A line below a block comes to stand behind the tag that closes it. -/
theorem Takes.endsBehindTag {t l : Text} (h : S.Takes (lines t)) (hl : '\n' ∉ l)
    (hplain : S.Plain l)
    (hmarkup : ∀ m, .markup m ∈ S.pieces (lines t) → m.getLast? = some '>') :
    EndsBehindTag l (S.run (t ++ '\n' :: l)) := by
  have hrun := run_append_break hl (S.pieces_concat hplain (lines t))
  rw [h.gap_eq, List.append_nil] at hrun
  rw [hrun]
  refine ⟨h.endsInTag.append hl, ?_⟩
  obtain ⟨m, hm⟩ := h
  obtain ⟨ps, hps⟩ := List.getLast?_eq_some_iff.1 hm
  obtain ⟨m', rfl⟩ := List.getLast?_eq_some_iff.1 (hmarkup m (by simp [hps]))
  rw [run, hps, print_append (by simp), print_markup, print]
  exact ⟨print ps ++ gap ps ++ m', by simp⟩

theorem run_append_break_of_not_takes {t l : Text} (h : ¬ S.Takes (lines t)) (hl : '\n' ∉ l)
    (hpieces : S.pieces (lines t ++ [l]) = S.pieces (lines t) ++ [.line l]) :
    S.run (t ++ '\n' :: l) = S.run t ++ '\n' :: l := by
  have hrun := run_append_break hl hpieces
  rw [gap_eq_of_not_takes (lines_ne_nil t) h] at hrun
  simpa using hrun

theorem run_append_break_of_takes {t l : Text} (h : S.Takes (lines t)) (hl : '\n' ∉ l)
    (hpieces : S.pieces (lines t ++ [l]) = S.pieces (lines t) ++ [.line l]) :
    EndsInTag (S.run (t ++ '\n' :: l)) := by
  have hrun := run_append_break hl hpieces
  rw [h.gap_eq, List.append_nil] at hrun
  rw [hrun]
  exact h.endsInTag.append hl

end LineScan

/-! ## Lines that end in a block -/

namespace Table

theorem isDelimiterCells_ends {t : Text} (h : isDelimiterCells t = true) :
    t.getLast? = some '|' ∧ 2 ≤ t.length := by
  fun_induction isDelimiterCells t with
  | case1 t hc => simp at h
  | case2 t hc =>
    obtain ⟨cell, rfl, hdash, -⟩ := delimiterCell?_chars hc
    have hpos := List.length_pos_of_mem hdash
    simp
    omega
  | case3 t c rest hc ih =>
    obtain ⟨cell, rfl, -⟩ := delimiterCell?_chars hc
    obtain ⟨hlast, hlength⟩ := ih h
    refine ⟨?_, by simp at hlength ⊢; omega⟩
    rw [List.getLast?_append, List.getLast?_cons_cons, hlast]
    rfl

/-- A delimiter row is a row. -/
theorem isRow_of_isDelimiter {l : Text} (h : isDelimiter l = true) : IsRow l := by
  unfold isDelimiter at h
  split at h
  · simp [IsRow, cells?, isDelimiterCells_ends h]
  · simp at h

theorem columns?_isSome_iff {l : Text} : (columns? l).isSome ↔ isDelimiter l = true := by
  constructor
  · intro h
    obtain ⟨columns, hc⟩ := Option.isSome_iff_exists.1 h
    exact (columns?_eq_some hc).1
  · intro h
    simpa [columns?, h, IsRow] using isRow_of_isDelimiter h

/-- The lines end in a table: a row, a delimiter row right below it, and from there on rows. -/
def EndsInTable (ls : List Text) : Prop :=
  ∃ above header delimiter rows, ls = above ++ header :: delimiter :: rows ∧ IsRow header ∧
    isDelimiter delimiter = true ∧ ∀ r ∈ rows, IsRow r

theorem EndsInTable.cons {ls : List Text} (h : EndsInTable ls) (l : Text) :
    EndsInTable (l :: ls) := by
  obtain ⟨above, header, delimiter, rows, rfl, hrest⟩ := h
  exact ⟨l :: above, header, delimiter, rows, rfl, hrest⟩

/-- A table at the end starts on the first line, or it is at the end of the lines below. -/
theorem endsInTable_cons_iff {l : Text} {ls : List Text} :
    EndsInTable (l :: ls) ↔
      (IsRow l ∧ ∃ d rows, ls = d :: rows ∧ isDelimiter d = true ∧ ∀ r ∈ rows, IsRow r) ∨
        EndsInTable ls := by
  constructor
  · rintro ⟨above, header, delimiter, rows, h, hheader, hdelimiter, hrows⟩
    cases above with
    | nil =>
      obtain ⟨rfl, rfl⟩ := List.cons.inj h
      exact Or.inl ⟨hheader, delimiter, rows, rfl, hdelimiter, hrows⟩
    | cons a above =>
      obtain ⟨-, rfl⟩ := List.cons.inj h
      exact Or.inr ⟨above, header, delimiter, rows, rfl, hheader, hdelimiter, hrows⟩
  · rintro (⟨hl, d, rows, rfl, hd, hrows⟩ | h)
    · exact ⟨[], l, d, rows, rfl, hl, hd, hrows⟩
    · exact h.cons l

theorem not_endsInTable_nil : ¬ EndsInTable [] := by
  rintro ⟨above, header, delimiter, rows, h, -⟩
  simp at h

/-- Below an event, the last one of some lines is the last one of all. -/
theorem getLast?_cons_events (e : Event) {columns : Option (List Alignment)} {ls : List Text}
    (h : columns.isSome ∨ ls ≠ []) :
    (e :: events columns ls).getLast? = (events columns ls).getLast? := by
  have hne : events columns ls ≠ [] := by
    cases ls with
    | nil =>
      obtain ⟨c, rfl⟩ := Option.isSome_iff_exists.1 (h.resolve_right (by simp))
      simp [events]
    | cons l ls => exact events_ne_nil (by simp)
  obtain ⟨e', es, he⟩ := List.exists_cons_of_ne_nil hne
  rw [he, List.getLast?_cons_cons]

/-- The last event is the end of a table exactly if the lines end in one, or if they are all rows of
the one that is open. -/
theorem getLast?_events_iff (columns : Option (List Alignment)) (ls : List Text) :
    (events columns ls).getLast? = some .closes ↔
      (columns.isSome ∧ ∀ r ∈ ls, IsRow r) ∨ EndsInTable ls := by
  fun_induction events columns ls with
  | case1 => simp [not_endsInTable_nil]
  | case2 columns => simp
  | case3 columns l ls cells hl ih =>
    have hrow : IsRow l := by simp [IsRow, hl]
    rw [getLast?_cons_events _ (by simp), ih, endsInTable_cons_iff]
    simp only [Option.isSome_some, true_and, List.forall_mem_cons, hrow]
    constructor
    · rintro (h | h)
      · exact Or.inl h
      · exact Or.inr (Or.inr h)
    · rintro (h | ⟨d, rows, rfl, hd, hrows⟩ | h)
      · exact Or.inl h
      · exact Or.inl (List.forall_mem_cons.2 ⟨isRow_of_isDelimiter hd, hrows⟩)
      · exact Or.inr h
  | case4 columns l ls hl ih =>
    have hrow : ¬ IsRow l := by simp [IsRow, hl]
    rw [endsInTable_cons_iff]
    cases ls with
    | nil => simp [events, hrow, not_endsInTable_nil]
    | cons m ms =>
      rw [List.getLast?_cons_cons, getLast?_cons_events _ (by simp), ih]
      simp [hrow]
  | case5 l => simp [endsInTable_cons_iff, not_endsInTable_nil]
  | case6 l d ls header columns hd hl ih =>
    have hrow : IsRow l := by simp [IsRow, hl]
    have hdelimiter := (columns?_eq_some hd).1
    rw [getLast?_cons_events _ (by simp), ih, endsInTable_cons_iff, endsInTable_cons_iff]
    simp only [Option.isSome_some, true_and, hrow, Option.isSome_none, Bool.false_eq_true,
      false_and, false_or]
    constructor
    · rintro (h | h)
      · exact Or.inl ⟨d, ls, rfl, hdelimiter, h⟩
      · exact Or.inr (Or.inr h)
    · rintro (⟨d', rows, h, -, hrows⟩ | ⟨-, d', rows, rfl, hd', hrows⟩ | h)
      · obtain ⟨-, rfl⟩ := List.cons.inj h
        exact Or.inl hrows
      · exact Or.inl (List.forall_mem_cons.2 ⟨isRow_of_isDelimiter hd', hrows⟩)
      · exact Or.inr h
  | case7 l d ls hne ih =>
    rw [getLast?_cons_events _ (by simp), ih, endsInTable_cons_iff (l := l)]
    simp only [Option.isSome_none, Bool.false_eq_true, false_and, false_or]
    refine ⟨Or.inr, ?_⟩
    rintro (⟨hl, d', rows, h, hd, -⟩ | h)
    · obtain ⟨rfl, -⟩ := List.cons.inj h
      obtain ⟨header, hheader⟩ := Option.isSome_iff_exists.1 hl
      obtain ⟨columns, hcolumns⟩ := Option.isSome_iff_exists.1 (columns?_isSome_iff.2 hd)
      exact absurd hcolumns (hne header columns hheader)
    · exact h

theorem endsInTable_iff {ls : List Text} :
    EndsInTable ls ↔ (events none ls).getLast? = some .closes := by
  simp [getLast?_events_iff]

instance (ls : List Text) : Decidable (EndsInTable ls) := decidable_of_iff _ endsInTable_iff.symm

/-- In the end a table is closed or a line is left alone. -/
theorem getLast?_events_eq {columns : Option (List Alignment)} {ls : List Text}
    (h : columns.isSome ∨ ls ≠ []) :
    (events columns ls).getLast? = some .closes ∨
      ∃ l, (events columns ls).getLast? = some (.line l) := by
  fun_induction events columns ls with
  | case1 => simp at h
  | case2 columns => exact Or.inl rfl
  | case3 columns l ls cells hl ih =>
    rw [getLast?_cons_events _ (by simp)]
    exact ih (by simp)
  | case4 columns l ls hl ih =>
    cases ls with
    | nil => exact Or.inr ⟨l, rfl⟩
    | cons m ms =>
      rw [List.getLast?_cons_cons, getLast?_cons_events _ (by simp)]
      exact ih (by simp)
  | case5 l => exact Or.inr ⟨l, rfl⟩
  | case6 l d ls header columns hd hl ih =>
    rw [getLast?_cons_events _ (by simp)]
    exact ih (by simp)
  | case7 l d ls hne ih =>
    rw [getLast?_cons_events _ (by simp)]
    exact ih (by simp)

theorem takes_iff {ls : List Text} : scan.Takes ls ↔ EndsInTable ls := by
  rw [endsInTable_iff]
  constructor
  · rintro ⟨m, hm⟩
    have hne : ls ≠ [] := by
      rintro rfl
      exact scan.not_takes_nil ⟨m, hm⟩
    rcases @getLast?_events_eq none ls (Or.inr hne) with h | ⟨l, h⟩
    · exact h
    · simp [scan, h, Event.piece] at hm
  · intro h
    exact ⟨_, by simp [scan, h]; rfl⟩

/-- The last line ends in a table, or it is left alone and changes nothing above. -/
theorem events_concat (columns : Option (List Alignment)) (ls : List Text) (l : Text) :
    (events columns (ls ++ [l])).getLast? = some .closes ∨
      events columns (ls ++ [l]) = events columns ls ++ [.line l] := by
  fun_induction events columns ls with
  | case1 => exact Or.inr rfl
  | case2 columns =>
    simp only [List.nil_append, events]
    split
    · exact Or.inl rfl
    · exact Or.inr rfl
  | case3 columns a ls cells ha ih =>
    simp only [List.cons_append, events, ha]
    rw [getLast?_cons_events _ (by simp)]
    exact ih.imp id fun h => by rw [h]
  | case4 columns a ls ha ih =>
    simp only [List.cons_append, events, ha]
    rw [List.getLast?_cons_cons, getLast?_cons_events _ (by simp)]
    exact ih.imp id fun h => by rw [h]
  | case5 a =>
    simp only [List.cons_append, List.nil_append, events]
    split
    · exact Or.inl rfl
    · exact Or.inr rfl
  | case6 a d ls header columns hd ha ih =>
    simp only [List.cons_append, events, ha, hd]
    rw [getLast?_cons_events _ (by simp)]
    exact ih.imp id fun h => by rw [h]
  | case7 a d ls hne ih =>
    rw [List.cons_append, List.cons_append, events, ← List.cons_append]
    split
    · next header columns ha hd => exact absurd hd (hne header columns ha)
    · rw [getLast?_cons_events _ (by simp)]
      exact ih.imp id fun h => by rw [h, List.cons_append]

theorem pieces_concat_of_not_takes {ls : List Text} {l : Text} (h : ¬ scan.Takes (ls ++ [l])) :
    scan.pieces (ls ++ [l]) = scan.pieces ls ++ [.line l] := by
  rw [takes_iff, endsInTable_iff] at h
  have hline := (events_concat none ls l).resolve_left h
  simp [scan, hline, Event.piece]

/-- A last line that stands behind a table, on the line of its closing tag. -/
theorem endsInTag_tables {t l : Text} (h : EndsInTable (lines t)) (hl : '\n' ∉ l)
    (hlast : ¬ EndsInTable (lines t ++ [l])) : EndsInTag (tables (t ++ '\n' :: l)) :=
  LineScan.run_append_break_of_takes (takes_iff.2 h) hl
    (pieces_concat_of_not_takes (takes_iff.not.2 hlast))

/-- A last line that goes into no table, and no table ends above it. -/
theorem tables_append_break {t l : Text} (h : ¬ EndsInTable (lines t)) (hl : '\n' ∉ l)
    (hlast : ¬ EndsInTable (lines t ++ [l])) :
    tables (t ++ '\n' :: l) = tables t ++ '\n' :: l :=
  LineScan.run_append_break_of_not_takes (takes_iff.not.2 h) hl
    (pieces_concat_of_not_takes (takes_iff.not.2 hlast))

theorem tables_of_break_not_mem {l : Text} (hl : '\n' ∉ l) : tables l = l := by
  rw [tables, lines_of_break_not_mem hl]
  rfl

end Table

/-- What ends in markup only ends in markup. -/
theorem Piece.getLast?_append_of_markup (ps : List Piece) {qs : List Piece} (hne : qs ≠ [])
    (h : ∀ q ∈ qs, ∃ m, q = .markup m) : ∃ m, (ps ++ qs).getLast? = some (.markup m) := by
  obtain ⟨m, hm⟩ := h _ (List.getLast_mem hne)
  refine ⟨m, ?_⟩
  rw [List.getLast?_append_of_ne_nil _ hne, List.getLast?_eq_some_getLast hne, hm]

namespace QuoteLine

theorem exists_pieces_append (ls ms : List Text) : ∀ depth : Nat,
    ∃ ps depth', pieces depth (ls ++ ms) = ps ++ pieces depth' ms := by
  induction ls with
  | nil => exact fun depth => ⟨[], depth, rfl⟩
  | cons l ls ih =>
    intro depth
    simp only [List.cons_append, pieces]
    split
    · next q _ =>
      obtain ⟨ps, depth', h⟩ := ih q.depth
      exact ⟨step depth q.depth ++ .markup (q.content ++ "<br>".toList) :: ps, depth', by simp [h]⟩
    · obtain ⟨ps, depth', h⟩ := ih 0
      exact ⟨step depth 0 ++ .line l :: ps, depth', by simp [h]⟩

theorem exists_markup_of_mem_step {source target : Nat} {p : Piece} (h : p ∈ step source target) :
    ∃ m, p = .markup m := by
  rcases List.mem_append.1 h with h | h <;> exact ⟨_, (List.mem_replicate.1 h).2⟩

theorem takes_concat_iff {ls : List Text} {l : Text} :
    scan.Takes (ls ++ [l]) ↔ (ofLine? l).isSome := by
  cases hl : ofLine? l with
  | none =>
    have hconcat : scan.pieces (ls ++ [l]) = scan.pieces ls ++ [.line l] := scan.pieces_concat hl ls
    simp [LineScan.Takes, hconcat]
  | some q =>
    obtain ⟨ps, depth, h⟩ := exists_pieces_append ls [l] 0
    have hend : pieces depth [l] =
        step depth q.depth ++ .markup (q.content ++ "<br>".toList) :: step q.depth 0 := by
      simp [pieces, hl]
    refine iff_of_true ?_ rfl
    rw [LineScan.Takes, show scan.pieces = pieces 0 from rfl, h, hend]
    refine Piece.getLast?_append_of_markup ps (by simp) fun p hp => ?_
    rcases List.mem_append.1 hp with hp | hp
    · exact exists_markup_of_mem_step hp
    · rcases List.mem_cons.1 hp with rfl | hp
      · exact ⟨_, rfl⟩
      · exact exists_markup_of_mem_step hp

/-- The last line is a quote line that does not stand behind a table. -/
def EndsInQuote (ls : List Text) : Prop :=
  (ls.getLast?.bind ofLine?).isSome ∧ ¬ Table.EndsInTable ls.dropLast

instance (ls : List Text) : Decidable (EndsInQuote ls) := inferInstanceAs (Decidable (_ ∧ _))

theorem endsInQuote_concat_iff {ls : List Text} {l : Text} :
    EndsInQuote (ls ++ [l]) ↔ (ofLine? l).isSome ∧ ¬ Table.EndsInTable ls := by
  simp [EndsInQuote]

theorem not_takes_of_endsInTag {t : Text} (h : EndsInTag t) : ¬ scan.Takes (lines t) := by
  obtain ⟨ls, l, ht⟩ := h
  rw [ht, takes_concat_iff, ofLine?_tag]
  simp

/-- Whether a text ends in a quote once its tables are written can be seen before. -/
theorem takes_tables_iff {t : Text} (h : ¬ Table.EndsInTable (lines t)) :
    scan.Takes (lines (Table.tables t)) ↔ EndsInQuote (lines t) := by
  obtain ⟨l, hl, rfl | ⟨a, rfl⟩⟩ := eq_or_eq_append_break t
  · rw [Table.tables_of_break_not_mem hl, lines_of_break_not_mem hl, ← List.nil_append [t],
      takes_concat_iff, endsInQuote_concat_iff]
    simp [Table.not_endsInTable_nil]
  · rw [lines_append_break, lines_of_break_not_mem hl] at h ⊢
    rw [endsInQuote_concat_iff]
    by_cases ha : Table.EndsInTable (lines a)
    · exact iff_of_false (not_takes_of_endsInTag (Table.endsInTag_tables ha hl h)) fun hq => hq.2 ha
    · rw [Table.tables_append_break ha hl h, lines_append_break, lines_of_break_not_mem hl,
        takes_concat_iff]
      simp [ha]

end QuoteLine

namespace Listing

theorem exists_events_append (ls ms : List Text) : ∀ stack : List Frame,
    ∃ es stack', events stack (ls ++ ms) = es ++ events stack' ms := by
  induction ls with
  | nil => exact fun stack => ⟨[], stack, rfl⟩
  | cons l ls ih =>
    intro stack
    simp only [List.cons_append, events]
    split
    · next i _ =>
      obtain ⟨es, stack', h⟩ := ih (i.enter stack)
      exact ⟨_, stack', by rw [h, ← List.cons_append, ← List.append_assoc]⟩
    · obtain ⟨es, stack', h⟩ := ih []
      exact ⟨_, stack', by rw [h, ← List.cons_append, ← List.append_assoc]⟩

theorem takes_concat_iff {ls : List Text} {l : Text} :
    scan.Takes (ls ++ [l]) ↔ (item? l).isSome := by
  cases hl : item? l with
  | none =>
    have hconcat : scan.pieces (ls ++ [l]) = scan.pieces ls ++ [.line l] := scan.pieces_concat hl ls
    simp [LineScan.Takes, hconcat]
  | some i =>
    obtain ⟨es, stack, h⟩ := exists_events_append ls [l] []
    refine iff_of_true ?_ rfl
    rw [LineScan.Takes, show scan.pieces (ls ++ [l]) = (events [] (ls ++ [l])).map Event.piece from rfl,
      h, List.map_append]
    refine Piece.getLast?_append_of_markup _ (by simp [events, hl]) fun p hp => ?_
    obtain ⟨e, he, rfl⟩ := List.mem_map.1 hp
    simp only [events, hl, List.mem_append, List.mem_map, List.mem_cons] at he
    rcases he with (⟨f, -, rfl⟩ | ⟨f, -, rfl⟩) | rfl | ⟨f, -, rfl⟩ <;> exact ⟨_, rfl⟩

/-- The last line is an item that stands neither behind a table nor behind a quote. -/
def EndsInList (ls : List Text) : Prop :=
  (ls.getLast?.bind item?).isSome ∧ ¬ Table.EndsInTable ls.dropLast ∧
    ¬ QuoteLine.EndsInQuote ls.dropLast

instance (ls : List Text) : Decidable (EndsInList ls) := inferInstanceAs (Decidable (_ ∧ _))

theorem endsInList_concat_iff {ls : List Text} {l : Text} :
    EndsInList (ls ++ [l]) ↔
      (item? l).isSome ∧ ¬ Table.EndsInTable ls ∧ ¬ QuoteLine.EndsInQuote ls := by
  simp [EndsInList]

theorem not_takes_of_endsInTag {t : Text} (h : EndsInTag t) : ¬ scan.Takes (lines t) := by
  obtain ⟨ls, l, ht⟩ := h
  rw [ht, takes_concat_iff, item?_tag]
  simp

/-- Whether a text ends in a list once its tables and quotes are written can be seen before. -/
theorem takes_blockquotes_iff {t : Text} (htable : ¬ Table.EndsInTable (lines t))
    (hquote : ¬ QuoteLine.EndsInQuote (lines t)) :
    scan.Takes (lines (QuoteLine.blockquotes (Table.tables t))) ↔ EndsInList (lines t) := by
  have htakes := (QuoteLine.takes_tables_iff htable).not.2 hquote
  obtain ⟨l, hl, rfl | ⟨a, rfl⟩⟩ := eq_or_eq_append_break t
  · have hlines := lines_of_break_not_mem hl
    rw [Table.tables_of_break_not_mem hl, hlines, ← List.nil_append [t],
      QuoteLine.takes_concat_iff] at htakes
    have hself : QuoteLine.blockquotes t = t :=
      QuoteLine.blockquotes_eq_self (by simpa [hlines] using htakes)
    rw [Table.tables_of_break_not_mem hl, hself, hlines, ← List.nil_append [t], takes_concat_iff,
      endsInList_concat_iff]
    simp [Table.not_endsInTable_nil, QuoteLine.EndsInQuote]
  · rw [lines_append_break, lines_of_break_not_mem hl] at htable ⊢
    rw [endsInList_concat_iff]
    by_cases ha : Table.EndsInTable (lines a)
    · have htag := Table.endsInTag_tables ha hl htable
      refine iff_of_false (not_takes_of_endsInTag ?_) fun hi => hi.2.1 ha
      exact QuoteLine.scan.endsInTag_run_of_endsInTag htag
    · rw [Table.tables_append_break ha hl htable, lines_append_break, lines_of_break_not_mem hl,
        QuoteLine.takes_concat_iff, Option.not_isSome_iff_eq_none] at htakes
      have hpieces := QuoteLine.scan.pieces_concat (l := l) htakes (lines (Table.tables a))
      rw [Table.tables_append_break ha hl htable, QuoteLine.blockquotes_eq_run]
      by_cases hq : QuoteLine.scan.Takes (lines (Table.tables a))
      · have htag := LineScan.run_append_break_of_takes hq hl hpieces
        exact iff_of_false (not_takes_of_endsInTag htag) fun hi =>
          hi.2.2 ((QuoteLine.takes_tables_iff ha).1 hq)
      · rw [LineScan.run_append_break_of_not_takes hq hl hpieces, lines_append_break,
          lines_of_break_not_mem hl, takes_concat_iff]
        simp [ha, (QuoteLine.takes_tables_iff ha).not.1 hq]

end Listing

/-- The last line goes into a table, a quote or a list. -/
def EndsInBlock (ls : List Text) : Prop :=
  Table.EndsInTable ls ∨ QuoteLine.EndsInQuote ls ∨ Listing.EndsInList ls

instance (ls : List Text) : Decidable (EndsInBlock ls) := inferInstanceAs (Decidable (_ ∨ _))

/-! ## Below the last line -/

section

variable {t l : Text}

/-- The line is a line of a paragraph: no row, no quote line and no item. -/
def IsPlain (l : Text) : Prop :=
  Table.cells? l = none ∧ QuoteLine.ofLine? l = none ∧ Listing.item? l = none

/-- Below a block, a plain line stands behind the tag that closes the block. -/
theorem endsBehindTag_of_endsInBlock (h : EndsInBlock (lines t)) (hl : '\n' ∉ l)
    (hplain : IsPlain l) :
    EndsBehindTag l (Listing.lists (QuoteLine.blockquotes (Table.tables (t ++ '\n' :: l)))) := by
  obtain ⟨hrow, hquote, hitem⟩ := hplain
  rw [Listing.lists_eq_run, QuoteLine.blockquotes_eq_run, Table.tables_eq_run]
  by_cases htable : Table.EndsInTable (lines t)
  · refine LineScan.endsBehindTag_run hl (LineScan.endsBehindTag_run hl ?_)
    exact (Table.takes_iff.2 htable).endsBehindTag hl hrow (Table.getLast?_of_mem_pieces none _)
  rw [LineScan.run_append_break_of_not_takes (Table.takes_iff.not.2 htable) hl
    (Table.scan.pieces_concat hrow _), ← Table.tables_eq_run]
  by_cases hq : QuoteLine.EndsInQuote (lines t)
  · refine LineScan.endsBehindTag_run hl ?_
    exact ((QuoteLine.takes_tables_iff htable).2 hq).endsBehindTag hl hquote
      (QuoteLine.getLast?_of_mem_pieces 0 _)
  have hlist := (h.resolve_left htable).resolve_left hq
  rw [LineScan.run_append_break_of_not_takes ((QuoteLine.takes_tables_iff htable).not.2 hq) hl
    (QuoteLine.scan.pieces_concat hquote _), ← QuoteLine.blockquotes_eq_run]
  exact ((Listing.takes_blockquotes_iff htable hq).2 hlist).endsBehindTag hl hitem
    (Listing.getLast?_of_mem_pieces [] _)

/-- Below lines that do not end in a block, a plain line stays a line of its own. -/
theorem append_break_of_not_endsInBlock (h : ¬ EndsInBlock (lines t)) (hl : '\n' ∉ l)
    (hplain : IsPlain l) :
    Listing.lists (QuoteLine.blockquotes (Table.tables (t ++ '\n' :: l))) =
      Listing.lists (QuoteLine.blockquotes (Table.tables t)) ++ '\n' :: l := by
  obtain ⟨hrow, hquote, hitem⟩ := hplain
  simp only [EndsInBlock, not_or] at h
  obtain ⟨htable, hq, hlist⟩ := h
  rw [Listing.lists_eq_run, QuoteLine.blockquotes_eq_run, Table.tables_eq_run,
    LineScan.run_append_break_of_not_takes (Table.takes_iff.not.2 htable) hl
      (Table.scan.pieces_concat hrow _), ← Table.tables_eq_run,
    LineScan.run_append_break_of_not_takes ((QuoteLine.takes_tables_iff htable).not.2 hq) hl
      (QuoteLine.scan.pieces_concat hquote _), ← QuoteLine.blockquotes_eq_run,
    LineScan.run_append_break_of_not_takes ((Listing.takes_blockquotes_iff htable hq).not.2 hlist) hl
      (Listing.scan.pieces_concat hitem _)]
  rfl

end

end MarkdownPreview

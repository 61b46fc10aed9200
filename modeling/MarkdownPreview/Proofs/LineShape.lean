import MarkdownPreview.Markup.Heading
import MarkdownPreview.Markup.Quote
import MarkdownPreview.Markup.Rule
import MarkdownPreview.Markup.Table
import MarkdownPreview.Proofs.ItemGrammar
import MarkdownPreview.Proofs.LineBreak
/-!
# The shape of a recognised line

Each block recogniser is pinned down by one statement: what a line it accepts is made of, and that
what it hands on stands in that line. What follows about the block passes uses these and does not
open the recognisers again.
-/

namespace MarkdownPreview

/-! ## Runs of a character -/

namespace Text

/-- The characters a text starts with, as many as are equal to one character. -/
theorem takeWhile_eq_replicate (t : Text) (a : Char) :
    t.takeWhile (· == a) = List.replicate (t.takeWhile (· == a)).length a :=
  List.eq_replicate_of_mem fun c hc => by simpa using List.mem_takeWhile_imp hc

theorem takeWhile_replicate_append {a b : Char} (h : b ≠ a) (n : Nat) (rest : Text) :
    (List.replicate n a ++ b :: rest).takeWhile (· == a) = List.replicate n a := by
  rw [List.takeWhile_append_of_pos (by simp [List.mem_replicate]),
    List.takeWhile_cons_of_neg (by simpa using h), List.append_nil]

theorem dropWhile_replicate_append {a b : Char} (h : b ≠ a) (n : Nat) (rest : Text) :
    (List.replicate n a ++ b :: rest).dropWhile (· == a) = b :: rest := by
  rw [List.dropWhile_append_of_pos (by simp [List.mem_replicate]),
    List.dropWhile_cons_of_neg (by simpa using h)]

end Text

/-! ## Lines -/

open Text

/-- A rule is drawn with the characters of rules. -/
theorem Rule.mem_marks_of_isRule {l : Text} (h : isRule l = true) {c : Char} (hc : c ∈ l) :
    c ∈ marks := by
  simp only [isRule, Bool.and_eq_true, List.any_eq_true, List.all_eq_true, beq_iff_eq] at h
  obtain ⟨-, m, hm, hl⟩ := h
  rw [hl c hc]
  exact hm

theorem QuoteLine.ofLine?_replicate {d : Nat} {b : Char} {rest : Text} (hd : 0 < d)
    (hb : isBlank b = true) (hrest : rest ≠ []) :
    ofLine? (List.replicate d '>' ++ b :: rest) = some ⟨d, rest⟩ := by
  have hne : b ≠ '>' := by
    rintro rfl
    exact absurd hb (by decide)
  obtain ⟨c, rest, rfl⟩ := List.exists_cons_of_ne_nil hrest
  simp [ofLine?, takeWhile_replicate_append hne, dropWhile_replicate_append hne, hb,
    Nat.ne_of_gt hd]

/-- A quote line is as many `>` as it is deep, one at least, a blank, and what it says, which is not
empty. -/
theorem QuoteLine.ofLine?_eq_some_iff {l : Text} {q : QuoteLine} : ofLine? l = some q ↔
    0 < q.depth ∧ q.content ≠ [] ∧
      ∃ b, isBlank b = true ∧ l = List.replicate q.depth '>' ++ b :: q.content := by
  constructor
  · intro h
    have hl := List.takeWhile_append_dropWhile (p := (· == '>')) (l := l)
    simp only [ofLine?] at h
    split at h
    · next b c rest hd =>
      split at h
      · next hc =>
        simp only [Option.some.injEq] at h
        subst h
        refine ⟨List.length_pos_iff.2 hc.1, List.cons_ne_nil _ _, b, hc.2, ?_⟩
        rw [hd, takeWhile_eq_replicate] at hl
        exact hl.symm
      · simp at h
    · simp at h
  · rintro ⟨hpos, hcontent, b, hb, rfl⟩
    exact ofLine?_replicate hpos hb hcontent

theorem QuoteLine.ofLine?_eq_some {l : Text} {q : QuoteLine} (h : ofLine? l = some q) :
    ∃ b, l = List.replicate q.depth '>' ++ b :: q.content ∧ isBlank b = true ∧ 0 < q.depth := by
  obtain ⟨hpos, -, b, hb, hl⟩ := ofLine?_eq_some_iff.1 h
  exact ⟨b, hl, hb, hpos⟩

theorem Heading.ofLine?_replicate {n : Nat} {b : Char} {rest : Text} (hn : 0 < n)
    (hb : b = ' ' ∨ b = '\t') (hrest : rest ≠ []) :
    ofLine? (List.replicate n '#' ++ b :: rest) = some ⟨min n maxLevel, trim rest⟩ := by
  have hne : b ≠ '#' := by rcases hb with rfl | rfl <;> decide
  obtain ⟨c, rest, rfl⟩ := List.exists_cons_of_ne_nil hrest
  simp [ofLine?, takeWhile_replicate_append hne, dropWhile_replicate_append hne, hb,
    Nat.ne_of_gt hn]

/-- A heading line is one or more `#`, a space or a tab, and a rest that is not empty. The number of
`#` is the level, six at most, and the rest is trimmed. -/
theorem Heading.ofLine?_eq_some_iff {l : Text} {h : Heading} : ofLine? l = some h ↔
    ∃ n b rest, 0 < n ∧ (b = ' ' ∨ b = '\t') ∧ rest ≠ [] ∧ l = List.replicate n '#' ++ b :: rest ∧
      h = ⟨min n maxLevel, trim rest⟩ := by
  constructor
  · intro hh
    have hl := List.takeWhile_append_dropWhile (p := (· == '#')) (l := l)
    simp only [ofLine?] at hh
    split at hh
    · next b c rest hd =>
      split at hh
      · next hc =>
        simp only [Option.some.injEq] at hh
        refine ⟨(l.takeWhile (· == '#')).length, b, c :: rest, List.length_pos_iff.2 hc.1, hc.2,
          List.cons_ne_nil _ _, ?_, hh.symm⟩
        rw [hd, takeWhile_eq_replicate] at hl
        simpa using hl.symm
      · simp at hh
    · simp at hh
  · rintro ⟨n, b, rest, hn, hb, hrest, rfl, rfl⟩
    exact ofLine?_replicate hn hb hrest

theorem Heading.ofLine?_eq_some {l : Text} {h : Heading} (hh : ofLine? l = some h) :
    ∃ n b rest, l = List.replicate n '#' ++ b :: rest ∧ (b = ' ' ∨ b = '\t') ∧
      h = ⟨min n maxLevel, trim rest⟩ := by
  obtain ⟨n, b, rest, -, hb, -, hl, rfl⟩ := ofLine?_eq_some_iff.1 hh
  exact ⟨n, b, rest, hl, hb, rfl⟩

namespace Listing

/-- A marker: one of the three bullets, or decimal digits and a point. -/
def IsMarker (m : Text) : Prop :=
  (∃ c ∈ bullets, m = [c]) ∨ ∃ ds, (∀ d ∈ ds, isDecimalDigit d = true) ∧ m = ds ++ ['.']

theorem Kind.Marks.isMarker {kind : Kind} {m : Text} (h : kind.Marks m) : IsMarker m := by
  cases h with
  | @bullet c hc => exact Or.inl ⟨c, hc, rfl⟩
  | @number digits _ hdigits => exact Or.inr ⟨digits, hdigits, rfl⟩

theorem marker?_eq_some {t rest : Text} {kind : Kind} (h : marker? t = some (kind, rest)) :
    ∃ m, t = m ++ rest ∧ IsMarker m := by
  obtain ⟨m, hm, ht⟩ := exists_marks_of_marker? h
  exact ⟨m, ht, hm.isMarker⟩

/-- An item line is its indent of blanks, a marker, a blank, and the rest, which is trimmed. -/
theorem item?_eq_some {l : Text} {i : Item} (h : item? l = some i) :
    ∃ indent m b rest, l = indent ++ m ++ b :: rest ∧ (∀ c ∈ indent, isBlank c = true) ∧ IsMarker m ∧
      isBlank b = true ∧ i.content = trim rest := by
  cases item?_eq_some_iff.1 h with
  | @intro kind indent marker rest b hindent hm hb =>
    exact ⟨indent, marker, b, rest, rfl, hindent, hm.isMarker, hb, trim_cons hb rest⟩

theorem item?_nil : item? [] = none := rfl

/-- An item starts with a blank or with a marker. -/
theorem item?_cons {c : Char} (hblank : isBlank c = false) (hbullet : c ∉ bullets)
    (hdigit : isDecimalDigit c = false) (l : Text) : item? (c :: l) = none := by
  have hd : (c :: l).dropWhile isBlank = c :: l := List.dropWhile_cons_of_neg (by simp [hblank])
  have hm : marker? (c :: l) = none := by
    simp only [marker?]
    rw [if_neg hbullet, if_neg (by simp [hdigit])]
  simp only [item?, hd, hm]

/-- A line that starts with a tag is no item. -/
theorem item?_tag (l : Text) : item? ('<' :: l) = none :=
  item?_cons (by decide) (by decide) (by decide) l

end Listing

theorem QuoteLine.ofLine?_cons {c : Char} (h : c ≠ '>') (l : Text) : ofLine? (c :: l) = none := by
  have hd : (c :: l).takeWhile (· == '>') = [] := List.takeWhile_cons_of_neg (by simpa using h)
  simp only [ofLine?, hd]
  split <;> simp

theorem QuoteLine.ofLine?_tag (l : Text) : ofLine? ('<' :: l) = none := ofLine?_cons (by decide) l

theorem Heading.ofLine?_cons {c : Char} (h : c ≠ '#') (l : Text) : ofLine? (c :: l) = none := by
  have hd : (c :: l).takeWhile (· == '#') = [] := List.takeWhile_cons_of_neg (by simpa using h)
  simp only [ofLine?, hd]
  split <;> simp

namespace Table

/-- A row is a bar, what its cells are cut from, and a bar. -/
theorem cells?_eq_some {l : Text} {cells : List Text} (h : cells? l = some cells) :
    ∃ inner, l = '|' :: inner ++ ['|'] ∧ cells = (inner.splitOn '|').map trim := by
  unfold cells? at h
  split at h
  · next t =>
    split at h
    · next ht =>
      obtain ⟨inner, rfl⟩ := List.getLast?_eq_some_iff.1 ht.1
      rw [List.dropLast_concat] at h
      exact ⟨inner, rfl, (Option.some.inj h).symm⟩
    · simp at h
  · simp at h

theorem mem_of_mem_cells {l c : Text} {cells : List Text} (h : cells? l = some cells) (hc : c ∈ cells)
    {x : Char} (hx : x ∈ c) : x ∈ l := by
  obtain ⟨inner, rfl, rfl⟩ := cells?_eq_some h
  obtain ⟨part, hpart, rfl⟩ := List.mem_map.1 hc
  have := (mem_splitOn hpart).2 x (mem_of_mem_trim hx)
  simp [this]

theorem cells?_nil : cells? [] = none := rfl

theorem cells?_tag (l : Text) : cells? ('<' :: l) = none := rfl

/-- What a delimiter row is made of. -/
def IsDelimiterChar (c : Char) : Prop := c = '|' ∨ c = ':' ∨ c = '-' ∨ isBlank c = true

/-- A delimiter cell without the blanks around it: one or more dashes, with a colon or none at each
end. -/
def IsDelimiterCell (cell : Text) : Prop :=
  ∃ first last n, cell = first ++ List.replicate (n + 1) '-' ++ last ∧
    first ∈ [[], [':']] ∧ last ∈ [[], [':']]

theorem IsDelimiterCell.dash_mem {cell : Text} (h : IsDelimiterCell cell) : '-' ∈ cell := by
  obtain ⟨first, last, n, rfl, -, -⟩ := h
  simp

theorem IsDelimiterCell.chars {cell : Text} (h : IsDelimiterCell cell) :
    ∀ c ∈ cell, c = ':' ∨ c = '-' := by
  obtain ⟨first, last, n, rfl, hfirst, hlast⟩ := h
  simp only [List.mem_cons, List.not_mem_nil, or_false] at hfirst hlast
  rcases hfirst with rfl | rfl <;> rcases hlast with rfl | rfl <;> simp +contextual

theorem dropColon_shape (t : Text) : ∃ a ∈ [[], [':']], t = a ++ dropColon t := by
  unfold dropColon
  cases h : [':'].isPrefixOf? t with
  | none => exact ⟨[], by simp⟩
  | some rest => exact ⟨[':'], by simp, eq_append_of_isPrefixOf? h⟩

/-- A delimiter cell stands between blanks, and a bar ends it. -/
theorem delimiterCell?_eq_some {t rest : Text} (h : delimiterCell? t = some rest) :
    ∃ before cell behind, t = before ++ cell ++ behind ++ '|' :: rest ∧
      (∀ c ∈ before, isBlank c = true) ∧ IsDelimiterCell cell ∧ ∀ c ∈ behind, isBlank c = true := by
  simp only [delimiterCell?] at h
  split at h
  · next hdash =>
    obtain ⟨first, hfirst, hstart⟩ := dropColon_shape (trimStart t)
    generalize dropColon (trimStart t) = start at h hdash hstart
    obtain ⟨last, hlast, hend⟩ := dropColon_shape (start.dropWhile (· == '-'))
    generalize dropColon (start.dropWhile (· == '-')) = ending at h hend
    obtain ⟨dashes, rfl⟩ := List.head?_eq_some_iff.1 hdash
    have hrun := List.takeWhile_append_dropWhile (p := (· == '-')) (l := '-' :: dashes)
    rw [takeWhile_eq_replicate, hend, List.takeWhile_cons_of_pos (by decide),
      List.length_cons] at hrun
    refine ⟨t.takeWhile isBlank, _, ending.takeWhile isBlank, ?_,
      fun c hc => List.mem_takeWhile_imp hc,
      ⟨first, last, (dashes.takeWhile (· == '-')).length, rfl, hfirst, hlast⟩,
      fun c hc => List.mem_takeWhile_imp hc⟩
    have hbefore := List.takeWhile_append_dropWhile (p := isBlank) (l := t)
    have hbehind := List.takeWhile_append_dropWhile (p := isBlank) (l := ending)
    rw [← trimStart, hstart, ← hrun] at hbefore
    rw [← trimStart, eq_append_of_isPrefixOf? h] at hbehind
    generalize t.takeWhile isBlank = before at hbefore ⊢
    generalize ending.takeWhile isBlank = behind at hbehind ⊢
    rw [← hbefore, ← hbehind]
    simp
  · simp at h

theorem delimiterCell?_chars {t rest : Text} (h : delimiterCell? t = some rest) :
    ∃ cell, t = cell ++ '|' :: rest ∧ '-' ∈ cell ∧ ∀ c ∈ cell, c = ':' ∨ c = '-' ∨ isBlank c = true := by
  obtain ⟨before, cell, behind, rfl, hbefore, hcell, hbehind⟩ := delimiterCell?_eq_some h
  refine ⟨before ++ cell ++ behind, rfl, by simp [hcell.dash_mem], fun c hc => ?_⟩
  simp only [List.mem_append] at hc
  rcases hc with (hc | hc) | hc
  · exact Or.inr (Or.inr (hbefore c hc))
  · exact (hcell.chars c hc).imp_right Or.inl
  · exact Or.inr (Or.inr (hbehind c hc))

theorem isDelimiterCells_chars {t : Text} (h : isDelimiterCells t = true) :
    ∀ c ∈ t, IsDelimiterChar c := by
  fun_induction isDelimiterCells t with
  | case1 t hc => simp at h
  | case2 t hc =>
    obtain ⟨cell, rfl, -, hcell⟩ := delimiterCell?_chars hc
    intro x hx
    rcases List.mem_append.1 hx with hx | hx
    · exact Or.inr (hcell x hx)
    · exact Or.inl (List.mem_singleton.1 hx)
  | case3 t c rest hc ih =>
    obtain ⟨cell, rfl, -, hcell⟩ := delimiterCell?_chars hc
    intro x hx
    rcases List.mem_append.1 hx with hx | hx
    · exact Or.inr (hcell x hx)
    · rcases List.mem_cons.1 hx with rfl | hx
      · exact Or.inl rfl
      · exact ih h x hx

/-- A delimiter row has only bars, colons, dashes and blanks. -/
theorem isDelimiter_chars {l : Text} (h : isDelimiter l = true) : ∀ c ∈ l, IsDelimiterChar c := by
  unfold isDelimiter at h
  split at h
  · next t =>
    intro c hc
    rcases List.mem_cons.1 hc with rfl | hc
    · exact Or.inl rfl
    · exact isDelimiterCells_chars h c hc
  · simp at h

/-- A line that sets columns is a row and a delimiter row. -/
theorem columns?_eq_some {l : Text} {columns : List Alignment} (h : columns? l = some columns) :
    isDelimiter l = true ∧ cells? l ≠ none := by
  unfold columns? at h
  split at h
  · next hd => exact ⟨hd, fun hn => by simp [hn] at h⟩
  · simp at h

end Table

end MarkdownPreview

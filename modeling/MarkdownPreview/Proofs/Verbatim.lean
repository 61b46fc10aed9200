import Mathlib.Data.List.Chain
import MarkdownPreview.Proofs.BlankLine
/-!
# Text that no pass recognises

Each pass leaves alone a text in which it finds nothing to do. What a pass looks for is said of the
lines it reads: rows above delimiter rows, quote lines, items, rules and headings, and for the
rewritings of their characters. If nothing of all that is in a text, all nine passes are the
identity on it, one after the other, and it is rendered as it stands (`render_eq_self`): its line
breaks, its blanks, and whatever else it is made of.
-/

namespace MarkdownPreview

open Text

/-! ## Line by line -/

/-- A text none of whose lines is changed is left alone. -/
theorem Text.mapLines_eq_self {f : Text → Text} {t : Text}
    (h : ∀ l ∈ Line.ofText t, f l.body = l.body) : mapLines f t = t := by
  have hmap : (Line.ofText t).map (fun l => { l with body := f l.body }) = Line.ofText t := by
    refine (List.map_congr_left fun l hl => ?_).trans (List.map_id _)
    rw [h l hl]
    rfl
  rw [mapLines, hmap, Line.print_ofText]

/-- The line is three or more dashes. -/
def Rule.IsDashes (l : Text) : Prop := 3 ≤ l.length ∧ ∀ c ∈ l, c = '-'

instance (l : Text) : Decidable (Rule.IsDashes l) := inferInstanceAs (Decidable (_ ∧ _))

/-- A rule that is not drawn with dashes has an asterisk or an underscore. -/
theorem Rule.isDashes_of_isRule {l : Text} (h : isRule l = true) (ha : '*' ∉ l) (hu : '_' ∉ l) :
    IsDashes l := by
  simp only [isRule, Bool.and_eq_true, decide_eq_true_eq, List.any_eq_true, List.all_eq_true,
    beq_iff_eq] at h
  obtain ⟨hlength, m, hm, hl⟩ := h
  have hmem : m ∈ l := by
    obtain ⟨c, hc⟩ := List.exists_mem_of_length_pos (l := l) (by omega)
    rwa [hl c hc] at hc
  simp only [marks, List.mem_cons, List.not_mem_nil, or_false] at hm
  rcases hm with rfl | rfl | rfl
  · exact ⟨hlength, hl⟩
  · exact absurd hmem ha
  · exact absurd hmem hu

theorem Rule.horizontalRules_eq_self {t : Text} (h : ∀ l ∈ Line.ofText t, isRule l.body = false) :
    horizontalRules t = t :=
  mapLines_eq_self fun l hl => by rw [line, h l hl]; rfl

theorem Heading.headings_eq_self {t : Text} (h : ∀ l ∈ Line.ofText t, ofLine? l.body = none) :
    headings t = t :=
  mapLines_eq_self fun l hl => by rw [line, h l hl]

/-! ## Tables, quotes and lists -/

namespace Table

/-- The line is a row. -/
def IsRow (l : Text) : Prop := (cells? l).isSome

instance (l : Text) : Decidable (IsRow l) := inferInstanceAs (Decidable (_ = true))

/-- No row of the lines has a delimiter row right below it. -/
def NoTable (ls : List Text) : Prop := ls.IsChain fun l d => ¬ (IsRow l ∧ isDelimiter d = true)

instance (ls : List Text) : Decidable (NoTable ls) := inferInstanceAs (Decidable (List.IsChain _ ls))

/-- Where no row has a delimiter row below it, no table opens. -/
theorem events_eq_map_line : ∀ {ls : List Text}, NoTable ls → events none ls = ls.map .line
  | [], _ => rfl
  | [_], _ => rfl
  | l :: d :: ls, h => by
    obtain ⟨hopen, hrest⟩ := List.isChain_cons_cons.1 h
    have ih := events_eq_map_line hrest
    rw [events, List.map_cons, ← ih]
    split
    · next header columns hl hd =>
      exact absurd ⟨by simp [IsRow, hl], (columns?_eq_some hd).1⟩ hopen
    · rfl

theorem tables_eq_self {t : Text} (h : NoTable (lines t)) : tables t = t := by
  rw [tables, events_eq_map_line h, List.map_map]
  exact (Piece.print_map_line (lines t)).trans (joinLines_lines t)

end Table

namespace QuoteLine

theorem pieces_eq_map_line {ls : List Text} (h : ∀ l ∈ ls, ofLine? l = none) :
    pieces 0 ls = ls.map .line := by
  induction ls with
  | nil => rfl
  | cons l ls ih =>
    rw [pieces, h l List.mem_cons_self, ih fun l' hl => h l' (List.mem_cons_of_mem _ hl)]
    rfl

theorem blockquotes_eq_self {t : Text} (h : ∀ l ∈ lines t, ofLine? l = none) :
    blockquotes t = t := by
  rw [blockquotes, pieces_eq_map_line h]
  exact (Piece.print_map_line (lines t)).trans (joinLines_lines t)

end QuoteLine

namespace Listing

theorem events_eq_map_line {ls : List Text} (h : ∀ l ∈ ls, item? l = none) :
    events [] ls = ls.map .line := by
  induction ls with
  | nil => rfl
  | cons l ls ih =>
    rw [events, h l List.mem_cons_self, ih fun l' hl => h l' (List.mem_cons_of_mem _ hl)]
    rfl

theorem lists_eq_self {t : Text} (h : ∀ l ∈ lines t, item? l = none) : lists t = t := by
  rw [lists, events_eq_map_line h, List.map_map]
  exact (Piece.print_map_line (lines t)).trans (joinLines_lines t)

end Listing

/-! ## Rewritings -/

/-- A style whose delimiters have a character that the text lacks leaves the text alone. -/
theorem Delimited.format_eq_self {s : Delimited} {t : Text}
    (h : ∀ mark ∈ s.marks, ∃ c ∈ mark, c ∉ t) : s.format t = t := by
  apply Pattern.replace_eq_self_of_found_eq_nil
  apply found_eq_nil
  intro mark hmark body _ hspan
  obtain ⟨c, hc, ht⟩ := h mark hmark
  exact ht (hspan.subset (by simp [hc]))

theorem Delimited.inlineFormats_eq_self_of_not_mem {t : Text} (ha : '*' ∉ t) (hu : '_' ∉ t)
    (hb : '`' ∉ t) : inlineFormats t = t := by
  have hstrong : strong.format t = t := by
    apply format_eq_self
    simp [strong, ha, hu]
  have hem : emphasis.format t = t := by
    apply format_eq_self
    simp [emphasis, ha, hu]
  have hcode : code.format t = t := by
    apply format_eq_self
    simp [code, hb]
  rw [inlineFormats, hstrong, hem, hcode]

theorem Link.links_eq_self {t : Text} (ht : '[' ∉ t) : links t = t :=
  Pattern.replace_of_append (links_append ht)

/-! ## All passes -/

/-- **Unrecognised text is kept verbatim.** A text without a backtick, an asterisk, an underscore
and an opening bracket, no line of which is an item or a quote line, no row of which has a delimiter
row right below it, and no line of which, ended in whatever way, is a run of dashes or a heading, is
rendered as it is. -/
theorem render_eq_self {t : Text}
    (hchars : '`' ∉ t ∧ '*' ∉ t ∧ '_' ∉ t ∧ '[' ∉ t)
    (hitem : ∀ l ∈ lines t, Listing.item? l = none)
    (hquote : ∀ l ∈ lines t, QuoteLine.ofLine? l = none)
    (htable : Table.NoTable (lines t))
    (hline : ∀ l ∈ Line.ofText t, ¬ Rule.IsDashes l.body ∧ Heading.ofLine? l.body = none) :
    render t = t := by
  obtain ⟨hb, ha, hu, hbracket⟩ := hchars
  have hfence : ¬ Fence.mark <:+: t := fun h => hb (h.subset (by decide))
  have hrules : ∀ l ∈ Line.ofText t, Rule.isRule l.body = false := by
    intro l hl
    have hsub := (Line.isInfix_body hl).subset
    refine Bool.eq_false_iff.2 fun hrule => (hline l hl).1 ?_
    exact Rule.isDashes_of_isRule hrule (fun h => ha (hsub h)) fun h => hu (hsub h)
  have hblocks : blocks t = t := by
    simp only [blocks, Pass.applyAll, List.foldl_cons, List.foldl_nil, Pass.apply]
    rw [Rule.horizontalRules_eq_self hrules, Table.tables_eq_self htable,
      QuoteLine.blockquotes_eq_self hquote, Listing.lists_eq_self hitem,
      Heading.headings_eq_self fun l hl => (hline l hl).2]
  rw [render_eq, beforeFormats, Fence.codeBlocks_eq_self hfence, hblocks,
    Image.images_eq_self hbracket, Delimited.inlineFormats_eq_self_of_not_mem ha hu hb,
    Link.links_eq_self hbracket]

/-- A text with rows but no delimiter row, with tags, with markers within a line, and with every
kind of line break. -/
def mixedBreaks : Text := "| a |\r\n| b > c |\n<div># x</div>\r--\n  #tag \n>q\n".toList

theorem render_mixedBreaks :
    ('`' ∉ mixedBreaks ∧ '*' ∉ mixedBreaks ∧ '_' ∉ mixedBreaks ∧ '[' ∉ mixedBreaks) ∧
      (∀ l ∈ lines mixedBreaks, Listing.item? l = none) ∧
      (∀ l ∈ lines mixedBreaks, QuoteLine.ofLine? l = none) ∧
      Table.NoTable (lines mixedBreaks) ∧
      (∀ l ∈ Line.ofText mixedBreaks,
        ¬ Rule.IsDashes l.body ∧ Heading.ofLine? l.body = none) ∧
      render mixedBreaks = mixedBreaks := by
  have hchars : '`' ∉ mixedBreaks ∧ '*' ∉ mixedBreaks ∧ '_' ∉ mixedBreaks ∧ '[' ∉ mixedBreaks := by
    decide +kernel
  have hitem : ∀ l ∈ lines mixedBreaks, Listing.item? l = none := by decide +kernel
  have hquote : ∀ l ∈ lines mixedBreaks, QuoteLine.ofLine? l = none := by decide +kernel
  have htable : Table.NoTable (lines mixedBreaks) := by decide +kernel
  have hline : ∀ l ∈ Line.ofText mixedBreaks,
      ¬ Rule.IsDashes l.body ∧ Heading.ofLine? l.body = none := by decide +kernel
  exact ⟨hchars, hitem, hquote, htable, hline, render_eq_self hchars hitem hquote htable hline⟩

end MarkdownPreview

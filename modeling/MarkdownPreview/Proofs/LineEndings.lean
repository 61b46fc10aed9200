import MarkdownPreview.Proofs.Tally
/-!
# Line endings

The preview of a text with a return in front of every break is, without its returns, the preview of
the text itself, as long as no block is recognised in one of the two texts only (`render_crlf_iff`).
Three are. A row of a table may not end in a return, so there are no tables with returns; and behind
a marker and one blank a return is something to quote or to list, so a line that says nothing
becomes a quote line or an item with it. Images are read alike too, but for an address that starts
with a break in front of a title, of which the return becomes the source (`Image.BreakFirst`).

That nothing else makes a difference is shown pass by pass (`render_crlf`). That the three blocks do
is read off the rendered text: what the passes write for a table, a quote line and an item weighs
something in one `Tally` each, in which all else that is written weighs nothing, so texts that are
rendered alike have as many of them.
-/

namespace MarkdownPreview

open Text

/-! ## The text that the blocks are read from -/

/-- The text that the tables are read from. -/
def ruled (t : Text) : Text := Rule.horizontalRules (Fence.codeBlocks t)

theorem return_not_mem_ruled {t : Text} (h : '\r' ∉ t) : '\r' ∉ ruled t :=
  return_not_mem_mapLines Rule.keepsReturns_line (Fence.return_not_mem_codeBlocks h)

theorem ruled_crlf {t : Text} (h : '\r' ∉ t) : ruled (crlf t) = crlf (ruled t) := by
  unfold ruled
  rw [Fence.codeBlocks_crlf h, Rule.horizontalRules_crlf (Fence.return_not_mem_codeBlocks h)]

theorem blocks_eq (t : Text) : blocks (Fence.codeBlocks t) =
    Heading.headings (Listing.lists (QuoteLine.blockquotes (Table.tables (ruled t)))) := by
  simp only [blocks, ruled, Pass.applyAll, List.foldl_cons, List.foldl_nil, Pass.apply]

/-- No block is recognised with returns only or without them only: there are no tables, and no line
above the last one is a bare quote line or a bare item. -/
structure ReadsAlike (t : Text) : Prop where
  table : Table.NoTable (lines (ruled t))
  quote : ∀ l ∈ (lines (ruled t)).dropLast, ¬ QuoteLine.IsBare l
  item : ∀ l ∈ (lines (QuoteLine.blockquotes (ruled t))).dropLast, ¬ Listing.IsBare l

instance (t : Text) : Decidable (ReadsAlike t) :=
  decidable_of_iff (Table.NoTable (lines (ruled t)) ∧
      (∀ l ∈ (lines (ruled t)).dropLast, ¬ QuoteLine.IsBare l) ∧
      ∀ l ∈ (lines (QuoteLine.blockquotes (ruled t))).dropLast, ¬ Listing.IsBare l)
    ⟨fun ⟨ht, hq, hi⟩ => ⟨ht, hq, hi⟩, fun ⟨ht, hq, hi⟩ => ⟨ht, hq, hi⟩⟩

/-- **Returns make no difference** where the blocks are read alike. -/
theorem render_crlf {t : Text} (h : '\r' ∉ t) (halike : ReadsAlike t)
    (himage : ¬ Image.BreakFirst (blocks (Fence.codeBlocks t))) :
    dropReturns (render (crlf t)) = render t := by
  obtain ⟨htable, hquote, hitem⟩ := halike
  have hreturn := return_not_mem_ruled h
  obtain ⟨hquotes, htidy⟩ := QuoteLine.blockquotes_crlf hreturn hquote
  rw [hquotes] at hitem
  obtain ⟨hlists, htidy⟩ := Listing.lists_dropReturns htidy hitem
  obtain ⟨hheadings, hloose⟩ := Heading.headings_dropReturns htidy
  rw [blocks_eq, Table.tables_eq_self htable, hquotes, hlists, hheadings] at himage
  -- found by `assumption`: elaborating `hloose` would evaluate the text it is about
  obtain ⟨himages, hloose⟩ := Image.images_dropReturns ⟨by assumption, himage⟩
  obtain ⟨hformats, hloose⟩ := Delimited.inlineFormats_dropReturns hloose
  rw [render_eq, render_eq, beforeFormats, beforeFormats, blocks_eq, blocks_eq, ruled_crlf h,
    Table.tables_crlf, Table.tables_eq_self htable, hquotes, hlists, hheadings, himages, hformats,
    Link.links_dropReturns hloose]

/-! ## Counting what is written -/

namespace Tally

/-- The tags of quotes, lists and headings weigh nothing either. -/
structure IgnoresTags (T : Tally) : Prop extends T.IgnoresSpans where
  quote : T.weight.Neutral "blockquote".toList
  list : ∀ k : Listing.Kind, T.weight.Neutral k.tag
  heading : ∀ n ≤ Heading.maxLevel, T.weight.Neutral ('h' :: decimal n)

variable {T : Tally}

instance : Decidable T.IgnoresTags :=
  decidable_of_iff (T.IgnoresSpans ∧ T.weight.Neutral "blockquote".toList ∧
      (∀ k : Listing.Kind, T.weight.Neutral k.tag) ∧
      ∀ n ≤ Heading.maxLevel, T.weight.Neutral ('h' :: decimal n))
    ⟨fun ⟨hs, hq, hl, hh⟩ => ⟨hs, hq, hl, hh⟩, fun ⟨hs, hq, hl, hh⟩ => ⟨hs, hq, hl, hh⟩⟩

/-- What a rendered text weighs is what the text without tables weighs and what is written for its
quote lines and its items. -/
theorem of_render_eq (hT : T.IgnoresTags) (t : Text) :
    T.weight.of (render t) = T.weight.of (Table.tables (ruled t)) +
      QuoteLine.count (Table.tables (ruled t)) * T.weight.of "<br>".toList +
      Listing.count (QuoteLine.blockquotes (Table.tables (ruled t))) * T.weight.ofItem := by
  rw [of_render hT.toIgnoresSpans, blocks_eq, Weight.of_belowTables hT.quote hT.list hT.heading]

/-- What a text weighs that is rendered alike with returns and without. -/
theorem of_render_crlf (hT : T.IgnoresTags) {t : Text} (h : '\r' ∉ t)
    (hlaw : dropReturns (render (crlf t)) = render t) :
    T.weight.of (render t) = T.weight.of (ruled t) +
      QuoteLine.count (crlf (ruled t)) * T.weight.of "<br>".toList +
      Listing.count (QuoteLine.blockquotes (crlf (ruled t))) * T.weight.ofItem := by
  rw [← hlaw, of_dropReturns, of_render_eq hT, ruled_crlf h, Table.tables_crlf,
    T.of_crlf (return_not_mem_ruled h)]

end Tally

/-! ### Tables -/

/-- Every table weighs 2. -/
def tableTally : Tally := ⟨[('y', 1), ('x', -1)], by decide⟩

theorem tableTally_ignoresTags : tableTally.IgnoresTags := by decide +kernel

theorem Table.noTable_of_opened_eq_zero : ∀ {ls : List Text}, opened none ls = 0 → NoTable ls
  | [], _ => List.isChain_nil
  | [l], _ => List.isChain_singleton l
  | l :: d :: ls, h => by
    unfold opened at h
    rw [events] at h
    split at h
    · rw [List.countP_cons_of_pos rfl] at h
      cases h
    · next hnone =>
      rw [List.countP_cons_of_neg (by simp [Event.isOpening])] at h
      refine List.isChain_cons_cons.2 ⟨?_, noTable_of_opened_eq_zero h⟩
      rintro ⟨hl, hd⟩
      obtain ⟨header, hheader⟩ := Option.isSome_iff_exists.1 hl
      obtain ⟨columns, hcolumns⟩ := Option.isSome_iff_exists.1 (columns?_isSome_iff.2 hd)
      exact hnone header columns hheader hcolumns

theorem noTable_of_render_crlf {t : Text} (h : '\r' ∉ t)
    (hlaw : dropReturns (render (crlf t)) = render t) : Table.NoTable (lines (ruled t)) := by
  have hof := tableTally.of_render_crlf tableTally_ignoresTags h hlaw
  rw [Tally.of_render_eq tableTally_ignoresTags,
    Weight.of_tables (by decide +kernel) (by decide +kernel),
    show tableTally.weight.of "<br>".toList = 0 by decide +kernel,
    show tableTally.weight.ofItem = 0 by decide +kernel,
    show tableTally.weight.ofTable = 2 by decide +kernel] at hof
  refine Table.noTable_of_opened_eq_zero ?_
  omega

/-! ### Quote lines and items -/

/-- Where one property implies another and both hold equally often, they hold of the same. -/
theorem of_countP_eq {α : Type} {p q : α → Bool} {as : List α} (h : ∀ a ∈ as, p a = true → q a = true)
    (hcount : as.countP q = as.countP p) : ∀ a ∈ as, q a = true → p a = true := by
  induction as with
  | nil => simp
  | cons a as ih =>
    rw [List.forall_mem_cons] at h ⊢
    have hle := List.countP_mono_left h.2
    rw [List.countP_cons, List.countP_cons] at hcount
    by_cases hp : p a = true
    · rw [if_pos hp, if_pos (h.1 hp)] at hcount
      exact ⟨fun _ => hp, ih h.2 (by omega)⟩
    · by_cases hq : q a = true
      · rw [if_neg hp, if_pos hq] at hcount
        omega
      · rw [if_neg hp, if_neg hq] at hcount
        exact ⟨fun h => absurd h hq, ih h.2 (by omega)⟩

/-- Every quote line weighs 1. -/
def quoteTally : Tally := ⟨[('b', 1), ('k', -1)], by decide⟩

theorem quoteTally_ignoresTags : quoteTally.IgnoresTags := by decide +kernel

theorem QuoteLine.not_isBare_of_count_eq {t : Text} (hcount : count (crlf t) = count t) :
    ∀ l ∈ (lines t).dropLast, ¬ IsBare l := by
  obtain ⟨ls, last, hlines, hcrlf⟩ := lines_crlf t
  rw [count, count, hcrlf, hlines, List.countP_append, List.countP_append, List.countP_map] at hcount
  have hmore : ∀ l ∈ ls, (ofLine? l).isSome = true → (ofLine? (l ++ ['\r'])).isSome = true := by
    intro l _ hl
    by_cases hbare : IsBare l
    · exact (ofLine?_of_isBare hbare).2
    · rw [ofLine?_concat_return hbare, Option.isSome_map, hl]
  rw [hlines, List.dropLast_concat]
  intro l hl hbare
  obtain ⟨hnone, hsome⟩ := ofLine?_of_isBare hbare
  have hquote := of_countP_eq hmore (Nat.add_right_cancel hcount) l hl hsome
  rw [hnone] at hquote
  cases hquote

theorem not_isBare_quote_of_render_crlf {t : Text} (h : '\r' ∉ t)
    (hlaw : dropReturns (render (crlf t)) = render t) :
    ∀ l ∈ (lines (ruled t)).dropLast, ¬ QuoteLine.IsBare l := by
  have hof := quoteTally.of_render_crlf quoteTally_ignoresTags h hlaw
  rw [Tally.of_render_eq quoteTally_ignoresTags, Table.tables_eq_self (noTable_of_render_crlf h hlaw),
    show quoteTally.weight.of "<br>".toList = 1 by decide +kernel,
    show quoteTally.weight.ofItem = 0 by decide +kernel] at hof
  refine QuoteLine.not_isBare_of_count_eq ?_
  omega

/-- Every item weighs 2. -/
def itemTally : Tally := ⟨[('i', 1), ('a', 1), ('=', -1), ('p', -1)], by decide⟩

theorem itemTally_ignoresTags : itemTally.IgnoresTags := by decide +kernel

theorem Listing.not_isBare_of_count_eq {t : Text} (h : Tidy t)
    (hlast : ∀ l ∈ (lines t).dropLast, l.getLast? = some '\r')
    (hcount : count t = count (dropReturns t)) :
    ∀ l ∈ (lines (dropReturns t)).dropLast, ¬ IsBare l := by
  rw [count, count, lines_dropReturns, List.countP_map] at hcount
  have hmore : ∀ l ∈ lines t, (item? (dropReturns l)).isSome = true → (item? l).isSome = true := by
    intro l hl hitem
    by_cases hbare : IsBare (dropReturns l)
    · rw [(item?_of_isBare hbare).1] at hitem
      cases hitem
    · rwa [item?_dropReturns (h.inner l hl) fun _ => hbare] at hitem
  rw [lines_dropReturns, ← List.map_dropLast, List.forall_mem_map]
  intro l hl hbare
  have hmem := List.mem_of_mem_dropLast hl
  rcases h.inner l hmem with hhead | hinner
  · obtain ⟨u, rfl⟩ := List.head?_eq_some_iff.1 hhead
    rw [dropReturns_tag] at hbare
    exact not_isBare_tag _ hbare
  · have hr : '\r' ∈ l := List.mem_of_getLast? (hlast l hl)
    obtain ⟨x, hx, rfl⟩ := (eq_concat_return hinner).resolve_left (not_not.2 hr)
    rw [dropReturns_concat_return hx] at hbare
    obtain ⟨hnone, hsome⟩ := item?_of_isBare hbare
    have hitem := of_countP_eq hmore hcount _ hmem hsome
    rw [dropReturns_concat_return hx, hnone] at hitem
    cases hitem

theorem not_isBare_item_of_render_crlf {t : Text} (h : '\r' ∉ t)
    (hlaw : dropReturns (render (crlf t)) = render t) :
    ∀ l ∈ (lines (QuoteLine.blockquotes (ruled t))).dropLast, ¬ Listing.IsBare l := by
  have hof := itemTally.of_render_crlf itemTally_ignoresTags h hlaw
  rw [Tally.of_render_eq itemTally_ignoresTags, Table.tables_eq_self (noTable_of_render_crlf h hlaw),
    show itemTally.weight.of "<br>".toList = 0 by decide +kernel,
    show itemTally.weight.ofItem = 2 by decide +kernel] at hof
  obtain ⟨hquotes, htidy⟩ := QuoteLine.blockquotes_crlf (return_not_mem_ruled h)
    (not_isBare_quote_of_render_crlf h hlaw)
  rw [hquotes] at hof ⊢
  refine Listing.not_isBare_of_count_eq htidy
    (fun l hl => QuoteLine.getLast?_of_mem_dropLast_blockquotes hl) ?_
  omega

/-! ## The result -/

/-- **When line endings do not matter.** If no address of an image starts with a break in front of a
title, a text is rendered alike with a return in front of every break and without exactly when its
blocks are read alike. -/
theorem render_crlf_iff {t : Text} (h : '\r' ∉ t)
    (himage : ¬ Image.BreakFirst (blocks (Fence.codeBlocks t))) :
    dropReturns (render (crlf t)) = render t ↔ ReadsAlike t := by
  constructor
  · intro hlaw
    exact ⟨noTable_of_render_crlf h hlaw, not_isBare_quote_of_render_crlf h hlaw,
      not_isBare_item_of_render_crlf h hlaw⟩
  · intro halike
    exact render_crlf h halike himage

/-- A bare item below everything else, and a break that starts an address without a title, do no
harm. -/
theorem render_crlf_bare_last : '\r' ∉ "> a\n\n1. *b*\n---\n![c](\nd)\n- ".toList ∧
    ¬ Image.BreakFirst (blocks (Fence.codeBlocks "> a\n\n1. *b*\n---\n![c](\nd)\n- ".toList)) ∧
    ReadsAlike "> a\n\n1. *b*\n---\n![c](\nd)\n- ".toList ∧
    dropReturns (render (crlf "> a\n\n1. *b*\n---\n![c](\nd)\n- ".toList)) =
      render "> a\n\n1. *b*\n---\n![c](\nd)\n- ".toList := by
  have h : '\r' ∉ "> a\n\n1. *b*\n---\n![c](\nd)\n- ".toList := by decide
  have himage :
      ¬ Image.BreakFirst (blocks (Fence.codeBlocks "> a\n\n1. *b*\n---\n![c](\nd)\n- ".toList)) := by
    decide +kernel
  have halike : ReadsAlike "> a\n\n1. *b*\n---\n![c](\nd)\n- ".toList := by decide +kernel
  exact ⟨h, himage, halike, (render_crlf_iff h himage).2 halike⟩

/-- With returns, a table is left as it is. -/
theorem table_lost_with_returns : '\r' ∉ "|a|\n|-|".toList ∧
    render (crlf "|a|\n|-|".toList) = "|a|\r\n|-|".toList ∧
    dropReturns (render (crlf "|a|\n|-|".toList)) ≠ render "|a|\n|-|".toList := by
  decide +kernel

/-- Between a bracket and a break a return becomes the source of the image. -/
example : ReadsAlike "![a](\n\"b\")".toList ∧
    dropReturns (render (crlf "![a](\n\"b\")".toList)) ≠ render "![a](\n\"b\")".toList := by
  decide +kernel

end MarkdownPreview

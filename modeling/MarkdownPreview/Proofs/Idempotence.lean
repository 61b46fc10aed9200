import MarkdownPreview.Proofs.EscapedOnce
import MarkdownPreview.Proofs.ReturnsBlocks
import MarkdownPreview.Proofs.TableBlocks
/-!
# Block passes a second time

A block pass leaves nothing behind that it would change once more (`apply_idempotent`), although it
glues the line below a block to the markup and so changes which lines are next to each other. The
reason is the same for all six: what a pass writes starts with a tag, and no pass recognises a line
that starts with a tag, so whatever it could recognise in its own output stood in the text already,
with the same text around it.

* Rules and headings: the lines of the output are cut as they were before (`ofText_mapLines`).
* Quotes and lists: a line of the output is a line that was left alone, or starts with a tag.
* Tables: two such lines that stand one above the other did so in the text (`Grouped.noTable`).
* Code blocks: a fence of the output is a fence of the text, and what was left without a partner
  still has none (`blockAt?_suffix_codeBlocks`).
-/

namespace MarkdownPreview

open Text

/-! ## Lines that are cut once more -/

namespace Text

/-- A change of a line that leaves it alone or writes a tag in its place, and brings in no break. -/
structure WritesTags (f : Text → Text) : Prop where
  tag : ∀ l, f ('<' :: l) = '<' :: l
  eq_or_tag : ∀ l, f l = l ∨ (f l).head? = some '<'
  break_not_mem : ∀ l, '\n' ∉ l ∧ '\r' ∉ l → '\n' ∉ f l ∧ '\r' ∉ f l

namespace WritesTags

variable {f : Text → Text} (h : WritesTags f)
include h

theorem apply_apply (l : Text) : f (f l) = f l := by
  rcases h.eq_or_tag l with heq | htag
  · rw [heq, heq]
  · obtain ⟨u, hu⟩ := List.head?_eq_some_iff.1 htag
    rw [hu, h.tag]

theorem eq_nil {l : Text} (hl : f l = []) : l = [] := by
  rcases h.eq_or_tag l with heq | htag
  · rw [← heq, hl]
  · simp [hl] at htag

/-- Where no line becomes empty, no break of two characters comes up. -/
theorem cut_map {ls : List Line} (hls : Line.Cut ls) :
    Line.Cut (ls.map fun l => { l with body := f l.body }) := by
  induction hls with
  | last hbody => exact .last (h.break_not_mem _ hbody)
  | @above body b ls hbody hcr _ ih =>
    refine .above (h.break_not_mem _ hbody) (fun hb hfirst => hcr hb ?_) ih
    rw [List.head?_map] at hfirst
    obtain ⟨l, hl, heq⟩ := Option.map_eq_some_iff.1 hfirst
    obtain ⟨hbody, hending⟩ := Line.mk.inj heq
    rw [hl, ← h.eq_nil hbody, ← hending]

/-- The lines of a changed text are the changed lines of the text. -/
theorem ofText_mapLines (t : Text) :
    Line.ofText (mapLines f t) = (Line.ofText t).map fun l => { l with body := f l.body } :=
  (h.cut_map (Line.cut_ofText t)).ofText_print

theorem mapLines_mapLines (t : Text) : mapLines f (mapLines f t) = mapLines f t := by
  refine mapLines_eq_self ?_
  rw [h.ofText_mapLines, List.forall_mem_map]
  exact fun l _ => h.apply_apply l.body

end WritesTags

end Text

/-! ## Rules and headings -/

theorem Rule.writesTags_line : WritesTags line where
  tag := keepsReturns_line.tag
  eq_or_tag l := by
    unfold line
    split
    · exact Or.inr rfl
    · exact Or.inl rfl
  break_not_mem _ hl := ⟨not_mem_line (by decide) hl.1, not_mem_line (by decide) hl.2⟩

theorem Heading.writesTags_line : WritesTags line where
  tag := keepsReturns_line.tag
  eq_or_tag l := by
    unfold line
    split
    · exact Or.inr rfl
    · exact Or.inl rfl
  break_not_mem _ hl := ⟨not_mem_line (by decide) hl.1, not_mem_line (by decide) hl.2⟩

/-! ## Quotes and lists -/

theorem QuoteLine.blockquotes_blockquotes (t : Text) :
    blockquotes (blockquotes t) = blockquotes t := by
  refine blockquotes_eq_self (scan.forall_mem_lines_run (P := scan.Plain) rfl ofLine?_tag ?_)
  exact fun l hl => (mem_of_line_mem_pieces hl).2

theorem Listing.lists_lists (t : Text) : lists (lists t) = lists t := by
  refine lists_eq_self (scan.forall_mem_lines_run (P := scan.Plain) item?_nil item?_tag ?_)
  exact fun l hl => (mem_of_line_mem_pieces hl).2

/-! ## Tables -/

theorem Text.head?_lines_cons {c : Char} (hc : c ≠ '\n') (t : Text) :
    ∀ l ∈ (lines (c :: t)).head?, l.head? = some c := by
  obtain ⟨l, ls, hl⟩ := List.exists_cons_of_ne_nil (lines_ne_nil t)
  unfold lines at hl ⊢
  rw [List.splitOn_cons_eq_if_modifyHead, hl]
  simp [hc]

namespace Table

theorem break_not_mem_alignedCells {tag l : Text} (htag : '\n' ∉ tag) (columns : List Alignment)
    (hrow : IsRow l) (hl : '\n' ∉ l) : '\n' ∉ alignedCells tag columns l := by
  rw [← row_eq_alignedCells]
  exact break_not_mem_row tag htag columns _ fun c hc hm =>
    hl (mem_of_mem_cells (cells?_of_isRow hrow) hc hm)

theorem break_not_mem_tableHtml {header delimiter : Text} {body : List Text}
    (hheader : IsRow header ∧ '\n' ∉ header) (hbody : ∀ r ∈ body, IsRow r ∧ '\n' ∉ r) :
    '\n' ∉ tableHtml header delimiter body := by
  have hrow : ∀ {tag l : Text} (columns : List Alignment), '\n' ∉ tag → IsRow l ∧ '\n' ∉ l →
      '\n' ∉ element "tr".toList (alignedCells tag columns l) := fun columns htag hl =>
    not_mem_element (by decide) (by decide) (break_not_mem_alignedCells htag columns hl.1 hl.2)
  refine not_mem_element (by decide) (by decide) ?_
  rw [List.mem_append, not_or]
  refine ⟨not_mem_element (by decide) (by decide) (hrow _ (by decide) hheader),
    not_mem_element (by decide) (by decide) ?_⟩
  rw [List.mem_flatMap]
  rintro ⟨r, hr, hm⟩
  exact hrow _ (by decide) (hbody r hr) hm

/-- A delimiter row at the start of what is written for some lines is the first of them. -/
theorem Grouped.mem_head? {ls : List Text} {blocks : List Block} (h : Grouped ls blocks)
    (hls : ∀ l ∈ ls, '\n' ∉ l) {d : Text} (hd : isDelimiter d = true)
    (hfirst : d ∈ (lines (Piece.print (blocks.map Block.piece))).head?) : d ∈ ls.head? := by
  cases h with
  | nil =>
    have hempty : [] = d := by simpa [Piece.print, lines] using hfirst
    simp [← hempty, isDelimiter] at hd
  | table =>
    have htag := head?_lines_cons (by decide) _ d hfirst
    obtain ⟨u, rfl⟩ := List.head?_eq_some_iff.1 htag
    simp [isDelimiter] at hd
  | @line l rest blocks =>
    have hl : lines l = [l] := lines_of_break_not_mem (hls l List.mem_cons_self)
    cases blocks with
    | nil => simpa [Block.piece, Piece.print, hl] using hfirst
    | cons b blocks =>
      rw [List.map_cons, List.map_cons, Block.piece, Piece.print_line_cons, lines_append_break,
        hl] at hfirst
      simpa using hfirst

/-- What is written for some lines has no delimiter row below a row: two such lines would be next to
each other in the text too and open a table there. The induction is on the blocks; `pre` is what the
current line has so far. -/
theorem Grouped.noTable {ls : List Text} {blocks : List Block} (h : Grouped ls blocks)
    (hls : ∀ l ∈ ls, '\n' ∉ l) : ∀ pre : Text, '\n' ∉ pre → (pre = [] ∨ pre.head? = some '<') →
    NoTable (lines (pre ++ Piece.print (blocks.map Block.piece))) := by
  induction h with
  | nil =>
    intro pre hbreak _
    rw [List.map_nil, Piece.print, List.append_nil, lines_of_break_not_mem hbreak]
    exact List.isChain_singleton pre
  | @table header delimiter body rest blocks hheader hdelimiter hbody hrest _ ih =>
    intro pre hbreak hpre
    simp only [List.forall_mem_cons, List.forall_mem_append] at hls
    have hhtml : '\n' ∉ tableHtml header delimiter body :=
      break_not_mem_tableHtml ⟨hheader, hls.1⟩ fun r hr => ⟨hbody r hr, hls.2.2.1 r hr⟩
    rw [List.map_cons, Block.piece, Piece.print_markup, ← List.append_assoc]
    exact ih hls.2.2.2 _ (by simp [hbreak, hhtml])
      (Or.inr (Piece.head?_append_tag hpre fun _ => rfl))
  | @line l rest blocks hline h ih =>
    intro pre hbreak hpre
    rw [List.forall_mem_cons] at hls
    have hpl : lines (pre ++ l) = [pre ++ l] := lines_of_break_not_mem (by simp [hbreak, hls.1])
    cases hb : blocks with
    | nil =>
      rw [List.map_singleton, Block.piece, Piece.print, hpl]
      exact List.isChain_singleton _
    | cons b bs =>
      have ih := ih hls.2 [] (by simp) (Or.inl rfl)
      rw [List.map_cons, List.map_cons, Block.piece, Piece.print_line_cons, ← List.append_assoc,
        lines_append_break, hpl, List.singleton_append, ← List.map_cons, ← hb]
      refine List.isChain_cons.2 ⟨fun d hd => ?_, ih⟩
      rintro ⟨hrow, hdelimiter⟩
      rcases hpre with rfl | hhead
      · exact hline ⟨hrow, d, h.mem_head? hls.2 hdelimiter hd, hdelimiter⟩
      · obtain ⟨u, rfl⟩ := List.head?_eq_some_iff.1 hhead
        simp [IsRow, cells?_tag] at hrow

theorem tables_tables (t : Text) : tables (tables t) = tables t := by
  obtain ⟨blocks, h⟩ := exists_grouped (lines t)
  have hprint : tables t = Piece.print (blocks.map Block.piece) := print_events h
  refine tables_eq_self ?_
  rw [hprint]
  exact h.noTable (fun l hl => break_not_mem_of_mem_lines hl) [] (by simp) (Or.inl rfl)

end Table

/-! ## Code blocks -/

namespace Fence

theorem blockAt?_eq_none {t : Text} (h : ¬ mark <+: t) : blockAt? t = none := by
  rw [blockAt?, isPrefixOf?_eq_none_iff.2 h]
  rfl

/-- Encoding keeps fences and brings in none. -/
theorem infix_encode_iff {t : Text} : mark <:+: Entity.encode t ↔ mark <:+: t := by
  have hcode : Entity.encode mark = '`' :: "``".toList := by decide
  have hbacktick : ∀ e : Entity, '`' ∉ e.text.tail := by intro e; cases e <;> decide
  have hcount : occurrences mark (Entity.encode t) = occurrences mark t :=
    Entity.occurrences_encode hcode hbacktick t
  have hne : mark ≠ [] := by decide
  rw [← not_iff_not, ← occurrences_eq_zero_iff hne, ← occurrences_eq_zero_iff hne, hcount]

theorem not_infix_block {code : Text} (h : ¬ mark <:+: code) : ¬ mark <:+: block code := by
  have hcode : ¬ mark <:+: Entity.encode (dropLastBreak (dropFirstBreak code)) := by
    rw [infix_encode_iff]
    intro hm
    have hkept := hm.trans (isPrefix_dropLastBreak (dropFirstBreak code)).isInfix
    exact h (hkept.trans (isSuffix_dropFirstBreak code).isInfix)
  have hblock : block code = "<pre><code".toList ++ '>' ::
      (Entity.encode (dropLastBreak (dropFirstBreak code)) ++ '<' :: "/code></pre>".toList) := by
    simp [block, element, openTag, closeTag]
  rw [hblock]
  intro hm
  rcases isInfix_or_of_append_cons hm (by decide) with hm | hm
  · exact absurd hm (by decide)
  · rcases isInfix_or_of_append_cons hm (by decide) with hm | hm
    · exact hcode hm
    · exact absurd hm (by decide)

/-- What a pair of fences becomes starts and ends with a tag and has no fence in it. -/
theorem block_shape {t out rest : Text} (h : blockAt? t = some (out, rest)) :
    out.head? = some '<' ∧ out.getLast? = some '>' ∧ ¬ mark <:+: out := by
  obtain ⟨inner, -, h⟩ := Option.bind_eq_some_iff.1 h
  obtain ⟨⟨code, r⟩, hc, he⟩ := Option.map_eq_some_iff.1 h
  obtain ⟨rfl, -⟩ := Prod.mk.inj he
  refine ⟨rfl, ?_, not_infix_block (not_infix_of_cut? (by decide) hc)⟩
  simp [block, element, closeTag, List.getLast?_append]

/-- A fence without a partner leaves everything behind it alone. -/
theorem codeBlocks_eq_self_of_blockAt? {t : Text} (hmark : mark <+: t) (h : blockAt? t = none) :
    codeBlocks t = t := by
  obtain ⟨inner, rfl⟩ := hmark
  rw [blockAt?, isPrefixOf?_append, Option.bind_some, Option.map_eq_none_iff] at h
  refine Pattern.replace_eq_self_of_found_eq_nil (Pattern.found_eq_nil fun u hu => ?_)
  cases hs : blockAt? u with
  | none => exact hs
  | some span =>
    obtain ⟨code, rfl, -⟩ := blockAt?_eq_some hs
    have hlength := hu.length_le
    have hinner : code ++ mark ++ span.2 <:+ inner := by
      refine List.suffix_of_suffix_length_le (List.IsSuffix.trans ?_ hu)
        (List.suffix_append mark inner) ?_
      · exact ⟨mark, by simp⟩
      · simp only [List.length_append] at hlength ⊢
        omega
    refine absurd (List.IsInfix.trans ?_ hinner.isInfix) (not_infix_of_cut?_eq_none h)
    exact ⟨code, span.2, rfl⟩

/-- Backticks at the start of the written text are backticks at the start of the text. -/
theorem replicate_prefix_of_codeBlocks {n : Nat} {t : Text}
    (h : List.replicate n '`' <+: codeBlocks t) : List.replicate n '`' <+: t := by
  induction n generalizing t with
  | zero => exact List.nil_prefix
  | succ n ih =>
    rw [List.replicate_succ] at h ⊢
    cases hs : pattern.spanAt? t with
    | some span =>
      obtain ⟨out, rest⟩ := span
      obtain ⟨u, rfl⟩ := List.head?_eq_some_iff.1 (block_shape hs).1
      rw [codeBlocks, Pattern.replace_of_spanAt? hs, List.cons_append] at h
      exact absurd (List.cons_prefix_cons.1 h).1 (by decide)
    | none =>
      cases t with
      | nil => rwa [codeBlocks, Pattern.replace_nil] at h
      | cons c t =>
        rw [codeBlocks, Pattern.replace_cons hs, List.cons_prefix_cons] at h
        exact List.cons_prefix_cons.2 ⟨h.1, ih h.2⟩

/-- No pair of fences starts anywhere in what is written for a text. -/
theorem blockAt?_suffix_codeBlocks (t : Text) : ∀ u, u <:+ codeBlocks t → blockAt? u = none := by
  induction t using Pattern.walk_induction (p := pattern) with
  | nil =>
    intro u hu
    rw [codeBlocks, Pattern.replace_nil, List.suffix_nil] at hu
    rw [hu]
    rfl
  | span t out rest hs ih =>
    intro u hu
    rw [codeBlocks, Pattern.replace_of_spanAt? hs] at hu
    obtain ⟨-, hlast, hfence⟩ := block_shape hs
    rcases suffix_append_cases hu with hu | ⟨v, hv, hout, rfl⟩
    · exact ih u hu
    · -- the rest of the block ends with `>`, so a fence does not reach over its end
      refine blockAt?_eq_none fun hmark => ?_
      rcases List.prefix_or_prefix_of_prefix hmark (List.prefix_append v _) with hm | hm
      · exact hfence (hm.isInfix.trans hout.isInfix)
      · have hgt : '>' ∈ v := by
          obtain ⟨w, rfl⟩ := hout
          rw [List.getLast?_append_of_ne_nil _ hv] at hlast
          exact List.mem_of_getLast? hlast
        exact absurd (hm.subset hgt) (by decide)
  | copy c t hs ih =>
    intro u hu
    have hcopy : codeBlocks (c :: t) = c :: codeBlocks t := Pattern.replace_cons hs
    rw [hcopy] at hu
    rcases List.suffix_cons_iff.1 hu with rfl | hu
    · rw [← hcopy]
      by_cases hmark : mark <+: c :: t
      · rw [codeBlocks_eq_self_of_blockAt? hmark hs]
        exact hs
      · exact blockAt?_eq_none fun hm => hmark (replicate_prefix_of_codeBlocks (n := 3) hm)
    · exact ih u hu

theorem codeBlocks_codeBlocks (t : Text) : codeBlocks (codeBlocks t) = codeBlocks t :=
  Pattern.replace_eq_self_of_found_eq_nil
    (Pattern.found_eq_nil (blockAt?_suffix_codeBlocks t))

end Fence

/-! ## All block passes -/

namespace Pass

/-- The passes that read blocks of lines. -/
def blockPasses : List Pass :=
  [.codeBlocks, .horizontalRules, .tables, .blockquotes, .lists, .headings]

/-- **Block passes are idempotent.** Whatever the text, a block pass that reads what it has written
leaves it alone. -/
theorem apply_idempotent {p : Pass} (hp : p ∈ blockPasses) (t : Text) :
    p.apply (p.apply t) = p.apply t := by
  simp only [blockPasses, List.mem_cons, List.not_mem_nil, or_false] at hp
  rcases hp with rfl | rfl | rfl | rfl | rfl | rfl
  · exact Fence.codeBlocks_codeBlocks t
  · exact Rule.writesTags_line.mapLines_mapLines t
  · exact Table.tables_tables t
  · exact QuoteLine.blockquotes_blockquotes t
  · exact Listing.lists_lists t
  · exact Heading.writesTags_line.mapLines_mapLines t

/-- Of four backticks one is left over, and it makes no pair with the fence behind it. -/
theorem codeBlocks_left_over :
    Pass.codeBlocks ∈ blockPasses ∧
      Pass.codeBlocks.apply (Pass.codeBlocks.apply "```a````b```".toList) =
        "<pre><code>a</code></pre>`b```".toList := by
  have hblock : Pass.codeBlocks ∈ blockPasses := by decide
  have honce : Pass.codeBlocks.apply "```a````b```".toList =
      "<pre><code>a</code></pre>`b```".toList := by decide +kernel
  exact ⟨hblock, (apply_idempotent hblock _).trans honce⟩

end Pass

end MarkdownPreview

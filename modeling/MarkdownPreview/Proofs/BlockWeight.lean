import MarkdownPreview.Markup.Pass
import MarkdownPreview.Proofs.LineScan
import MarkdownPreview.Proofs.Weight
/-!
# What the block passes weigh

A block pass moves, wraps and joins the lines it recognises; what it drops are markers, and what it
adds are tags, each with the one that closes it. So it adds to the weight of a text what it writes
for every table, quote line or item (`of_tables`, `of_blockquotes`, `of_lists`), and a weight that
ignores the tags is kept (`of_blocks`). The induction is on the lines, with the tags that are still
to be closed on the other side (`sum_table_events`, `sum_quote_pieces`, `sum_list_events`).
-/

namespace MarkdownPreview

open Text

/-- The opening tag of a table cell. -/
def Table.cellTag (tag : Text) (a : Alignment) : Text :=
  '<' :: tag ++ " style=\"text-align: ".toList ++ a.css ++ "\">".toList

/-- The event opens a table. -/
def Table.Event.isOpening : Event → Bool
  | .opens _ _ => true
  | _ => false

/-- How many tables some lines open. -/
def Table.opened (columns : Option (List Alignment)) (ls : List Text) : Nat :=
  (events columns ls).countP Event.isOpening

/-- How many quote lines a text has. -/
def QuoteLine.count (t : Text) : Nat := (lines t).countP fun l => (ofLine? l).isSome

/-- How many items a text has. -/
def Listing.count (t : Text) : Nat := (lines t).countP fun l => (item? l).isSome

/-- The text after the block passes, which read what the code blocks left. -/
def blocks (t : Text) : Text :=
  Pass.applyAll [.horizontalRules, .tables, .blockquotes, .lists, .headings] t

/-! ## The ends of markup -/

theorem Table.getLast?_of_mem_pieces (columns : Option (List Alignment)) (ls : List Text) :
    ∀ m, .markup m ∈ (events columns ls).map Event.piece → m.getLast? = some '>' := by
  intro m hm
  obtain ⟨e, -, he⟩ := List.mem_map.1 hm
  cases e with
  | opens columns header =>
    rw [← Piece.markup.inj he, List.getLast?_append]
    rfl
  | row columns cells =>
    rw [← Piece.markup.inj he]
    exact (isMarkup_element _ _).2
  | closes =>
    rw [← Piece.markup.inj he]
    rfl
  | line l => exact absurd he (by simp [Event.piece])

theorem QuoteLine.getLast?_of_mem_step (source target : Nat) :
    ∀ m, .markup m ∈ step source target → m.getLast? = some '>' := by
  intro m hm
  simp only [step, List.mem_append, List.mem_replicate, Piece.markup.injEq] at hm
  rcases hm with ⟨-, rfl⟩ | ⟨-, rfl⟩
  · exact (isMarkup_closeTag _).2
  · exact (isMarkup_openTag _).2

theorem QuoteLine.getLast?_of_mem_pieces (depth : Nat) (ls : List Text) :
    ∀ m, .markup m ∈ pieces depth ls → m.getLast? = some '>' := by
  induction ls generalizing depth with
  | nil => exact getLast?_of_mem_step depth 0
  | cons l ls ih =>
    intro m hm
    simp only [pieces] at hm
    split at hm
    · next q hq =>
      simp only [List.mem_append, List.mem_cons, Piece.markup.injEq] at hm
      rcases hm with hm | rfl | hm
      · exact getLast?_of_mem_step _ _ m hm
      · rw [List.getLast?_append]
        rfl
      · exact ih _ m hm
    · simp only [List.mem_append, List.mem_cons, reduceCtorEq, false_or] at hm
      rcases hm with hm | hm
      · exact getLast?_of_mem_step _ _ m hm
      · exact ih _ m hm

theorem Listing.getLast?_of_mem_pieces (stack : List Frame) (ls : List Text) :
    ∀ m, .markup m ∈ (events stack ls).map Event.piece → m.getLast? = some '>' := by
  intro m hm
  obtain ⟨e, -, he⟩ := List.mem_map.1 hm
  cases e with
  | opens f => rw [← Piece.markup.inj he]; exact (isMarkup_openTag _).2
  | item i => rw [← Piece.markup.inj he]; exact (isMarkup_element _ _).2
  | closes f => rw [← Piece.markup.inj he]; exact (isMarkup_closeTag _).2
  | line l => exact absurd he (by simp [Event.piece])

namespace Weight

variable {w : Weight}

/-- The tags of the block passes weigh nothing, each with the tags that close what it opens. -/
structure IgnoresBlocks (w : Weight) : Prop where
  rule : w.of "<hr>".toList = 0
  table : w.of "<table><thead><tr>".toList + w.of "</tr></thead><tbody>".toList +
    w.of "</tbody></table>".toList = 0
  row : w.Neutral "tr".toList
  cell : ∀ tag ∈ ["th".toList, "td".toList], ∀ a : Alignment,
    w.of (Table.cellTag tag a) + w.of (closeTag tag) = 0
  quote : w.Neutral "blockquote".toList
  lineBreak : w.of "<br>".toList = 0
  list : ∀ k : Listing.Kind, w.Neutral k.tag
  item : w.Neutral "li".toList
  heading : ∀ n ≤ Heading.maxLevel, w.Neutral ('h' :: decimal n)

instance {P : Alignment → Prop} [DecidablePred P] : Decidable (∀ a, P a) :=
  decidable_of_iff (P .left ∧ P .center ∧ P .right)
    ⟨fun ⟨hl, hc, hr⟩ a => by cases a <;> assumption, fun h => ⟨h _, h _, h _⟩⟩

instance {P : Listing.Kind → Prop} [DecidablePred P] : Decidable (∀ k, P k) :=
  decidable_of_iff (P .unordered ∧ P .ordered)
    ⟨fun ⟨hu, ho⟩ k => by cases k <;> assumption, fun h => ⟨h _, h _⟩⟩

instance (name : Text) : Decidable (w.Neutral name) := inferInstanceAs (Decidable (_ = _))

instance : Decidable w.IgnoresBlocks :=
  decidable_of_iff (w.of "<hr>".toList = 0 ∧
      w.of "<table><thead><tr>".toList + w.of "</tr></thead><tbody>".toList +
        w.of "</tbody></table>".toList = 0 ∧
      w.Neutral "tr".toList ∧
      (∀ tag ∈ ["th".toList, "td".toList], ∀ a : Alignment,
        w.of (Table.cellTag tag a) + w.of (closeTag tag) = 0) ∧
      w.Neutral "blockquote".toList ∧ w.of "<br>".toList = 0 ∧ (∀ k : Listing.Kind, w.Neutral k.tag) ∧
      w.Neutral "li".toList ∧ ∀ n ≤ Heading.maxLevel, w.Neutral ('h' :: decimal n))
    ⟨fun ⟨h1, h2, h3, h4, h5, h6, h7, h8, h9⟩ => ⟨h1, h2, h3, h4, h5, h6, h7, h8, h9⟩,
      fun ⟨h1, h2, h3, h4, h5, h6, h7, h8, h9⟩ => ⟨h1, h2, h3, h4, h5, h6, h7, h8, h9⟩⟩

/-! ## Tables -/

theorem sum_cells {l : Text} {cells : List Text} (h : Table.cells? l = some cells) :
    (cells.map w.of).sum = w.of l := by
  obtain ⟨inner, rfl, rfl⟩ := Table.cells?_eq_some h
  have hfirst := w.of_append_cons (c := '|') (by decide) [] (inner ++ ['|'])
  have hlast := w.of_append_cons (c := '|') (by decide) inner []
  rw [List.map_map, show w.of ∘ trim = w.of from funext w.of_trim, w.of_splitOn (by decide)]
  simp only [List.nil_append, of_nil] at hfirst hlast
  rw [List.cons_append, hfirst, hlast]
  omega

theorem of_row {tag : Text}
    (htag : ∀ a : Alignment, w.of (Table.cellTag tag a) + w.of (closeTag tag) = 0) :
    ∀ (columns : List Alignment) (cells : List Text),
      w.of (Table.row tag columns cells) = (cells.map w.of).sum
  | _, [] => by simp [Table.row]
  | columns, c :: cells => by
    have ih := of_row htag columns.tail cells
    have h := htag (columns.headD .left)
    have hlast : (Table.cellTag tag (columns.headD .left)).getLast? = some '>' := by
      rw [Table.cellTag, List.getLast?_append]
      rfl
    have hcell : w.of (Table.cell tag (columns.headD .left) c) = w.of c := by
      rw [show Table.cell tag (columns.headD .left) c =
          Table.cellTag tag (columns.headD .left) ++ c ++ closeTag tag from rfl,
        w.of_wrap hlast (isMarkup_closeTag tag).1]
      omega
    have hend : (Table.cell tag (columns.headD .left) c).getLast? = some '>' := by
      rw [Table.cell, List.getLast?_append, (isMarkup_closeTag tag).2, Option.some_or]
    rw [Table.row, w.of_append_of_getLast? hend (Or.inl rfl), hcell, ih, List.map_cons, List.sum_cons]

/-- A delimiter row weighs nothing. -/
theorem of_columns {l : Text} {columns : List Alignment} (h : Table.columns? l = some columns) :
    w.of l = 0 := by
  refine w.of_markers l (List.all_eq_true.2 fun c hc => ?_)
  rcases Table.isDelimiter_chars (Table.columns?_eq_some h).1 c hc with rfl | rfl | rfl | hb
  · decide
  · decide
  · decide
  · exact isMarker_of_isBlank hb

/-- What is written for a table besides its rows. -/
def ofTable (w : Weight) : Int :=
  w.of "<table><thead><tr>".toList + w.of "</tr></thead><tbody>".toList +
    w.of "</tbody></table>".toList

theorem sum_table_events (hrow : w.Neutral "tr".toList)
    (hcell : ∀ tag ∈ ["th".toList, "td".toList], ∀ a : Alignment,
      w.of (Table.cellTag tag a) + w.of (closeTag tag) = 0)
    (columns : Option (List Alignment)) (ls : List Text) :
    ((Table.events columns ls).map (w.ofPiece ∘ Table.Event.piece)).sum =
      (ls.map w.of).sum + Table.opened columns ls * w.ofTable +
        if columns.isSome then w.of "</tbody></table>".toList else 0 := by
  have hclose : w.ofPiece Table.Event.closes.piece = w.of "</tbody></table>".toList := rfl
  have hline : ∀ l, w.ofPiece (Table.Event.line l).piece = w.of l := fun _ => rfl
  unfold Table.opened
  fun_induction Table.events columns ls with
  | case1 => simp
  | case2 columns => simp [hclose, Table.Event.isOpening]
  | case3 columns l ls cells hc ih =>
    have hp : w.ofPiece (Table.Event.row columns cells).piece = w.of l := by
      rw [← sum_cells hc, ← of_row (hcell "td".toList (by simp)) columns cells,
        ← w.of_element_of_neutral hrow]
      rfl
    rw [List.countP_cons_of_neg (by simp [Table.Event.isOpening])]
    simp only [List.map_cons, List.sum_cons, Function.comp_apply, hp, ih]
    omega
  | case4 columns l ls hc ih =>
    rw [List.countP_cons_of_neg (by simp [Table.Event.isOpening]),
      List.countP_cons_of_neg (by simp [Table.Event.isOpening])]
    simp only [List.map_cons, List.sum_cons, Function.comp_apply, hclose, hline, ih,
      Option.isSome_some, Option.isSome_none, if_true, Bool.false_eq_true, if_false]
    omega
  | case5 l => simp [hline, Table.Event.isOpening]
  | case6 l d ls header columns hd hc ih =>
    have hp : w.ofPiece (Table.Event.opens columns header).piece + w.of "</tbody></table>".toList =
        w.of l + w.ofTable := by
      have hcells := of_row (hcell "th".toList (by simp)) columns header
      have hwrap := w.of_wrap (o := "<table><thead><tr>".toList)
        (c := "</tr></thead><tbody>".toList) (by decide)
        (by decide) (Table.row "th".toList columns header)
      rw [sum_cells hc] at hcells
      simp only [Table.Event.piece, ofPiece, hwrap, hcells, ofTable]
      omega
    rw [List.countP_cons_of_pos rfl]
    simp only [List.map_cons, List.sum_cons, Function.comp_apply, ih, of_columns hd,
      Option.isSome_some, Option.isSome_none, if_true, Bool.false_eq_true, if_false,
      Int.natCast_add, Int.natCast_one, Int.add_mul, Int.one_mul]
    omega
  | case7 l d ls hne ih =>
    rw [List.countP_cons_of_neg (by simp [Table.Event.isOpening])]
    simp only [List.map_cons, List.sum_cons, Function.comp_apply, hline, ih]
    omega

theorem of_tables (hrow : w.Neutral "tr".toList)
    (hcell : ∀ tag ∈ ["th".toList, "td".toList], ∀ a : Alignment,
      w.of (Table.cellTag tag a) + w.of (closeTag tag) = 0) (t : Text) :
    w.of (Table.tables t) = w.of t + Table.opened none (lines t) * w.ofTable := by
  have hprint := w.of_print _ (Table.getLast?_of_mem_pieces none (lines t))
  rw [Table.tables, hprint, List.map_map, sum_table_events hrow hcell, w.of_lines]
  simp

/-! ## Quotes -/

theorem of_quote_line {l : Text} {q : QuoteLine} (h : QuoteLine.ofLine? l = some q) :
    w.of q.content = w.of l := by
  obtain ⟨b, hl, hb, -⟩ := QuoteLine.ofLine?_eq_some h
  have hmarks : (List.replicate q.depth '>').all isMarker = true := by
    rw [List.all_eq_true]
    intro c hc
    rw [(List.mem_replicate.1 hc).2]
    decide
  rw [hl, w.of_append_blank hb, w.of_markers _ hmarks, Int.zero_add]

/-- Going from one depth to another weighs the difference in opening tags. -/
theorem sum_step (hquote : w.Neutral "blockquote".toList) (source target : Nat) :
    ((QuoteLine.step source target).map w.ofPiece).sum + source * w.of (openTag "blockquote".toList) =
      target * w.of (openTag "blockquote".toList) := by
  have hclose : w.of (closeTag "blockquote".toList) = -w.of (openTag "blockquote".toList) := by
    unfold Neutral at hquote
    omega
  have hsum : ((QuoteLine.step source target).map w.ofPiece).sum =
      ((source - target : Nat) : Int) * -w.of (openTag "blockquote".toList) +
        ((target - source : Nat) : Int) * w.of (openTag "blockquote".toList) := by
    rw [← hclose, QuoteLine.step, List.map_append, List.sum_append_int, List.map_replicate,
      List.map_replicate,
      List.sum_replicate_int, List.sum_replicate_int]
    rfl
  rw [hsum]
  rcases Nat.le_total source target with h | h
  · obtain ⟨k, rfl⟩ := Nat.exists_eq_add_of_le h
    rw [Nat.sub_eq_zero_of_le (Nat.le_add_right source k), Nat.add_sub_cancel_left, Int.natCast_add,
      Int.add_mul,
      Int.natCast_zero, Int.zero_mul]
    omega
  · obtain ⟨k, rfl⟩ := Nat.exists_eq_add_of_le h
    rw [Nat.sub_eq_zero_of_le (Nat.le_add_right target k), Nat.add_sub_cancel_left, Int.natCast_add,
      Int.add_mul,
      Int.mul_neg, Int.natCast_zero, Int.zero_mul]
    omega

theorem sum_quote_pieces (hquote : w.Neutral "blockquote".toList) (ls : List Text) :
    ∀ depth : Nat,
      ((QuoteLine.pieces depth ls).map w.ofPiece).sum + depth * w.of (openTag "blockquote".toList) =
        (ls.map w.of).sum +
          ls.countP (fun l => (QuoteLine.ofLine? l).isSome) * w.of "<br>".toList := by
  induction ls with
  | nil =>
    intro depth
    have hstep := sum_step hquote depth 0
    simpa [QuoteLine.pieces] using hstep
  | cons l ls ih =>
    intro depth
    simp only [QuoteLine.pieces]
    split
    · next q hq =>
      have hstep := sum_step hquote depth q.depth
      have ih := ih q.depth
      have hp : w.ofPiece (.markup (q.content ++ "<br>".toList)) = w.of l + w.of "<br>".toList := by
        rw [ofPiece, w.of_append_of_head? rfl (Or.inl rfl), of_quote_line hq]
      rw [List.countP_cons_of_pos (by simp [hq])]
      simp only [List.map_append, List.sum_append_int, List.map_cons, List.sum_cons, hp,
        Int.natCast_add, Int.natCast_one, Int.add_mul, Int.one_mul]
      omega
    · next hq =>
      have hstep := sum_step hquote depth 0
      have ih := ih 0
      have hl : w.ofPiece (.line l) = w.of l := rfl
      rw [List.countP_cons_of_neg (by simp [hq])]
      simp only [List.map_append, List.sum_append_int, List.map_cons, List.sum_cons, hl]
      omega

theorem of_blockquotes (hquote : w.Neutral "blockquote".toList) (t : Text) :
    w.of (QuoteLine.blockquotes t) = w.of t + QuoteLine.count t * w.of "<br>".toList := by
  have hsum := sum_quote_pieces hquote (lines t) 0
  rw [w.of_lines] at hsum
  rw [QuoteLine.blockquotes, QuoteLine.count, w.of_print _ (QuoteLine.getLast?_of_mem_pieces _ _)]
  simpa using hsum

/-! ## Lists -/

theorem of_marker {m : Text} (h : Listing.IsMarker m) : w.of m = 0 := by
  rcases h with ⟨c, hc, rfl⟩ | ⟨ds, hds, rfl⟩
  · simp only [Listing.bullets, List.mem_cons, List.not_mem_nil, or_false] at hc
    rcases hc with rfl | rfl | rfl
    · exact w.of_asterisk
    · exact w.of_markers _ rfl
    · exact w.of_markers _ rfl
  · refine w.of_markers _ (List.all_eq_true.2 fun c hc => ?_)
    rcases List.mem_append.1 hc with hc | hc
    · simp [isMarker, hds c hc]
    · rw [List.mem_singleton.1 hc]; decide

theorem of_item {l : Text} {i : Listing.Item} (h : Listing.item? l = some i) :
    w.of i.content = w.of l := by
  obtain ⟨indent, m, b, rest, rfl, hindent, hm, hb, hcontent⟩ := Listing.item?_eq_some h
  rw [hcontent, w.of_trim, w.of_append_blank hb, w.of_blanks_append hindent, of_marker hm,
    Int.zero_add]

/-- What is written for an item. -/
def ofItem (w : Weight) : Int := w.of (openTag "li".toList) + w.of (closeTag "li".toList)

theorem sum_list_events (hlist : ∀ k : Listing.Kind, w.Neutral k.tag) (ls : List Text) :
    ∀ stack : List Listing.Frame,
      ((Listing.events stack ls).map (w.ofPiece ∘ Listing.Event.piece)).sum +
        (stack.map fun f => w.of (openTag f.kind.tag)).sum =
          (ls.map w.of).sum + ls.countP (fun l => (Listing.item? l).isSome) * w.ofItem := by
  have hcloses :
      ∀ fs : List Listing.Frame,
        ((fs.map Listing.Event.closes).map (w.ofPiece ∘ Listing.Event.piece)).sum +
      (fs.map fun f => w.of (openTag f.kind.tag)).sum = 0 := by
    intro fs
    induction fs with
    | nil => rfl
    | cons f fs ih =>
      have hf : w.ofPiece (Listing.Event.closes f).piece = w.of (closeTag f.kind.tag) := rfl
      have hneutral := hlist f.kind
      unfold Neutral at hneutral
      simp only [List.map_cons, List.sum_cons, Function.comp_apply, hf]
      omega
  have hopens :
      ∀ fs : List Listing.Frame,
        ((fs.map Listing.Event.opens).map (w.ofPiece ∘ Listing.Event.piece)).sum =
      (fs.map fun f => w.of (openTag f.kind.tag)).sum := by
    intro fs; rw [List.map_map]; rfl
  induction ls with
  | nil =>
    intro stack
    simpa [Listing.events] using hcloses stack
  | cons l ls ih =>
    intro stack
    simp only [Listing.events]
    split
    · next i hi =>
      have hitem : w.ofPiece (Listing.Event.item i).piece = w.of l + w.ofItem := by
        have helement := w.of_element "li".toList i.content
        rw [of_item hi] at helement
        simp only [Listing.Event.piece, ofPiece, helement, ofItem]
        omega
      have hstack : (stack.map fun f => w.of (openTag f.kind.tag)).sum =
          ((stack.takeWhile i.ends).map fun f => w.of (openTag f.kind.tag)).sum +
            ((i.kept stack).map fun f => w.of (openTag f.kind.tag)).sum := by
        rw [← List.sum_append_int, ← List.map_append, Listing.Item.kept,
          List.takeWhile_append_dropWhile]
      have hclosed := hcloses (stack.takeWhile i.ends)
      have ih := ih (i.enter stack)
      simp only [Listing.Item.enter, List.map_append, List.sum_append_int] at ih
      rw [List.countP_cons_of_pos (by simp [hi])]
      simp only [List.map_append, List.sum_append_int, List.map_cons, List.sum_cons,
        Function.comp_apply, hitem, hopens, Int.natCast_add, Int.natCast_one, Int.add_mul,
        Int.one_mul]
      simp only [Listing.Item.enter]
      omega
    · next hi =>
      have hl : w.ofPiece (Listing.Event.line l).piece = w.of l := rfl
      have hclosed := hcloses stack
      have ih := ih []
      rw [List.countP_cons_of_neg (by simp [hi])]
      simp only [List.map_append, List.sum_append_int, List.map_cons, List.sum_cons,
        Function.comp_apply, hl]
      simp only [List.map_nil, List.sum_nil] at ih
      omega

theorem of_lists (hlist : ∀ k : Listing.Kind, w.Neutral k.tag) (t : Text) :
    w.of (Listing.lists t) = w.of t + Listing.count t * w.ofItem := by
  have hprint := w.of_print _ (Listing.getLast?_of_mem_pieces [] (lines t))
  have hsum := sum_list_events hlist (lines t) []
  rw [w.of_lines] at hsum
  rw [Listing.lists, Listing.count, hprint, List.map_map]
  simpa using hsum

/-! ## Headings and rules -/

theorem isBlank_of_mem_endingText {l : Line} {c : Char} (h : c ∈ l.endingText) :
    isBlank c = true := by
  obtain ⟨body, ending⟩ := l
  rcases ending with _ | _ | _ | _ <;> simp [Line.endingText, LineBreak.text] at h
  · rw [h]; decide
  · rw [h]; decide
  · rcases h with rfl | rfl <;> decide

/-- Lines weigh what stands between their breaks, as long as only the last may have no break. -/
theorem of_print_lines : ∀ ls : List Line, (∀ l ∈ ls.dropLast, l.ending ≠ none) →
    w.of (Line.print ls) = (ls.map fun l => w.of l.body).sum
  | [], _ => w.of_nil
  | [l], _ => by
    have hend := w.of_append_blanks (fun c hc => isBlank_of_mem_endingText (l := l) hc) l.body
    simpa [Line.print] using hend
  | l :: l' :: ls, h => by
    have ih := of_print_lines (l' :: ls) fun m hm => h m (List.mem_cons_of_mem _ hm)
    have hne : l.endingText ≠ [] := by
      obtain ⟨b, hb⟩ := Option.ne_none_iff_exists'.1 (h l List.mem_cons_self)
      cases b <;> simp [Line.endingText, hb, LineBreak.text]
    have hprint : Line.print (l :: l' :: ls) = l.body ++ (l.endingText ++ Line.print (l' :: ls)) := by
      simp [Line.print]
    rw [hprint, w.of_append_blanks_append (fun c hc => isBlank_of_mem_endingText hc) hne, ih,
      List.map_cons (a := l),
      List.sum_cons]

/-- A change line by line keeps the weight of a text whose lines it keeps the weight of. -/
theorem of_mapLines {f : Text → Text} {t : Text}
    (h : ∀ l ∈ Line.ofText t, w.of (f l.body) = w.of l.body) :
    w.of (mapLines f t) = w.of t := by
  have hends := (Line.cut_ofText t).ending_ne_none
  have hbefore := w.of_print_lines (Line.ofText t) hends
  have hafter := w.of_print_lines ((Line.ofText t).map fun l => { l with body := f l.body }) (by
    rw [← List.map_dropLast]
    intro l hl
    obtain ⟨l', hl', rfl⟩ := List.mem_map.1 hl
    exact hends l' hl')
  rw [Line.print_ofText] at hbefore
  rw [mapLines, hafter, hbefore, List.map_map]
  exact congrArg List.sum (List.map_congr_left h)

theorem of_headings (hheading : ∀ n ≤ Heading.maxLevel, w.Neutral ('h' :: decimal n)) (t : Text) :
    w.of (Heading.headings t) = w.of t := by
  refine of_mapLines fun l _ => ?_
  rw [Heading.line]
  split
  · next h hh =>
    obtain ⟨n, b, rest, hl, hb, rfl⟩ := Heading.ofLine?_eq_some hh
    have hblank : isBlank b = true := by rcases hb with rfl | rfl <;> decide
    have hmarks : (List.replicate n '#').all isMarker = true := by
      rw [List.all_eq_true]
      intro c hc
      rw [(List.mem_replicate.1 hc).2]
      decide
    rw [hl, w.of_append_blank hblank, w.of_markers _ hmarks, Int.zero_add, Heading.html,
      w.of_element_of_neutral (hheading _ (Nat.min_le_right _ _)), w.of_trim]
  · rfl

/-- The rules of a text that weigh nothing are drawn without weight. -/
theorem of_horizontalRules (hrule : w.of "<hr>".toList = 0) {t : Text}
    (ht : ∀ l ∈ Line.ofText t, Rule.isRule l.body = true → w.of l.body = 0) :
    w.of (Rule.horizontalRules t) = w.of t := by
  refine of_mapLines fun l hl => ?_
  unfold Rule.line
  split
  · next h => rw [hrule, ht l hl h]
  · rfl

/-! ## The block passes together -/

/-- The passes below the tables write for each quote line and each item. -/
theorem of_belowTables (hquote : w.Neutral "blockquote".toList)
    (hlist : ∀ k : Listing.Kind, w.Neutral k.tag)
    (hheading : ∀ n ≤ Heading.maxLevel, w.Neutral ('h' :: decimal n)) (t : Text) :
    w.of (Heading.headings (Listing.lists (QuoteLine.blockquotes t))) = w.of t +
      QuoteLine.count t * w.of "<br>".toList +
      Listing.count (QuoteLine.blockquotes t) * w.ofItem := by
  rw [of_headings hheading, of_lists hlist, of_blockquotes hquote]

/-- The block passes keep a weight that ignores their tags, as long as the rules they draw weigh
nothing. -/
theorem of_blocks (hw : w.IgnoresBlocks) {t : Text}
    (ht : ∀ l ∈ Line.ofText t, Rule.isRule l.body = true → w.of l.body = 0) :
    w.of (blocks t) = w.of t := by
  simp only [blocks, Pass.applyAll, List.foldl_cons, List.foldl_nil, Pass.apply]
  have hitem : w.ofItem = 0 := hw.item
  have htable : w.ofTable = 0 := hw.table
  rw [of_belowTables hw.quote hw.list hw.heading, of_tables hw.row hw.cell,
    of_horizontalRules hw.rule ht, hitem, hw.lineBreak, htable]
  simp only [Int.mul_zero, Int.add_zero]

end Weight

end MarkdownPreview

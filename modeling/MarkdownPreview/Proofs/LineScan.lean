import MarkdownPreview.Proofs.LineShape
import MarkdownPreview.Proofs.Nesting
/-!
# Passes that read line by line

Tables, quotes and lists carry a state from line to line: the columns of the open table, the depth
of the quote, the open lists. `LineScan` says what the three have in common: a line the pass does
not recognise is written as it is and resets the state, so the lines above and below it are read
apart (`pieces_append`), and what is written at the start of a line is either that line or a tag
(`tagFirst`), so each line of the output is one that was left alone or starts with a tag
(`forall_mem_lines_run`).

Main result `separates`: a blank line between two texts survives each of these passes, or else one
of its two breaks does and what stands before that break is a line that starts with a tag. No pass
recognises such a line, so the next pass still reads the two texts apart.
-/

namespace MarkdownPreview

/-! ## Tags at the start of a line -/

namespace Piece

/-- Markup at the start of a line is a tag; `fresh` says whether a line starts here. -/
def TagFirst : Bool → List Piece → Prop
  | _, [] => True
  | fresh, .markup m :: ps => (fresh = true → m.head? = some '<') ∧ '\n' ∉ m ∧ TagFirst false ps
  | _, .line l :: ps => '\n' ∉ l ∧ TagFirst true ps

/-- A line without a break, or markup that starts with a tag and has no break in it. -/
def IsTag : Piece → Prop
  | .markup m => m.head? = some '<' ∧ '\n' ∉ m
  | .line l => '\n' ∉ l

theorem TagFirst.of_isTag :
    ∀ {ps : List Piece} {fresh : Bool}, (∀ p ∈ ps, p.IsTag) → TagFirst fresh ps
  | [], _, _ => trivial
  | .markup _ :: _, _, h =>
    ⟨fun _ => (h _ List.mem_cons_self).1, (h _ List.mem_cons_self).2,
      of_isTag fun p hp => h p (List.mem_cons_of_mem _ hp)⟩
  | .line _ :: _, _, h =>
    ⟨h _ List.mem_cons_self, of_isTag fun p hp => h p (List.mem_cons_of_mem _ hp)⟩

end Piece

namespace Text

/-- The last line of the text starts with a tag. -/
def EndsInTag (t : Text) : Prop := ∃ ls l, lines t = ls ++ ['<' :: l]

theorem EndsInTag.append_break {b : Text} (h : EndsInTag b) (a : Text) :
    EndsInTag (a ++ '\n' :: b) := by
  obtain ⟨ls, l, hb⟩ := h
  exact ⟨lines a ++ ls, l, by rw [lines_append_break, hb, List.append_assoc]⟩

end Text

namespace Piece
open Text

/-- Where markup starts with a tag if a line starts there, the line it stands in does. -/
theorem head?_append_tag {pre m : Text} (hpre : pre = [] ∨ pre.head? = some '<')
    (hm : pre.isEmpty = true → m.head? = some '<') : (pre ++ m).head? = some '<' := by
  rcases hpre with rfl | h
  · exact hm rfl
  · rw [List.head?_append, h, Option.some_or]

theorem isEmpty_of_tag {t : Text} (h : t.head? = some '<') : t.isEmpty = false := by
  obtain ⟨u, rfl⟩ := List.head?_eq_some_iff.1 h
  rfl

/-- Printed pieces end in a line that starts with a tag if the last piece is markup or such a line
itself. The induction is on the pieces; `pre` is what the current line has so far. -/
theorem endsInTag_print :
    ∀ (ps : List Piece) (pre : Text), '\n' ∉ pre → (pre = [] ∨ pre.head? = some '<') →
    TagFirst pre.isEmpty ps → (ps = [] → pre ≠ []) →
      (∀ l, ps.getLast? = some (.line l) → l.head? = some '<') → EndsInTag (pre ++ print ps)
  | [], pre, hbreak, hpre, _, hne, _ => by
    obtain ⟨c, rest, rfl⟩ := List.exists_cons_of_ne_nil (hne rfl)
    have hc : c = '<' := by simpa using hpre
    refine ⟨[], rest, ?_⟩
    rw [print, List.append_nil, lines_of_break_not_mem hbreak, hc, List.nil_append]
  | .markup m :: ps, pre, hbreak, hpre, htag, _, hlast => by
    obtain ⟨hm, hmb, hps⟩ := htag
    have hhead := head?_append_tag hpre hm
    rw [print_markup, ← List.append_assoc]
    refine endsInTag_print ps _ (by simp [hbreak, hmb]) (Or.inr hhead)
      (by rwa [isEmpty_of_tag hhead]) (fun _ h => by simp [h] at hhead) fun l hl => hlast l ?_
    cases ps with
    | nil => simp at hl
    | cons p ps => simpa using hl
  | [.line l], pre, hbreak, hpre, htag, _, hlast => by
    obtain ⟨rest, hrest⟩ :=
      List.head?_eq_some_iff.1 (head?_append_tag hpre fun _ => hlast l rfl)
    refine ⟨[], rest, ?_⟩
    rw [print, lines_of_break_not_mem (by simp [hbreak, htag.1]), hrest, List.nil_append]
  | .line l :: p :: ps, pre, _, _, htag, _, hlast => by
    rw [print_line_cons, ← List.append_assoc]
    refine EndsInTag.append_break ?_ _
    simpa using endsInTag_print (p :: ps) [] (by simp) (Or.inl rfl) htag.2 (by simp)
      fun l' h => hlast l' (by simpa using h)

/-- What holds of a line, and of all that start with a tag, holds of it behind such a start. -/
theorem forall_append {P : Text → Prop} (htag : ∀ l, P ('<' :: l)) {pre l : Text}
    (hpre : pre = [] ∨ pre.head? = some '<') (hl : P l) : P (pre ++ l) := by
  rcases hpre with rfl | hhead
  · exact hl
  · obtain ⟨rest, rfl⟩ := List.head?_eq_some_iff.1 hhead
    exact htag (rest ++ l)

/-- What holds of the empty line and of lines that start with a tag holds of all printed lines if it
holds of the lines of the pieces. The induction is on the pieces; `pre` is what the current line has
so far. -/
theorem forall_mem_lines_print {P : Text → Prop} (hnil : P []) (htag : ∀ l, P ('<' :: l)) :
    ∀ (ps : List Piece) (pre : Text), '\n' ∉ pre → (pre = [] ∨ pre.head? = some '<') →
    TagFirst pre.isEmpty ps → (∀ l, .line l ∈ ps → P l) → ∀ l ∈ lines (pre ++ print ps), P l
  | [], pre, hbreak, hpre, _, _ => by
    rw [print, lines_of_break_not_mem (by simpa using hbreak), List.forall_mem_singleton]
    exact forall_append htag hpre hnil
  | .markup m :: ps, pre, hbreak, hpre, hfirst, hline => by
    obtain ⟨hm, hmb, hps⟩ := hfirst
    have hhead := head?_append_tag hpre hm
    rw [print_markup, ← List.append_assoc]
    exact forall_mem_lines_print hnil htag ps _ (by simp [hbreak, hmb]) (Or.inr hhead)
      (by rwa [isEmpty_of_tag hhead]) fun l h => hline l (List.mem_cons_of_mem _ h)
  | [.line l], pre, hbreak, hpre, hfirst, hline => by
    rw [print, lines_of_break_not_mem (by simp [hbreak, hfirst.1]), List.forall_mem_singleton]
    exact forall_append htag hpre (hline l List.mem_cons_self)
  | .line l :: p :: ps, pre, hbreak, hpre, hfirst, hline => by
    have ih := forall_mem_lines_print hnil htag (p :: ps) [] (by simp) (Or.inl rfl) hfirst.2
      fun l h => hline l (List.mem_cons_of_mem _ h)
    rw [print_line_cons, ← List.append_assoc, lines_append_break,
      lines_of_break_not_mem (by simp [hbreak, hfirst.1]), List.singleton_append,
      List.forall_mem_cons]
    exact ⟨forall_append htag hpre (hline l List.mem_cons_self), ih⟩

end Piece

/-! ## What the three passes have in common -/

/-- A pass that reads a text line by line. -/
structure LineScan where
  /-- What is written for the lines of a text. -/
  pieces : List Text → List Piece
  /-- The line is not recognised, whatever stands around it. -/
  Plain : Text → Prop
  pieces_nil : pieces [] = []
  pieces_ne_nil : ∀ {ls : List Text}, ls ≠ [] → pieces ls ≠ []
  /-- A line that is not recognised is left alone and cuts the lines above off from those below. -/
  pieces_append : ∀ {l : Text} (ls ms : List Text), Plain l →
    pieces (ls ++ l :: ms) = pieces ls ++ .line l :: pieces ms
  plain_nil : Plain []
  plain_tag : ∀ l : Text, Plain ('<' :: l)
  tagFirst : ∀ ls : List Text, (∀ l ∈ ls, '\n' ∉ l) → Piece.TagFirst true (pieces ls)

/-- What is left of a blank line after a text: both breaks, or one after a line that starts with a
tag. -/
def Settled (t s : Text) : Prop := s = ['\n', '\n'] ∨ s = ['\n'] ∧ t.EndsInTag

namespace LineScan
open Text Piece

variable (S : LineScan)

/-- The pass over a text. -/
def run (t : Text) : Text := print (S.pieces (lines t))

theorem endsInTag_run {t : Text}
    (h : ∀ l, (S.pieces (lines t)).getLast? = some (.line l) → l.head? = some '<') :
    EndsInTag (S.run t) := by
  have htag := S.tagFirst (lines t) fun l hl => break_not_mem_of_mem_lines hl
  simpa [run] using endsInTag_print _ [] (by simp) (Or.inl rfl) htag
    (fun hnil => absurd hnil (S.pieces_ne_nil (lines_ne_nil t))) h

/-- What holds of the empty line, of lines that start with a tag and of the lines the pass leaves
alone holds of all the lines that it writes. -/
theorem forall_mem_lines_run {P : Text → Prop} (hnil : P []) (htag : ∀ l, P ('<' :: l)) {t : Text}
    (h : ∀ l, .line l ∈ S.pieces (lines t) → P l) : ∀ l ∈ lines (S.run t), P l := by
  have hfirst := S.tagFirst (lines t) fun l hl => break_not_mem_of_mem_lines hl
  simpa [run] using forall_mem_lines_print hnil htag _ [] (by simp) (Or.inl rfl) hfirst h

/-- **No state leaks past a blank line.** What is left of a blank line after `a` still keeps the
pass over `a` apart from the pass over whatever comes below, and something of it is left again. -/
theorem separates {a s : Text} (h : Settled a s) :
    ∃ s', Settled (S.run a) s' ∧ ∀ b, S.run (a ++ s ++ b) = S.run a ++ s' ++ S.run b := by
  have hne : ∀ t, S.pieces (lines t) ≠ [] := fun t => S.pieces_ne_nil (lines_ne_nil t)
  rcases h with rfl | ⟨rfl, ls, l, ha⟩
  · refine ⟨gap (S.pieces (lines a)) ++ ['\n'], ?_, fun b => ?_⟩
    · cases hlast : (S.pieces (lines a)).getLast? with
      | none => exact absurd (List.getLast?_eq_none_iff.1 hlast) (hne a)
      | some p =>
        cases p with
        | line l => exact Or.inl (by simp [gap, hlast])
        | markup m =>
          exact Or.inr ⟨by simp [gap, hlast], S.endsInTag_run fun l hl => by simp [hlast] at hl⟩
    · have hlines : lines (a ++ ['\n', '\n'] ++ b) = lines a ++ [] :: lines b := by
        rw [List.append_assoc, List.cons_append, lines_append_break]
        exact congrArg _ (lines_append_break [] b)
      rw [run, hlines, S.pieces_append _ _ S.plain_nil, print_append (by simp)]
      obtain ⟨p, ps, hb⟩ := List.exists_cons_of_ne_nil (hne b)
      simp [run, hb, print_line_cons]
  · have hpieces : ∀ ms, S.pieces (lines a ++ ms) = S.pieces (lines a) ++ S.pieces ms := by
      intro ms
      have hend := S.pieces_append ls [] (S.plain_tag l)
      rw [S.pieces_nil] at hend
      rw [ha, List.append_assoc, hend, List.singleton_append, S.pieces_append _ _ (S.plain_tag l)]
      simp
    have hlast : S.pieces (lines a) = S.pieces ls ++ [.line ('<' :: l)] := by
      have hend := S.pieces_append ls [] (S.plain_tag l)
      rwa [S.pieces_nil, ← ha] at hend
    refine ⟨['\n'], Or.inr ⟨rfl, S.endsInTag_run fun l' h => ?_⟩, fun b => ?_⟩
    · rw [hlast, List.getLast?_concat] at h
      simp only [Option.some.injEq, line.injEq] at h
      simp [← h]
    · have hgap : gap (S.pieces (lines a)) = ['\n'] := by rw [hlast, gap_append_line]
      rw [run, List.append_assoc, List.singleton_append, lines_append_break, hpieces,
        print_append (hne b), hgap]
      rfl

end LineScan
/-! ## Tables -/

namespace Table

theorem events_plain {l : Text} (h : cells? l = none) (ms : List Text) :
    events none (l :: ms) = .line l :: events none ms := by
  cases ms with
  | nil => rfl
  | cons m ms => simp [events, h]

theorem events_append {l : Text} (h : cells? l = none) (columns : Option (List Alignment))
    (ls ms : List Text) :
    events columns (ls ++ l :: ms) = events columns ls ++ .line l :: events none ms := by
  fun_induction events columns ls with
  | case1 => exact events_plain h ms
  | case2 columns => simp [events, h]
  | case3 columns a ls cells ha ih => simp [events, ha, ih]
  | case4 columns a ls ha ih => simp [events, ha, ih]
  | case5 a =>
    have hcol : columns? l = none := by simp [columns?, h]
    rw [List.singleton_append, events, hcol, List.cons_append, List.nil_append, events_plain h]
    split <;> simp_all
  | case6 a d ls header columns hd ha ih => simp [events, ha, hd, ih]
  | case7 a d ls hne ih =>
    rw [List.cons_append, List.cons_append, events, ← List.cons_append, ih]
    split
    · next header columns ha hd => exact absurd hd (hne header columns ha)
    · rfl

theorem events_ne_nil {columns : Option (List Alignment)} {ls : List Text} (h : ls ≠ []) :
    events columns ls ≠ [] := by
  fun_cases events columns ls <;> simp_all

theorem break_not_mem_row (tag : Text) (htag : '\n' ∉ tag) :
    ∀ (columns : List Alignment) (cells : List Text),
    (∀ c ∈ cells, '\n' ∉ c) → '\n' ∉ row tag columns cells
  | _, [], _ => by simp [row]
  | columns, c :: cells, h => by
    have hcss : ∀ a : Alignment, '\n' ∉ a.css := by intro a; cases a <;> decide
    have ih := break_not_mem_row tag htag columns.tail cells
      fun c' hc => h c' (List.mem_cons_of_mem _ hc)
    simp [row, cell, closeTag, htag, hcss, ih, h c List.mem_cons_self]

theorem isTag_events {columns : Option (List Alignment)} {ls : List Text} (h : ∀ l ∈ ls, '\n' ∉ l) :
    ∀ e ∈ events columns ls, e.piece.IsTag := by
  have hcells :
      ∀ {l : Text} {cells : List Text}, '\n' ∉ l → cells? l = some cells → ∀ c ∈ cells, '\n' ∉ c :=
    fun hl hc c hmem hx => hl (mem_of_mem_cells hc hmem hx)
  fun_induction events columns ls with
  | case1 => simp
  | case2 columns => simp [Event.piece, Piece.IsTag]
  | case3 columns a ls cells ha ih =>
    have hrow := break_not_mem_row "td".toList (by decide) columns cells
      (hcells (h a List.mem_cons_self) ha)
    simp_all [Event.piece, Piece.IsTag, element, openTag, closeTag]
  | case4 columns a ls ha ih => simp_all [Event.piece, Piece.IsTag]
  | case5 a => simp_all [Event.piece, Piece.IsTag]
  | case6 a d ls header columns hd ha ih =>
    have hrow := break_not_mem_row "th".toList (by decide) columns header
      (hcells (h a List.mem_cons_self) ha)
    simp_all [Event.piece, Piece.IsTag]
  | case7 a d ls hne ih => simp_all [Event.piece, Piece.IsTag]

/-- The table pass. -/
def scan : LineScan where
  pieces ls := (events none ls).map Event.piece
  Plain l := cells? l = none
  pieces_nil := rfl
  pieces_ne_nil h := by simpa using events_ne_nil h
  pieces_append ls ms h := by simp [events_append h, Event.piece]
  plain_nil := cells?_nil
  plain_tag := cells?_tag
  tagFirst ls h := Piece.TagFirst.of_isTag (by simpa using isTag_events h)

theorem tables_eq_run (t : Text) : tables t = scan.run t := rfl

end Table

/-! ## Quotes -/

namespace QuoteLine

theorem pieces_append {l : Text} (h : ofLine? l = none) (ls ms : List Text) : ∀ depth : Nat,
    pieces depth (ls ++ l :: ms) = pieces depth ls ++ .line l :: pieces 0 ms := by
  induction ls with
  | nil => intro depth; simp [pieces, h]
  | cons a ls ih =>
    intro depth
    simp only [List.cons_append, pieces]
    split <;> simp [ih]

theorem pieces_ne_nil {ls : List Text} (h : ls ≠ []) (depth : Nat) : pieces depth ls ≠ [] := by
  cases ls with
  | nil => exact absurd rfl h
  | cons l ls => simp only [pieces]; split <;> simp

/-- Tags in front of pieces: after at least one of them no line starts. -/
theorem tagFirst_replicate_append {name : Text} (hname : '\n' ∉ name) {ps : List Piece} :
    ∀ (n : Nat) {fresh : Bool},
    Piece.TagFirst (fresh && n == 0) ps →
      Piece.TagFirst fresh (List.replicate n (.markup ('<' :: name)) ++ ps)
  | 0, _, h => by simpa using h
  | n + 1, _, h => by
    refine ⟨fun _ => rfl, by simp [hname], tagFirst_replicate_append hname n ?_⟩
    simpa using h

theorem tagFirst_step_append {ps : List Piece} (source target : Nat) {fresh : Bool}
    (h : Piece.TagFirst (fresh && source == target) ps) :
    Piece.TagFirst fresh (step source target ++ ps) := by
  rw [step, List.append_assoc]
  refine tagFirst_replicate_append (by decide) _ (tagFirst_replicate_append (by decide) _ ?_)
  rw [Bool.and_assoc]
  convert h using 2
  rw [Bool.eq_iff_iff]
  simp
  omega

/-- A quote line finds a tag before it: it is in a quote that is open, or it opens one. -/
theorem tagFirst_pieces {ls : List Text} :
    ∀ {depth : Nat} {fresh : Bool}, (fresh = true → depth = 0) →
    (∀ l ∈ ls, '\n' ∉ l) → Piece.TagFirst fresh (pieces depth ls) := by
  induction ls with
  | nil =>
    intro depth fresh _ _
    have h : Piece.TagFirst fresh (step depth 0 ++ []) := tagFirst_step_append depth 0 trivial
    simpa [pieces] using h
  | cons l ls ih =>
    intro depth fresh hfresh hl
    have hrest : ∀ l' ∈ ls, '\n' ∉ l' := fun l' h => hl l' (List.mem_cons_of_mem _ h)
    simp only [pieces]
    split
    · next q hq =>
      obtain ⟨b, hshape, -, hpos⟩ := ofLine?_eq_some hq
      have hcontent : '\n' ∉ q.content := by
        have := hl l List.mem_cons_self
        rw [hshape] at this
        simp_all
      refine tagFirst_step_append _ _ ⟨fun h => ?_, by simp [hcontent], ih (by simp) hrest⟩
      simp only [Bool.and_eq_true, beq_iff_eq] at h
      have := hfresh h.1
      omega
    · exact tagFirst_step_append _ _ ⟨hl l List.mem_cons_self, ih (fun _ => rfl) hrest⟩

/-- The quote pass. -/
def scan : LineScan where
  pieces := pieces 0
  Plain l := ofLine? l = none
  pieces_nil := rfl
  pieces_ne_nil h := pieces_ne_nil h 0
  pieces_append ls ms h := pieces_append h ls ms 0
  plain_nil := rfl
  plain_tag := ofLine?_tag
  tagFirst _ h := tagFirst_pieces (fun _ => rfl) h

theorem blockquotes_eq_run (t : Text) : blockquotes t = scan.run t := rfl

end QuoteLine

/-! ## Lists -/

namespace Listing

theorem events_append {l : Text} (h : item? l = none) (ls ms : List Text) : ∀ stack : List Frame,
    events stack (ls ++ l :: ms) = events stack ls ++ .line l :: events [] ms := by
  induction ls with
  | nil => intro stack; simp [events, h]
  | cons a ls ih =>
    intro stack
    simp only [List.cons_append, events]
    split <;> simp [ih]

theorem isTag_tag (f : Frame) : (Event.opens f).piece.IsTag ∧ (Event.closes f).piece.IsTag := by
  obtain ⟨kind, indent⟩ := f
  cases kind <;> simp [Event.piece, Piece.IsTag, openTag, closeTag, Kind.tag]

theorem isTag_events {ls : List Text} : ∀ {stack : List Frame}, (∀ l ∈ ls, '\n' ∉ l) →
    ∀ e ∈ events stack ls, e.piece.IsTag := by
  have hcloses : ∀ fs : List Frame, ∀ e ∈ fs.map Event.closes, e.piece.IsTag := by
    intro fs e he; obtain ⟨f, -, rfl⟩ := List.mem_map.1 he; exact (isTag_tag f).2
  have hopens : ∀ fs : List Frame, ∀ e ∈ fs.map Event.opens, e.piece.IsTag := by
    intro fs e he; obtain ⟨f, -, rfl⟩ := List.mem_map.1 he; exact (isTag_tag f).1
  induction ls with
  | nil => intro stack _; simpa [events] using hcloses stack
  | cons l ls ih =>
    intro stack hl
    have hrest : ∀ l' ∈ ls, '\n' ∉ l' := fun l' h => hl l' (List.mem_cons_of_mem _ h)
    simp only [events]
    split
    · next i hi =>
      obtain ⟨indent, m, b, rest, hshape, -, -, -, hcontent⟩ := item?_eq_some hi
      have hbreak : '\n' ∉ i.content := by
        rw [hcontent]
        intro hx
        exact hl l List.mem_cons_self (by rw [hshape]; simp [Text.mem_of_mem_trim hx])
      intro e he
      simp only [List.mem_append, List.mem_cons] at he
      rcases he with (he | he) | rfl | he
      · exact hcloses _ e he
      · exact hopens _ e he
      · simp [Event.piece, Piece.IsTag, element, openTag, closeTag, hbreak]
      · exact ih hrest e he
    · intro e he
      simp only [List.mem_append, List.mem_cons] at he
      rcases he with he | rfl | he
      · exact hcloses _ e he
      · exact hl l List.mem_cons_self
      · exact ih hrest e he

/-- The list pass. -/
def scan : LineScan where
  pieces ls := (events [] ls).map Event.piece
  Plain l := item? l = none
  pieces_nil := rfl
  pieces_ne_nil h := by simpa using events_ne_nil h []
  pieces_append ls ms h := by simp [events_append h, Event.piece]
  plain_nil := item?_nil
  plain_tag := item?_tag
  tagFirst _ h := Piece.TagFirst.of_isTag (by simpa using isTag_events h)

theorem lists_eq_run (t : Text) : lists t = scan.run t := rfl

end Listing

end MarkdownPreview

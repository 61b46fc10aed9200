import Mathlib.Data.List.Nodup
import Mathlib.Data.List.TakeWhile
import MarkdownPreview.Proofs.Nesting
/-!
# Which items share a list

The markup written for a text is read back here: the tag of a list opens it inside the open ones, a
closing tag closes the innermost, and every other piece stands for one line. `listsAround` says of
each line which lists it stands in, innermost first, each named by its opening tag.

What the items alone say is simpler: a list stays open as long as each item that comes is deeper
than it, or one of its own items (`ends_eq_false_iff`). The step lemma `mem_enter_iff` says that an
item leaves exactly those lists open and the run lemma `mem_after_iff` that a row of items does, so
two items share a list, or the list of one stands inside the list of the other, exactly when the
items in between say so (`shared_list_iff`).
-/

namespace MarkdownPreview.Listing

open Text

/-! ## Reading the lists back -/

/-- What is written for a text, piece by piece. -/
def pieces (t : Text) : List Piece := (events [] (lines t)).map Event.piece

theorem lists_eq_print (t : Text) : lists t = Piece.print (pieces t) := rfl

/-- The piece is the tag that opens a list. -/
def opensList (p : Piece) : Bool :=
  [Kind.unordered, .ordered].any fun k => p = .markup (openTag k.tag)

/-- The piece is the tag that closes a list. -/
def closesList (p : Piece) : Bool :=
  [Kind.unordered, .ordered].any fun k => p = .markup (closeTag k.tag)

/-- The lists around each line of some pieces, innermost first, given how many lists were opened
before and which of them are open. A list is named by the number of lists opened before it. -/
def around (count : Nat) (stack : List Nat) : List Piece → List (List Nat)
  | [] => []
  | p :: ps =>
    if opensList p then around (count + 1) (count :: stack) ps
    else if closesList p then around count stack.tail ps
    else stack :: around count stack ps

/-- The lists around each line of a text. -/
def listsAround (t : Text) : List (List Nat) := around 0 [] (pieces t)

section
variable (count : Nat) (stack : List Nat) (ps : List Piece)

theorem around_opens (f : Frame) :
    around count stack ((Event.opens f).piece :: ps) = around (count + 1) (count :: stack) ps := by
  obtain ⟨kind, indent⟩ := f
  cases kind <;> rfl

theorem around_closes (f : Frame) :
    around count stack ((Event.closes f).piece :: ps) = around count stack.tail ps := by
  obtain ⟨kind, indent⟩ := f
  cases kind <;> rfl

theorem around_item (i : Item) :
    around count stack ((Event.item i).piece :: ps) = stack :: around count stack ps := by
  simp [around, opensList, closesList, Event.piece, element, openTag, closeTag, Kind.tag]

theorem around_line (l : Text) :
    around count stack ((Event.line l).piece :: ps) = stack :: around count stack ps := by
  simp [around, opensList, closesList, Event.piece]

end

/-- The closing tags of the innermost lists take their names away. -/
theorem around_closed (ends : Frame → Bool) (count : Nat) (ps : List Piece) :
    ∀ stack : List (Nat × Frame),
    around count (stack.map Prod.fst)
        ((((stack.map Prod.snd).takeWhile ends).map Event.closes).map Event.piece ++ ps) =
      around count ((stack.dropWhile fun x => ends x.2).map Prod.fst) ps
  | [] => rfl
  | (n, f) :: stack => by
    by_cases h : ends f = true
    · have ih := around_closed ends count ps stack
      simpa [h, around_closes] using ih
    · simp [h]

/-- The closing tags of all open lists take all names away. -/
theorem around_allClosed (count : Nat) (ps : List Piece) (stack : List (Nat × Frame)) :
    around count (stack.map Prod.fst)
        (((stack.map Prod.snd).map Event.closes).map Event.piece ++ ps) =
      around count [] ps := by
  have h := around_closed (fun _ => true) count ps stack
  rwa [List.takeWhile_eq_self_iff.2 (by simp), List.dropWhile_eq_nil_iff.2 (by simp)] at h

/-! ## What an item leaves open -/

/-- An item leaves a list open that is shallower, or that the item is one of. -/
theorem ends_eq_false_iff {i : Item} {f : Frame} :
    i.ends f = false ↔ f.indent < i.indent ∨ i.indent = f.indent ∧ i.kind = f.kind := by
  simp only [Item.ends, Bool.or_eq_false_iff, decide_eq_false_iff_not, Nat.not_lt,
    Bool.and_eq_false_imp, beq_iff_eq, bne_eq_false_iff_eq]
  constructor
  · rintro ⟨hle, heq⟩
    rcases Nat.lt_or_eq_of_le hle with hlt | he
    · exact Or.inl hlt
    · exact Or.inr ⟨he.symm, heq he.symm⟩
  · rintro (hlt | ⟨he, hk⟩)
    · exact ⟨by omega, fun he => by omega⟩
    · exact ⟨by omega, fun _ => hk⟩

/-- What an item leaves open it also leaves open further out. -/
theorem ends_eq_false_of_lt {i : Item} {inner outer : Frame} (h : outer.indent < inner.indent)
    (hi : i.ends inner = false) : i.ends outer = false := by
  rw [ends_eq_false_iff] at hi ⊢
  omega

theorem opened_eq (i : Item) (stack : List Frame) :
    i.opened stack = [] ∨ i.opened stack = [i.frame] := by
  unfold Item.opened
  split
  · exact Or.inr rfl
  · split
    · exact Or.inr rfl
    · exact Or.inl rfl

theorem increasing_enter {stack : List Frame} (h : Increasing stack) (i : Item) :
    Increasing (i.enter stack) := by
  obtain ⟨below, henter, hinc, -⟩ := enter_eq_cons h i
  rwa [henter]

/-! ## The open lists by name -/

/-- How far some lines are read: how many lists were opened, and the open ones, innermost first,
each with its name. Further out the indents are smaller and the names are earlier ones. -/
structure OpenLists where
  count : Nat
  stack : List (Nat × Frame)
  increasing : Increasing (stack.map Prod.snd)
  earlier : stack.Pairwise fun inner outer => outer.1 < inner.1
  lt_count : ∀ x ∈ stack, x.1 < count

namespace OpenLists

/-- No list is open. -/
def empty (count : Nat) : OpenLists where
  count := count
  stack := []
  increasing := List.Pairwise.nil
  earlier := List.Pairwise.nil
  lt_count := by simp

/-- The names of the open lists. -/
def names (o : OpenLists) : List Nat := o.stack.map Prod.fst

/-- The open lists without their names. -/
def frames (o : OpenLists) : List Frame := o.stack.map Prod.snd

/-- The open lists after an item: those it ends are gone, and the one it opens has the next name. -/
def entered (o : OpenLists) (i : Item) : List (Nat × Frame) :=
  (i.opened (i.kept o.frames)).map (o.count, ·) ++ o.stack.dropWhile fun x => i.ends x.2

theorem map_snd_entered (o : OpenLists) (i : Item) :
    (o.entered i).map Prod.snd = i.enter o.frames := by
  simp only [frames, entered, Item.enter, Item.kept, List.map_append, List.dropWhile_map]
  simp [Function.comp_def]

theorem eq_of_mem_entered {o : OpenLists} {i : Item} {x : Nat × Frame} (h : x ∈ o.entered i) :
    x = (o.count, i.frame) ∧ i.opened (i.kept o.frames) = [i.frame] ∨ x ∈ o.stack := by
  rcases List.mem_append.1 h with h | h
  · rcases opened_eq i (i.kept o.frames) with hopened | hopened
    · simp [hopened] at h
    · exact Or.inl ⟨by simpa [hopened] using h, hopened⟩
  · exact Or.inr ((List.dropWhile_sublist _).subset h)

/-- After an item. -/
def enter (o : OpenLists) (i : Item) : OpenLists where
  count := o.count + (i.opened (i.kept o.frames)).length
  stack := o.entered i
  increasing := by
    rw [map_snd_entered]
    exact increasing_enter o.increasing i
  earlier := by
    have hkept := o.earlier.sublist (List.dropWhile_sublist fun x => i.ends x.2)
    have hlt : ∀ x ∈ o.stack.dropWhile (fun x => i.ends x.2), x.1 < o.count :=
      fun x hx => o.lt_count x ((List.dropWhile_sublist _).subset hx)
    rcases opened_eq i (i.kept o.frames) with h | h
    · simpa [entered, h] using hkept
    · simpa [entered, h] using ⟨fun n f => hlt (n, f), hkept⟩
  lt_count := by
    intro x hx
    rcases eq_of_mem_entered hx with ⟨rfl, hopened⟩ | hx
    · simp [hopened]
    · have := o.lt_count x hx
      omega

/-- After a line; one that is no item ends every list. -/
def next (o : OpenLists) (l : Text) : OpenLists :=
  match item? l with
  | some i => o.enter i
  | none => empty o.count

/-- After some lines. -/
def after (o : OpenLists) (ls : List Text) : OpenLists := ls.foldl next o

/-- After each of some lines. -/
def afterEach : OpenLists → List Text → List OpenLists
  | _, [] => []
  | o, l :: ls => o.next l :: afterEach (o.next l) ls

theorem next_item {l : Text} {i : Item} (h : item? l = some i) (o : OpenLists) :
    o.next l = o.enter i := by simp [next, h]

theorem next_line {l : Text} (h : item? l = none) (o : OpenLists) : o.next l = empty o.count := by
  simp [next, h]

theorem after_append (o : OpenLists) (ls ms : List Text) :
    o.after (ls ++ ms) = (o.after ls).after ms := List.foldl_append

theorem after_cons (o : OpenLists) (l : Text) (ls : List Text) :
    o.after (l :: ls) = (o.next l).after ls := rfl

theorem getElem?_afterEach (l : Text) (below : List Text) : ∀ (above : List Text) (o : OpenLists),
    (o.afterEach (above ++ l :: below))[above.length]? = some (o.after (above ++ [l]))
  | [], _ => rfl
  | a :: above, o => by
    rw [List.cons_append, afterEach, List.length_cons, List.getElem?_cons_succ, List.cons_append,
      after_cons]
    exact getElem?_afterEach l below above (o.next a)

/-! ## Reading the lists of some lines -/

/-- The opening tag of an item's list brings in the next name. -/
theorem around_opened (o : OpenLists) (i : Item) (ps : List Piece) :
    around o.count ((o.stack.dropWhile fun x => i.ends x.2).map Prod.fst)
        (((i.opened (i.kept o.frames)).map Event.opens).map Event.piece ++ ps) =
      around (o.enter i).count (o.enter i).names ps := by
  rcases opened_eq i (i.kept o.frames) with h | h
  · simp [names, enter, entered, h]
  · simp [names, enter, entered, h, around_opens]

/-- What is written for some lines reads as the lists that are open after each of them. -/
theorem around_events : ∀ (ls : List Text) (o : OpenLists),
    around o.count o.names ((events o.frames ls).map Event.piece) = (o.afterEach ls).map names
  | [], o => by
    have h := around_allClosed o.count [] o.stack
    rw [List.append_nil] at h
    exact h
  | l :: ls, o => by
    have ih := around_events ls (o.next l)
    cases hl : item? l with
    | none =>
      rw [next_line hl] at ih
      simp only [events, hl, List.map_append, List.map_cons]
      rw [names, frames, around_allClosed, around_line, afterEach, next_line hl, List.map_cons,
        ← ih]
      rfl
    | some i =>
      have hframes : (o.enter i).frames = i.enter o.frames := map_snd_entered o i
      rw [next_item hl, hframes] at ih
      simp only [events, hl, List.map_append, List.map_cons, List.append_assoc]
      rw [names, frames, Item.kept, around_closed i.ends, ← frames, ← Item.kept, around_opened,
        around_item, ih, afterEach, next_item hl, List.map_cons]

theorem listsAround_eq (t : Text) : listsAround t = ((empty 0).afterEach (lines t)).map names :=
  around_events (lines t) (empty 0)

theorem length_afterEach : ∀ (ls : List Text) (o : OpenLists), (o.afterEach ls).length = ls.length
  | [], _ => rfl
  | l :: ls, o => by rw [afterEach, List.length_cons, length_afterEach ls, List.length_cons]

theorem length_listsAround (t : Text) : (listsAround t).length = (lines t).length := by
  rw [listsAround_eq, List.length_map, length_afterEach]

theorem getElem?_listsAround {t l : Text} {above below : List Text}
    (ht : lines t = above ++ l :: below) :
    (listsAround t)[above.length]? = some ((empty 0).after (above ++ [l])).names := by
  rw [listsAround_eq, List.getElem?_map, ht, getElem?_afterEach, Option.map_some]

/-! ## The lists that stay open -/

variable {o : OpenLists} {n : Nat} {f g : Frame}

/-- A name is given once. -/
theorem eq_of_mem (hf : (n, f) ∈ o.stack) (hg : (n, g) ∈ o.stack) : f = g := by
  have hnames : (o.stack.map Prod.fst).Nodup :=
    List.pairwise_map.2 (o.earlier.imp fun h he => by omega)
  simpa using List.inj_on_of_nodup_map hnames hf hg rfl

/-- After an item the innermost list is its own, and the lists around it have smaller indents. -/
theorem stack_enter (o : OpenLists) (i : Item) : ∃ q outer,
    (o.enter i).stack = (q, i.frame) :: outer ∧ ∀ x ∈ outer, x.2.indent < i.indent := by
  obtain ⟨below, henter, hinc, -⟩ := enter_eq_cons o.increasing i
  rw [← frames, ← map_snd_entered] at henter
  obtain ⟨⟨q, _⟩, outer, hstack, rfl, rfl⟩ := List.map_eq_cons_iff.1 henter
  refine ⟨q, outer, hstack, fun x hx => ?_⟩
  exact (List.pairwise_cons.1 hinc).1 x.2 (List.mem_map_of_mem hx)

/-- Where dropping some first elements leaves an element, it leaves all behind it. -/
theorem mem_dropWhile_iff {α : Type} {p : α → Bool} {x : α} : ∀ {l : List α},
    (l.Pairwise fun a b => p a = false → p b = false) → (x ∈ l.dropWhile p ↔ x ∈ l ∧ p x = false)
  | [], _ => by simp
  | a :: l, h => by
    obtain ⟨hbehind, hl⟩ := List.pairwise_cons.1 h
    by_cases ha : p a = true
    · rw [List.dropWhile_cons_of_pos ha, mem_dropWhile_iff hl, List.mem_cons]
      constructor
      · rintro ⟨hx, hpx⟩
        exact ⟨Or.inr hx, hpx⟩
      · rintro ⟨rfl | hx, hpx⟩
        · simp [ha] at hpx
        · exact ⟨hx, hpx⟩
    · rw [List.dropWhile_cons_of_neg ha]
      refine ⟨fun hx => ⟨hx, ?_⟩, And.left⟩
      rw [Bool.not_eq_true] at ha
      rcases List.mem_cons.1 hx with rfl | hx
      · exact ha
      · exact hbehind x hx ha

/-- **What an item leaves open**: of the lists that were open before it, those it does not end. -/
theorem mem_enter_iff {i : Item} (hn : n < o.count) :
    (n, f) ∈ (o.enter i).stack ↔ (n, f) ∈ o.stack ∧ i.ends f = false := by
  have hkept : (n, f) ∈ (o.stack.dropWhile fun x => i.ends x.2) ↔
      (n, f) ∈ o.stack ∧ i.ends f = false :=
    mem_dropWhile_iff ((List.pairwise_map.1 o.increasing).imp ends_eq_false_of_lt)
  have hnew : (n, f) ∉ (i.opened (i.kept o.frames)).map (o.count, ·) := by
    intro h
    obtain ⟨g, -, hg⟩ := List.mem_map.1 h
    have : o.count = n := congrArg Prod.fst hg
    omega
  rw [← hkept]
  exact List.mem_append.trans (or_iff_right hnew)

theorem count_le_enter (o : OpenLists) (i : Item) : o.count ≤ (o.enter i).count :=
  Nat.le_add_right _ _

/-- **What a row of items leaves open**: of the lists that were open before it, those that none of
the items ends. -/
theorem mem_after_iff :
    ∀ {ls : List Text} {items : List Item} {o : OpenLists} {n : Nat} {f : Frame},
    ls.map item? = items.map some → n < o.count →
    ((n, f) ∈ (o.after ls).stack ↔ (n, f) ∈ o.stack ∧ ∀ i ∈ items, i.ends f = false)
  | [], [], _, _, _, _, _ => by simp [after]
  | [], _ :: _, _, _, _, h, _ => by simp at h
  | _ :: _, [], _, _, _, h, _ => by simp at h
  | l :: ls, i :: items, o, n, f, h, hn => by
    obtain ⟨hl, hls⟩ := List.cons.inj h
    have hcount := o.count_le_enter i
    rw [after_cons, next_item hl, mem_after_iff hls (by omega), mem_enter_iff hn,
      List.forall_mem_cons, and_assoc]

/-- After a row of items a name is that of the same list as before, and only if it is open still. -/
theorem mem_after_iff_of_mem {ls : List Text} {items : List Item} (hf : (n, f) ∈ o.stack)
    (hls : ls.map item? = items.map some) :
    (n, g) ∈ (o.after ls).stack ↔ g = f ∧ ∀ i ∈ items, i.ends f = false := by
  rw [mem_after_iff hls (o.lt_count _ hf)]
  constructor
  · rintro ⟨hg, hends⟩
    obtain rfl := eq_of_mem hf hg
    exact ⟨rfl, hends⟩
  · rintro ⟨rfl, hends⟩
    exact ⟨hf, hends⟩

end OpenLists

/-! ## Sharing a list -/

open OpenLists

/-- **Which items share a list.** Of two items with only items between them, the lines read as
`above`, the first item `a`, the items between, the second item `b`, and `below`; `p` is the list
the first is written into and `q` that of the second. They are one list exactly if the two are of
one kind and one indent and every item between is deeper or of that kind and indent too. The second
list stands inside the first exactly if its item is deeper and every item from behind the first up
to the second is deeper than the first or of its kind and indent. -/
theorem shared_list_iff {t : Text} {above between below : List Text} {l m : Text} {a b : Item}
    {items : List Item} (ht : lines t = above ++ l :: between ++ m :: below)
    (hl : item? l = some a) (hbetween : between.map item? = items.map some)
    (hm : item? m = some b) :
    lists t = Piece.print (pieces t) ∧ (listsAround t).length = (lines t).length ∧
      ∃ p ps q qs, (listsAround t)[above.length]? = some (p :: ps) ∧
        (listsAround t)[above.length + between.length + 1]? = some (q :: qs) ∧
        (p = q ↔ a.kind = b.kind ∧ a.indent = b.indent ∧
          ∀ c ∈ items, a.indent < c.indent ∨ c.indent = a.indent ∧ c.kind = a.kind) ∧
        (p ∈ qs ↔ a.indent < b.indent ∧
          ∀ c ∈ items ++ [b], a.indent < c.indent ∨ c.indent = a.indent ∧ c.kind = a.kind) := by
  obtain ⟨p, outer, hp, -⟩ := stack_enter ((empty 0).after above) a
  have hfirst : (empty 0).after (above ++ [l]) = ((empty 0).after above).enter a := by
    rw [after_append, after_cons, next_item hl]
    rfl
  generalize ((empty 0).after above).enter a = first at hp hfirst
  obtain ⟨q, inner, hq, hinner⟩ := stack_enter (first.after between) b
  have hsecond : (first.after (between ++ [m])).stack = (q, b.frame) :: inner := by
    rw [after_append, after_cons, next_item hm, ← hq]
    rfl
  -- the name of the first list is left only where that list is open still
  have hopen : ∀ f, (p, f) ∈ (q, b.frame) :: inner ↔
      f = a.frame ∧ ∀ c ∈ items ++ [b], c.ends a.frame = false := by
    intro f
    rw [← hsecond]
    exact mem_after_iff_of_mem (by rw [hp]; exact List.mem_cons_self) (by simp [hbetween, hm])
  simp only [ends_eq_false_iff, List.forall_mem_append, List.forall_mem_singleton] at hopen
  refine ⟨lists_eq_print t, length_listsAround t, p, outer.map Prod.fst, q, inner.map Prod.fst,
    ?_, ?_, ?_, ?_⟩
  · rw [List.append_assoc, List.cons_append] at ht
    rw [getElem?_listsAround ht, hfirst, names, hp, List.map_cons]
  · have hlength : above.length + between.length + 1 = (above ++ l :: between).length := by
      simp [Nat.add_assoc]
    have hlines : above ++ l :: between ++ [m] = above ++ [l] ++ (between ++ [m]) := by simp
    rw [hlength, getElem?_listsAround ht, hlines, after_append, hfirst, names, hsecond,
      List.map_cons]
  · constructor
    · rintro rfl
      obtain ⟨hframe, hends, -⟩ := (hopen b.frame).1 List.mem_cons_self
      exact ⟨congrArg Frame.kind hframe.symm, congrArg Frame.indent hframe.symm, hends⟩
    · rintro ⟨hkind, hindent, hends⟩
      have hleft := (hopen a.frame).2 ⟨rfl, hends, Or.inr ⟨hindent.symm, hkind.symm⟩⟩
      rcases List.mem_cons.1 hleft with heq | hleft
      · exact congrArg Prod.fst heq
      · have : a.indent < b.indent := hinner _ hleft
        omega
  · simp only [List.forall_mem_append, List.forall_mem_singleton]
    constructor
    · intro hname
      obtain ⟨⟨_, f⟩, hf, rfl⟩ := List.mem_map.1 hname
      obtain ⟨rfl, hends⟩ := (hopen f).1 (List.mem_cons_of_mem _ hf)
      exact ⟨hinner _ hf, hends⟩
    · rintro ⟨hlt, hends⟩
      rcases List.mem_cons.1 ((hopen a.frame).2 ⟨rfl, hends⟩) with heq | hleft
      · have : a.indent = b.indent := congrArg (fun x : Nat × Frame => x.2.indent) heq
        omega
      · exact List.mem_map_of_mem hleft

/-- An item, a deeper one of the other kind, one more of the first list, and a deeper one. -/
def outline : Text := "x\n- a\n  1. b\n- c\n  - d\ny".toList

theorem shared_list_outline :
    lines outline = ["x".toList] ++ "- a".toList :: ["  1. b".toList, "- c".toList] ++
      "  - d".toList :: ["y".toList] ∧
    item? "- a".toList = some ⟨.unordered, 0, "a".toList⟩ ∧
    ["  1. b".toList, "- c".toList].map item? =
      [⟨.ordered, 2, "b".toList⟩, ⟨.unordered, 0, "c".toList⟩].map some ∧
    item? "  - d".toList = some ⟨.unordered, 2, "d".toList⟩ ∧
    ∃ p ps q qs, (listsAround outline)[1]? = some (p :: ps) ∧
      (listsAround outline)[4]? = some (q :: qs) ∧ p ≠ q ∧ p ∈ qs := by
  have hlines : lines outline = ["x".toList] ++ "- a".toList :: ["  1. b".toList, "- c".toList] ++
      "  - d".toList :: ["y".toList] := by decide
  have hfirst : item? "- a".toList = some ⟨.unordered, 0, "a".toList⟩ := by decide
  have hbetween : ["  1. b".toList, "- c".toList].map item? =
      [⟨.ordered, 2, "b".toList⟩, ⟨.unordered, 0, "c".toList⟩].map some := by decide
  have hsecond : item? "  - d".toList = some ⟨.unordered, 2, "d".toList⟩ := by decide
  refine ⟨hlines, hfirst, hbetween, hsecond, ?_⟩
  obtain ⟨-, -, p, ps, q, qs, hp, hq, hshared, hinside⟩ :=
    shared_list_iff hlines hfirst hbetween hsecond
  exact ⟨p, ps, q, qs, hp, hq, mt hshared.1 (by decide), hinside.2 (by decide)⟩

end MarkdownPreview.Listing

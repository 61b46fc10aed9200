import MarkdownPreview.Markup.Listing
/-!
# Nesting of lists

`Nested open ls out` is the grammar of what the list pass may write: `out` is written for the lines
`ls` while the lists `open` are open, innermost first. A list opens for the item that comes next and
inside lists of smaller indents, an item is written into the list of its own kind and indent, only
the innermost list can close, and a line that is no item, like the end of the text, finds no list
open.

The key invariant is `Increasing`: from the inside out the indents of the open lists shrink. It is
what makes the list an item is left with its own one (`enter_eq_cons`), and the whole pass follows
the grammar by induction on the lines (`nested_events`).
-/

namespace MarkdownPreview.Listing

/-- The open lists, innermost first, have strictly smaller indents further out. -/
def Increasing (stack : List Frame) : Prop :=
  stack.Pairwise fun inner outer => outer.indent < inner.indent

/-- What may be written for some lines, given the open lists. -/
inductive Nested : List Frame → List Text → Text → Prop
  /-- At the end no list is open. -/
  | done : Nested [] [] []
  /-- A list opens for the item that comes next, inside shallower ones. -/
  | opens {stack : List Frame} {l : Text} {ls : List Text} {i : Item} {out : Text} :
    item? l = some i → (∀ f ∈ stack, f.indent < i.indent) → Nested (i.frame :: stack) (l :: ls) out →
    Nested stack (l :: ls) (openTag i.kind.tag ++ out)
  /-- The list that was opened last is the one that closes. -/
  | closes {f : Frame} {stack : List Frame} {ls : List Text} {out : Text} :
    Nested stack ls out → Nested (f :: stack) ls (closeTag f.kind.tag ++ out)
  /-- An item stands in the innermost list, which is of its kind and its indent. -/
  | item {stack : List Frame} {l : Text} {ls : List Text} {i : Item} {out : Text} :
    item? l = some i → Increasing (i.frame :: stack) → Nested (i.frame :: stack) ls out →
    Nested (i.frame :: stack) (l :: ls) (element "li".toList i.content ++ out)
  /-- A line that is no item stands outside every list and keeps its break. -/
  | line {l : Text} {ls : List Text} {out : Text} :
    item? l = none → ls ≠ [] → Nested [] ls out → Nested [] (l :: ls) (l ++ '\n' :: out)
  /-- The last line has no break. -/
  | lastLine {l : Text} : item? l = none → Nested [] [l] l

/-! ## The open lists of an item -/

theorem Increasing.kept {stack : List Frame} (h : Increasing stack) (i : Item) :
    Increasing (i.kept stack) :=
  h.sublist (List.dropWhile_sublist _)

/-- What an item leaves open on top is not deeper than it, and of its kind if it is as deep. -/
theorem indent_le_of_kept {i : Item} {stack : List Frame} {top : Frame} {below : List Frame}
    (h : i.kept stack = top :: below) :
    top.indent ≤ i.indent ∧ (top.indent = i.indent → top = i.frame) := by
  have hnot : i.ends top = false := by
    have hhead := List.head?_dropWhile_not i.ends stack
    rw [show stack.dropWhile i.ends = top :: below from h] at hhead
    simpa using hhead
  obtain ⟨kind, indent⟩ := top
  simp only [Item.ends, Bool.or_eq_false_iff, decide_eq_false_iff_not, Nat.not_lt,
    Bool.and_eq_false_imp,
    beq_iff_eq, bne_eq_false_iff_eq] at hnot
  refine ⟨hnot.1, fun he => ?_⟩
  rw [Item.frame, hnot.2 he.symm, ← he]

/-- **The list of an item.** After an item the innermost list is the item's own, either because it
was left open or because it was opened inside shallower ones; the indents still shrink outwards. -/
theorem enter_eq_cons {stack : List Frame} (h : Increasing stack) (i : Item) :
    ∃ below, i.enter stack = i.frame :: below ∧ Increasing (i.frame :: below) ∧
      ((i.opened (i.kept stack) = [] ∧ i.kept stack = i.frame :: below) ∨
        (i.opened (i.kept stack) = [i.frame] ∧ i.kept stack = below ∧
          ∀ f ∈ below, f.indent < i.indent)) := by
  have hinc := h.kept i
  unfold Item.enter
  cases hk : i.kept stack with
  | nil => exact ⟨[], by simp [Item.opened], by simp [Increasing], Or.inr (by simp [Item.opened])⟩
  | cons top below =>
    rw [hk] at hinc
    obtain ⟨hle, heq⟩ := indent_le_of_kept hk
    by_cases hlt : top.indent < i.indent
    · have hall : ∀ f ∈ top :: below, f.indent < i.indent := by
        intro f hf
        rcases List.mem_cons.1 hf with rfl | hf
        · exact hlt
        · exact Nat.lt_trans ((List.pairwise_cons.1 hinc).1 f hf) hlt
      exact ⟨top :: below, by simp [Item.opened, hlt], List.pairwise_cons.2 ⟨hall, hinc⟩,
        Or.inr ⟨by simp [Item.opened, hlt], rfl, hall⟩⟩
    · have htop : top = i.frame := heq (by omega)
      subst htop
      exact ⟨below, by simp [Item.opened, hlt], hinc, Or.inl ⟨by simp [Item.opened, hlt], rfl⟩⟩

/-! ## The whole pass -/

/-- What is written for some events. -/
def written (es : List Event) : Text := Piece.print (es.map Event.piece)

/-- Lists that close before some events close from the inside out. -/
theorem nested_closes {stack : List Frame} {ls : List Text} {es : List Event} (fs : List Frame)
    (h : Nested stack ls (written es)) :
    Nested (fs ++ stack) ls (written (fs.map .closes ++ es)) := by
  induction fs with
  | nil => exact h
  | cons f fs ih => exact .closes ih

theorem events_ne_nil {ls : List Text} (h : ls ≠ []) (stack : List Frame) : events stack ls ≠ [] := by
  cases ls with
  | nil => exact absurd rfl h
  | cons l ls => simp only [events]; split <;> simp

/-- The events of some lines write them as the grammar asks, whatever lists are open before. -/
theorem nested_events (ls : List Text) :
    ∀ {stack : List Frame}, Increasing stack → Nested stack ls (written (events stack ls)) := by
  induction ls with
  | nil =>
    intro stack _
    have h : Nested (stack ++ []) [] (written (stack.map .closes ++ [])) := nested_closes stack .done
    simpa [events] using h
  | cons l ls ih =>
    intro stack hinc
    cases hl : item? l with
    | some i =>
      simp only [events, hl]
      obtain ⟨below, henter, hinc', hopen⟩ := enter_eq_cons hinc i
      have hitem :
          Nested (i.frame :: below) (l :: ls) (written (.item i :: events (i.enter stack) ls)) := by
        rw [henter]
        exact .item hl hinc' (ih hinc')
      have hkept : Nested (i.kept stack) (l :: ls)
          (written
            ((i.opened (i.kept stack)).map .opens ++ .item i :: events (i.enter stack) ls)) := by
        rcases hopen with ⟨ho, hk⟩ | ⟨ho, hk, hall⟩
        · rw [ho, hk]
          exact hitem
        · rw [ho, hk]
          exact .opens hl hall hitem
      have h := nested_closes (stack.takeWhile i.ends) hkept
      simpa only [Item.kept, List.takeWhile_append_dropWhile, List.append_assoc] using h
    | none =>
      simp only [events, hl]
      have hline : Nested [] (l :: ls) (written (.line l :: events [] ls)) := by
        by_cases hls : ls = []
        · subst hls
          exact .lastLine hl
        · obtain ⟨e, es, he⟩ := List.exists_cons_of_ne_nil (events_ne_nil hls [])
          have hrest : Nested [] ls (written (events [] ls)) := ih List.Pairwise.nil
          rw [he] at hrest ⊢
          exact .line hl hls hrest
      simpa using nested_closes stack hline

/-- **Lists are well nested and lose nothing.** What the list pass writes is a reading of the text's
lines by the grammar `Nested`, with no list open at the start and none at the end. -/
theorem nested_lists (t : Text) : Nested [] (Text.lines t) (lists t) :=
  nested_events _ List.Pairwise.nil

end MarkdownPreview.Listing

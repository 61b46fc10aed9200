import Mathlib.Algebra.GroupWithZero.Nat
import Mathlib.Algebra.Ring.Int.Defs
import MarkdownPreview.Markup.Piece
import MarkdownPreview.Markup.Tag
import MarkdownPreview.Proofs.LineShape
import MarkdownPreview.Proofs.Occurrence
/-!
# Weights of texts

A weight gives every text an integer that adds up over the cuts the passes make: next to a
separator, before the `<` and after the `>` of markup. What a pass drops weighs nothing. How often a
tag occurs is a weight, and so are how often two equal delimiters stand side by side and how often
one character occurs, so what is shown of a pass for every weight holds of all of them.
-/

namespace MarkdownPreview

namespace Text

/-- The characters around which the passes cut a text, besides the brackets of tags. -/
def isSeparator (c : Char) : Bool := isBlank c || ['|', '[', ']', '(', ')', '"', '!'].contains c

/-- The characters the block passes drop, asterisks apart, which are delimiters too. -/
def isMarker (c : Char) : Bool :=
  isBlank c || isDecimalDigit c || ['|', ':', '-', '+', '>', '#', '.', '!', '(', ')', '"'].contains c

theorem isSeparator_of_isBlank {c : Char} (h : isBlank c = true) : isSeparator c = true := by
  simp [isSeparator, h]

theorem isMarker_of_isBlank {c : Char} (h : isBlank c = true) : isMarker c = true := by
  simp [isMarker, h]

/-- The text starts and ends as a tag does. -/
def IsMarkup (m : Text) : Prop := m.head? = some '<' ∧ m.getLast? = some '>'

theorem isMarkup_openTag (name : Text) : IsMarkup (openTag name) :=
  ⟨rfl, List.getLast?_concat⟩

theorem isMarkup_closeTag (name : Text) : IsMarkup (closeTag name) :=
  ⟨rfl, List.getLast?_concat⟩

theorem isMarkup_element (name body : Text) : IsMarkup (element name body) :=
  ⟨rfl, by rw [element, List.getLast?_append, (isMarkup_closeTag name).2, Option.some_or]⟩

end Text

open Text

/-- An integer for every text, added up over the cuts the passes make. -/
structure Weight where
  of : Text → Int
  cut_after : ∀ (s : Text) (y : Char) (t : Text), y = '>' ∨ isSeparator y = true →
    of (s ++ y :: t) = of (s ++ [y]) + of t
  cut_before : ∀ (s : Text) (z : Char) (t : Text), z = '<' ∨ isSeparator z = true →
    of (s ++ z :: t) = of s + of (z :: t)
  of_markers : ∀ s : Text, s.all isMarker = true → of s = 0
  of_asterisk : of ['*'] = 0

namespace Weight

variable (w : Weight)

/-! ## Cuts -/

@[simp] theorem of_nil : w.of [] = 0 := w.of_markers [] rfl

theorem of_separator {c : Char} (h : isSeparator c = true) (s t : Text) :
    w.of (s ++ c :: t) = w.of s + w.of [c] + w.of t := by
  have hafter := w.cut_after [] c t (Or.inr h)
  rw [w.cut_before s c t (Or.inr h), Int.add_assoc]
  simpa using hafter

/-- Cutting a character out that is a separator and a marker changes nothing. -/
theorem of_append_cons {c : Char} (h : isSeparator c = true ∧ isMarker c = true) (s t : Text) :
    w.of (s ++ c :: t) = w.of s + w.of t := by
  rw [w.of_separator h.1, w.of_markers [c] (by simpa using h.2), Int.add_zero]

theorem of_append_blank {c : Char} (h : isBlank c = true) (s t : Text) :
    w.of (s ++ c :: t) = w.of s + w.of t :=
  w.of_append_cons ⟨isSeparator_of_isBlank h, isMarker_of_isBlank h⟩ s t

theorem of_blanks_append : ∀ {a : Text}, (∀ c ∈ a, isBlank c = true) → ∀ t, w.of (a ++ t) = w.of t
  | [], _, _ => rfl
  | c :: a, h, t => by
    have hc := w.of_append_blank (h c List.mem_cons_self) [] (a ++ t)
    have ih := of_blanks_append (fun c' h' => h c' (List.mem_cons_of_mem _ h')) t
    rw [List.cons_append, ← ih]
    simpa using hc

theorem of_append_blanks_append {b : Text} (hb : ∀ c ∈ b, isBlank c = true) (hne : b ≠ [])
    (s t : Text) :
    w.of (s ++ (b ++ t)) = w.of s + w.of t := by
  obtain ⟨c, b, rfl⟩ := List.exists_cons_of_ne_nil hne
  rw [List.cons_append, w.of_append_blank (hb c List.mem_cons_self),
    w.of_blanks_append fun c' h' => hb c' (List.mem_cons_of_mem _ h')]

theorem of_append_blanks {b : Text} (h : ∀ c ∈ b, isBlank c = true) (t : Text) :
    w.of (t ++ b) = w.of t := by
  cases b with
  | nil => simp
  | cons c b =>
    have hmarkers : b.all isMarker = true :=
      List.all_eq_true.2 fun c' h' => isMarker_of_isBlank (h c' (List.mem_cons_of_mem _ h'))
    rw [w.of_append_blank (h c List.mem_cons_self), w.of_markers b hmarkers, Int.add_zero]

theorem of_trim (t : Text) : w.of (trim t) = w.of t := by
  obtain ⟨a, b, ht, ha, hb⟩ := trim_shape t
  conv => rhs; rw [ht]
  rw [w.of_append_blanks hb, w.of_blanks_append ha]

/-- The parts between separators weigh as much as the text they are cut from. -/
theorem of_splitOn {c : Char} (h : isSeparator c = true ∧ isMarker c = true) (t : Text) :
    ((t.splitOn c).map w.of).sum = w.of t := by
  have hparts : ∀ ls : List Text, (ls.map w.of).sum = w.of ([c].intercalate ls) := by
    intro ls
    induction ls with
    | nil => simp
    | cons l ls ih =>
      cases ls with
      | nil => simp
      | cons l' ls =>
        rw [List.map_cons, List.sum_cons, ih, List.intercalate_cons_cons, List.append_assoc,
          List.singleton_append, w.of_append_cons h]
  rw [hparts, List.intercalate_splitOn]

theorem of_lines (t : Text) : ((lines t).map w.of).sum = w.of t := w.of_splitOn (by decide) t

/-! ## Markup -/

theorem of_append_of_getLast? {m : Text} {y : Char} (h : m.getLast? = some y)
    (hy : y = '>' ∨ isSeparator y = true)
    (t : Text) : w.of (m ++ t) = w.of m + w.of t := by
  obtain ⟨s, rfl⟩ := List.getLast?_eq_some_iff.1 h
  rw [List.append_assoc, List.singleton_append, w.cut_after s y t hy]

theorem of_append_of_head? {m : Text} {z : Char} (h : m.head? = some z)
    (hz : z = '<' ∨ isSeparator z = true)
    (s : Text) : w.of (s ++ m) = w.of s + w.of m := by
  obtain ⟨t, rfl⟩ := List.head?_eq_some_iff.1 h
  exact w.cut_before s z t hz

/-- A part of a text that starts and ends at cuts is weighed apart from what stands around it. -/
theorem of_append_part {m : Text} {y z : Char} (hz : m.head? = some z) (hy : m.getLast? = some y)
    (hz' : z = '<' ∨ isSeparator z = true) (hy' : y = '>' ∨ isSeparator y = true) (s t : Text) :
    w.of (s ++ m ++ t) = w.of s + w.of m + w.of t := by
  rw [List.append_assoc, w.of_append_of_head? (by rw [List.head?_append, hz, Option.some_or]) hz',
    w.of_append_of_getLast? hy hy', Int.add_assoc]

theorem of_append_markup {m : Text} (h : IsMarkup m) (s t : Text) :
    w.of (s ++ m ++ t) = w.of s + w.of m + w.of t :=
  w.of_append_part h.1 h.2 (Or.inl rfl) (Or.inl rfl) s t

theorem of_wrap {o c : Text} (ho : o.getLast? = some '>') (hc : c.head? = some '<') (body : Text) :
    w.of (o ++ body ++ c) = w.of o + w.of body + w.of c := by
  rw [w.of_append_of_head? hc (Or.inl rfl), w.of_append_of_getLast? ho (Or.inl rfl)]

theorem of_element (name body : Text) :
    w.of (element name body) = w.of (openTag name) + w.of body + w.of (closeTag name) :=
  w.of_wrap (isMarkup_openTag name).2 (isMarkup_closeTag name).1 body

/-- The two tags of an element weigh nothing together. -/
def Neutral (name : Text) : Prop := w.of (openTag name) + w.of (closeTag name) = 0

theorem of_element_of_neutral {name : Text} (h : w.Neutral name) (body : Text) :
    w.of (element name body) = w.of body := by
  rw [of_element]
  unfold Neutral at h
  omega

/-! ## Pieces -/

/-- The weight of a piece without the break after it. -/
def ofPiece : Piece → Int
  | .markup m => w.of m
  | .line l => w.of l

theorem of_print : ∀ ps : List Piece, (∀ m, .markup m ∈ ps → m.getLast? = some '>') →
    w.of (Piece.print ps) = (ps.map w.ofPiece).sum
  | [], _ => by simp [Piece.print]
  | .markup m :: ps, h => by
    have ih := of_print ps fun m' hm => h m' (List.mem_cons_of_mem _ hm)
    rw [Piece.print_markup, w.of_append_of_getLast? (h m List.mem_cons_self) (Or.inl rfl), ih]
    simp [ofPiece]
  | [.line l], _ => by simp [Piece.print, ofPiece]
  | .line l :: p :: ps, h => by
    have ih := of_print (p :: ps) fun m' hm => h m' (List.mem_cons_of_mem _ hm)
    rw [Piece.print_line_cons, w.of_append_blank (by decide), ih]
    simp [ofPiece]

end Weight

end MarkdownPreview

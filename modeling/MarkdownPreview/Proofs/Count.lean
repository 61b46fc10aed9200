import MarkdownPreview.Proofs.EncodedText
import MarkdownPreview.Proofs.SpanWeight
/-!
# Counts as weights

How often a word occurs is a weight if the word cannot stand across a cut (`Countable`), and so is
the difference of two weights. The counts that are used are those of a tag, of two equal delimiters
side by side, and of a single character.
-/

namespace MarkdownPreview

open Text

/-- A word that cannot stand across the cuts of the passes and is not made of what they drop. -/
structure Text.Countable (word : Text) : Prop where
  before : word.dropLast.all (fun c => c != '>' && !isSeparator c) = true
  after : word.tail.all (fun c => c != '<' && !isSeparator c) = true
  kept : word.any (fun c => !isMarker c) = true
  asterisk : word ≠ ['*']

instance (word : Text) : Decidable (Countable word) :=
  decidable_of_iff (word.dropLast.all (fun c => c != '>' && !isSeparator c) = true ∧
      word.tail.all (fun c => c != '<' && !isSeparator c) = true ∧
      word.any (fun c => !isMarker c) = true ∧ word ≠ ['*'])
    ⟨fun ⟨h1, h2, h3, h4⟩ => ⟨h1, h2, h3, h4⟩, fun ⟨h1, h2, h3, h4⟩ => ⟨h1, h2, h3, h4⟩⟩

theorem Text.Countable.ne_nil {word : Text} (h : Countable word) : word ≠ [] := by
  rintro rfl
  exact absurd h.kept (by decide)

namespace Weight

/-- How often a word occurs. -/
def count (word : Text) (h : Countable word) : Weight where
  of t := occurrences word t
  cut_after s y t hy := by
    have hcut :
        occurrences word (s ++ [y] ++ t) = occurrences word (s ++ [y]) + occurrences word t := by
      refine occurrences_append fun y' hy' _ _ hbefore _ => ?_
      rw [List.getLast?_concat, Option.mem_some_iff] at hy'
      subst hy'
      have hword := List.all_eq_true.1 h.before y hbefore
      rcases hy with rfl | hy
      · exact absurd hword (by decide)
      · simp [hy] at hword
    rw [List.append_assoc, List.singleton_append] at hcut
    rw [hcut, Int.natCast_add]
  cut_before s z t hz := by
    have hcut : occurrences word (s ++ z :: t) = occurrences word s + occurrences word (z :: t) := by
      refine occurrences_append fun _ _ z' hz' _ hafter => ?_
      rw [List.head?_cons, Option.mem_some_iff] at hz'
      subst hz'
      have hword := List.all_eq_true.1 h.after z hafter
      rcases hz with rfl | hz
      · exact absurd hword (by decide)
      · simp [hz] at hword
    rw [hcut, Int.natCast_add]
  of_markers s hs := by
    obtain ⟨c, hc, hkept⟩ := List.any_eq_true.1 h.kept
    have hnone : occurrences word s = 0 := (occurrences_eq_zero_iff h.ne_nil).2 fun hi => by
      simp [List.all_eq_true.1 hs c (hi.subset hc)] at hkept
    rw [hnone, Int.natCast_zero]
  of_asterisk := by
    have hnone : occurrences word ['*'] = 0 := (occurrences_eq_zero_iff h.ne_nil).2 fun hi => by
      rcases List.infix_cons_iff.1 hi with hp | hi
      · rcases List.prefix_cons_iff.1 hp with hp | ⟨w, hw, hp⟩
        · exact h.ne_nil hp
        · rw [List.prefix_nil.1 hp] at hw
          exact h.asterisk hw
      · exact h.ne_nil (List.infix_nil.1 hi)
    rw [hnone, Int.natCast_zero]

@[simp] theorem count_of (word : Text) (h : Countable word) (t : Text) :
    (count word h).of t = occurrences word t := rfl

/-- The difference of two weights. -/
def sub (v w : Weight) : Weight where
  of t := v.of t - w.of t
  cut_after s y t hy := by
    have hv := v.cut_after s y t hy
    have hw := w.cut_after s y t hy
    omega
  cut_before s z t hz := by
    have hv := v.cut_before s z t hz
    have hw := w.cut_before s z t hz
    omega
  of_markers s hs := by rw [v.of_markers s hs, w.of_markers s hs, Int.sub_zero]
  of_asterisk := by rw [v.of_asterisk, w.of_asterisk, Int.sub_zero]

@[simp] theorem sub_of (v w : Weight) (t : Text) : (sub v w).of t = v.of t - w.of t := rfl

end Weight

/-! ## Delimiters -/

theorem Text.occurrences_append_cons {word : Text} {c : Char} (hne : word ≠ []) (h : c ∉ word)
    (a b : Text) :
    occurrences word (a ++ c :: b) = occurrences word a + occurrences word b := by
  have hcut : occurrences word (a ++ c :: b) = occurrences word a + occurrences word (c :: b) := by
    refine occurrences_append fun _ _ z hz _ htail => ?_
    rw [List.head?_cons, Option.mem_some_iff] at hz
    subst hz
    exact h (List.mem_of_mem_tail htail)
  have hnone : ¬ word <+: c :: b := by
    intro hp
    rcases List.prefix_cons_iff.1 hp with hw | ⟨w, hw, -⟩
    · exact hne hw
    · exact h (by rw [hw]; exact List.mem_cons_self)
  rw [hcut, occurrences_cons, if_neg hnone, Nat.zero_add]

/-- A character that delimiters are made of. -/
inductive Delimiter
  | asterisk
  | underscore
  | backtick
  deriving DecidableEq, Repr

/-- The character itself. -/
def Delimiter.char : Delimiter → Char
  | .asterisk => '*'
  | .underscore => '_'
  | .backtick => '`'

/-- The delimiters of the style repeat one delimiter character. -/
def Delimited.UsesDelimiters (s : Delimited) : Prop :=
  ∀ mark ∈ s.marks, ∃ (m : Delimiter) (n : Nat), mark = List.replicate (n + 1) m.char

namespace Delimited

theorem usesDelimiters_strong : strong.UsesDelimiters := by
  intro mark hmark
  simp only [strong, List.mem_cons, List.not_mem_nil, or_false] at hmark
  rcases hmark with rfl | rfl
  · exact ⟨.asterisk, 1, rfl⟩
  · exact ⟨.underscore, 1, rfl⟩

theorem usesDelimiters_emphasis : emphasis.UsesDelimiters := by
  intro mark hmark
  simp only [emphasis, List.mem_cons, List.not_mem_nil, or_false] at hmark
  rcases hmark with rfl | rfl
  · exact ⟨.asterisk, 0, rfl⟩
  · exact ⟨.underscore, 0, rfl⟩

theorem usesDelimiters_code : code.UsesDelimiters := by
  intro mark hmark
  rw [List.mem_singleton.1 hmark]
  exact ⟨.backtick, 0, rfl⟩

end Delimited

namespace Weight

/-- A count ignores a delimiter whose character is not in the word. -/
theorem count_ignoresMark {word : Text} (h : Countable word) {c : Char} (hc : c ∉ word) (n : Nat) :
    (count word h).IgnoresMark (List.replicate (n + 1) c) := by
  induction n with
  | zero =>
    intro a b
    have hcut := occurrences_append_cons h.ne_nil hc a b
    rw [List.append_assoc, count_of, show List.replicate 1 c ++ b = c :: b from rfl, hcut,
      Int.natCast_add]
    rfl
  | succ n ih =>
    intro a b
    have hcut := occurrences_append_cons h.ne_nil hc a (List.replicate (n + 1) c ++ b)
    have ih := ih [] b
    simp only [List.nil_append, of_nil, Int.zero_add] at ih
    rw [List.append_assoc, List.replicate_succ, List.cons_append, count_of, hcut, Int.natCast_add,
      ← count_of word h,
      ← count_of word h, ih]

theorem sum_map_sub (f g : Text → Nat) (us : List Text) :
    (us.map fun u => (f u : Int) - g u).sum = ((us.map f).sum : Int) - (us.map g).sum := by
  induction us with
  | nil => rfl
  | cons u us ih =>
    simp only [List.map_cons, List.sum_cons, ih, Int.natCast_add]
    omega

theorem sub_ignoresMark {v w : Weight} {mark : Text} (hv : v.IgnoresMark mark)
    (hw : w.IgnoresMark mark) :
    (sub v w).IgnoresMark mark := by
  intro a b
  have ha := hv a b
  have hb := hw a b
  simp only [sub_of]
  omega

end Weight

/-! ## Words a text does not have -/

section

variable {word : Text} {h : Countable word}

/-- The block passes bring in no word that they do not write. -/
theorem not_infix_blocks (hw : (Weight.count word h).IgnoresBlocks) {t : Text} (ht : ¬ word <:+: t) :
    ¬ word <:+: blocks t := by
  have hrules :
      ∀ l ∈ Line.ofText t, Rule.isRule l.body = true → (Weight.count word h).of l.body = 0 := by
    intro l hl _
    have hbody : ¬ word <:+: l.body := fun hi => ht (hi.trans (Line.isInfix_body hl))
    rw [Weight.count_of, (occurrences_eq_zero_iff h.ne_nil).2 hbody, Int.natCast_zero]
  have hof := Weight.of_blocks hw hrules
  rw [← occurrences_eq_zero_iff h.ne_nil] at ht ⊢
  simp only [Weight.count_of] at hof
  omega

theorem not_infix_images (hw : (Weight.count word h).IgnoresReferences) {t : Text}
    (ht : ¬ word <:+: t) :
    ¬ word <:+: Image.images t := by
  have hof := Weight.of_images hw t
  rw [← occurrences_eq_zero_iff h.ne_nil] at ht ⊢
  simp only [Weight.count_of] at hof
  omega

end

/-! ## Tags -/

/-- A name of characters that the passes neither drop nor cut at. -/
def Text.IsName (name : Text) : Prop :=
  name.all (fun c => !isSeparator c && !isMarker c && c != '<' && c != '>') = true

instance (name : Text) : Decidable (IsName name) := inferInstanceAs (Decidable (_ = _))

theorem Text.IsName.of_mem {name : Text} (h : IsName name) {c : Char} (hc : c ∈ name) :
    isSeparator c = false ∧ c ≠ '<' ∧ c ≠ '>' := by
  have hchar := List.all_eq_true.1 h c hc
  simp only [Bool.and_eq_true, Bool.not_eq_true', bne_iff_ne] at hchar
  exact ⟨hchar.1.1.1, hchar.1.2, hchar.2⟩

theorem Text.countable_openTag {name : Text} (h : IsName name) : Countable (openTag name) where
  before := by
    rw [openTag, List.dropLast_concat, List.all_eq_true]
    intro c hc
    rcases List.mem_cons.1 hc with rfl | hc
    · decide
    · simp [(h.of_mem hc).1, (h.of_mem hc).2.2]
  after := by
    rw [openTag, List.cons_append, List.tail_cons, List.all_eq_true]
    intro c hc
    rcases List.mem_append.1 hc with hc | hc
    · simp [(h.of_mem hc).1, (h.of_mem hc).2.1]
    · rw [List.mem_singleton.1 hc]
      decide
  kept := List.any_eq_true.2 ⟨'<', List.mem_cons_self, by decide⟩
  asterisk h := by simp [openTag] at h

theorem Text.countable_closeTag {name : Text} (h : IsName name) : Countable (closeTag name) := by
  have hslash : IsName ('/' :: name) := by
    unfold IsName at h ⊢
    rw [List.all_cons, h]
    decide
  exact countable_openTag hslash

end MarkdownPreview

import MarkdownPreview.Proofs.ReturnsBlocks
/-!
# Weights of characters

No pass drops a letter, and each writes texts of its own, so a weight that adds up over the
characters of a text tells from the rendered text what was written. A `Tally` gives integers to a
few characters that no pass drops. If what the rewritings write weighs nothing, the rendered text
weighs as much as the text after the block passes (`of_render`), and that is known from the lines
that the block passes recognise. Returns weigh nothing.
-/

namespace MarkdownPreview

open Text

/-- Characters that no pass drops, and what they weigh. -/
structure Tally where
  values : List (Char × Int)
  kept : ∀ p ∈ values, isMarker p.1 = false ∧ p.1 ∉ ['*', '_', '`']

namespace Tally

variable (T : Tally)

/-- What a character weighs. -/
def value (c : Char) : Int := (T.values.lookup c).getD 0

theorem value_eq_zero {c : Char} (h : isMarker c = true ∨ c ∈ ['*', '_', '`']) : T.value c = 0 := by
  have hnone : T.values.lookup c = none := by
    rw [List.lookup_eq_none_iff]
    intro p hp
    rw [bne_iff_ne]
    rintro rfl
    obtain ⟨hmarker, hmark⟩ := T.kept p hp
    rcases h with h | h
    · rw [hmarker] at h
      cases h
    · exact hmark h
  rw [value, hnone, Option.getD_none]

/-- The weight that adds up over the characters. -/
def weight : Weight where
  of t := (t.map T.value).sum
  cut_after s y t _ := by simp [Int.add_assoc]
  cut_before s z t _ := by simp
  of_markers s hs := by
    have hzero : s.map T.value = s.map fun _ => 0 :=
      List.map_congr_left fun c hc => T.value_eq_zero (Or.inl (List.all_eq_true.1 hs c hc))
    rw [hzero, List.map_const', List.sum_replicate_int, Int.mul_zero]
  of_asterisk := by
    have hzero : T.value '*' = 0 := T.value_eq_zero (Or.inr (by decide))
    simp [hzero]

theorem of_append (s t : Text) : T.weight.of (s ++ t) = T.weight.of s + T.weight.of t := by
  simp [weight]

theorem of_cons (c : Char) (t : Text) : T.weight.of (c :: t) = T.value c + T.weight.of t := by
  simp [weight]

theorem of_dropReturns (t : Text) : T.weight.of (dropReturns t) = T.weight.of t := by
  induction t with
  | nil => rfl
  | cons c t ih =>
    by_cases hc : c = '\r'
    · rw [hc, dropReturns_return_cons, ih, of_cons, T.value_eq_zero (Or.inl (by decide)), Int.zero_add]
    · rw [dropReturns_cons hc, of_cons, of_cons, ih]

theorem of_crlf {t : Text} (h : '\r' ∉ t) : T.weight.of (crlf t) = T.weight.of t := by
  rw [← of_dropReturns, dropReturns_crlf h]

theorem ignoresMarks {s : Delimited} (hs : s.UsesDelimiters) :
    ∀ mark ∈ s.marks, T.weight.IgnoresMark mark := by
  intro mark hmark
  obtain ⟨m, n, rfl⟩ := hs mark hmark
  have hvalue : T.value m.char = 0 := T.value_eq_zero (Or.inr (by cases m <;> decide))
  have hzero : ∀ n, T.weight.of (List.replicate n m.char) = 0 := by
    intro n
    induction n with
    | zero => rfl
    | succ n ih => rw [List.replicate_succ, of_cons, ih, hvalue, Int.add_zero]
  intro a b
  rw [of_append, of_append, hzero, Int.add_zero]

/-! ## The rewritings -/

/-- What the rewritings write weighs nothing, but for what it stands for. -/
structure IgnoresSpans (T : Tally) : Prop where
  references : T.weight.IgnoresReferences
  formats : ∀ name ∈ ["strong".toList, "em".toList, "code".toList], T.weight.Neutral name
  entity : ∀ e : Entity, T.weight.of e.text = T.value e.char

variable {T}

instance {P : Entity → Prop} [DecidablePred P] : Decidable (∀ e, P e) :=
  decidable_of_iff (P .ampersand ∧ P .less ∧ P .greater ∧ P .quote ∧ P .apostrophe)
    ⟨fun ⟨ha, hl, hg, hq, hs⟩ e => by cases e <;> assumption, fun h => ⟨h _, h _, h _, h _, h _⟩⟩

instance : Decidable T.IgnoresSpans :=
  decidable_of_iff (T.weight.IgnoresReferences ∧
      (∀ name ∈ ["strong".toList, "em".toList, "code".toList], T.weight.Neutral name) ∧
      ∀ e : Entity, T.weight.of e.text = T.value e.char)
    ⟨fun ⟨hr, hf, he⟩ => ⟨hr, hf, he⟩, fun ⟨hr, hf, he⟩ => ⟨hr, hf, he⟩⟩

theorem of_encode (hT : T.IgnoresSpans) (t : Text) : T.weight.of (Entity.encode t) = T.weight.of t := by
  have hchar : ∀ c, T.weight.of (Entity.ofChar c) = T.value c := by
    intro c
    unfold Entity.ofChar
    split
    · next e he => rw [hT.entity e, Entity.char_of_ofChar? he]
    · rw [of_cons, Weight.of_nil, Int.add_zero]
  induction t with
  | nil => rfl
  | cons c t ih => rw [Entity.encode_cons, of_append, hchar, ih, of_cons]

theorem of_inlineFormats (hT : T.IgnoresSpans) (t : Text) :
    T.weight.of (Delimited.inlineFormats t) = T.weight.of t := by
  have hnames := hT.formats
  simp only [List.forall_mem_cons] at hnames
  obtain ⟨hstrong, hem, hcode, -⟩ := hnames
  have hwrite : ∀ body, T.weight.of (Delimited.code.write body) = T.weight.of body := fun body =>
    (T.weight.of_element_of_neutral hcode _).trans (of_encode hT body)
  unfold Delimited.inlineFormats
  rw [Weight.of_format_of_write (fun _ => isMarkup_element _ _) hwrite
      (T.ignoresMarks Delimited.usesDelimiters_code),
    Weight.of_format (fun _ => rfl) (T.ignoresMarks Delimited.usesDelimiters_emphasis) hem,
    Weight.of_format (fun _ => rfl) (T.ignoresMarks Delimited.usesDelimiters_strong) hstrong]

theorem of_render (hT : T.IgnoresSpans) (t : Text) :
    T.weight.of (render t) = T.weight.of (blocks (Fence.codeBlocks t)) := by
  rw [render_eq, Weight.of_links hT.references, of_inlineFormats hT, beforeFormats,
    Weight.of_images hT.references]

end Tally

end MarkdownPreview

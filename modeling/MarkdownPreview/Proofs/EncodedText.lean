import MarkdownPreview.Text.Entity
/-!
# Encoded text

Encoded text can stand wherever HTML has text: no character of it opens or ends a tag or a quoted
value, and every ampersand in it starts an entity. It is read back without loss, also if entities
stood in the text before: what is written for a character is read as that character whatever follows
it (`decode_ofChar_append`), so decoding undoes encoding character by character.

Main result `encode_complete_and_reversible`. That no code starts another one (`eq_of_prefix_ofChar`)
gives more than a decoder: encoded words start encoded texts as the words start the texts
(`encode_prefix_iff`).
-/

namespace MarkdownPreview.Entity

/-! ## What is written for a character -/

theorem ofChar_of_some {c : Char} {e : Entity} (h : ofChar? c = some e) : ofChar c = e.text := by
  rw [ofChar, h]

theorem ofChar_of_none {c : Char} (h : ofChar? c = none) : ofChar c = [c] := by
  rw [ofChar, h]

theorem exists_text_eq (e : Entity) : ∃ word, e.text = '&' :: word := by
  cases e <;> exact ⟨_, rfl⟩

/-- A character that entities can only start with is written at the start of a character only. -/
theorem ofChar_shape {x : Char} (hx : ∀ e : Entity, x ∉ e.text.tail) (c : Char) :
    ∃ y ys, ofChar c = y :: ys ∧ x ∉ ys := by
  cases hc : ofChar? c with
  | none => exact ⟨c, [], ofChar_of_none hc, List.not_mem_nil⟩
  | some e =>
    obtain ⟨word, hword⟩ := e.exists_text_eq
    have htail := hx e
    rw [hword, List.tail_cons] at htail
    exact ⟨'&', word, by rw [ofChar_of_some hc, hword], htail⟩

theorem ampersand_not_mem_tail (e : Entity) : '&' ∉ e.text.tail := by cases e <;> decide

/-! ## The characters of encoded text -/

/-- Encoded text is made of entities and of the unreserved characters of the text. -/
theorem mem_encode {a : Char} {t : Text} (h : a ∈ encode t) :
    (∃ e : Entity, a ∈ e.text) ∨ a ∈ t ∧ ofChar? a = none := by
  unfold encode at h
  obtain ⟨c, hc, ha⟩ := List.mem_flatMap.1 h
  unfold ofChar at ha
  split at ha
  · next e _ => exact Or.inl ⟨e, ha⟩
  · next hnone =>
    rw [List.mem_singleton.1 ha]
    exact Or.inr ⟨hc, hnone⟩

theorem not_mem_encode {a : Char} (hentity : ∀ e : Entity, a ∉ e.text) {t : Text} (ht : a ∉ t) :
    a ∉ encode t := by
  intro h
  rcases mem_encode h with ⟨e, he⟩ | ⟨hm, -⟩
  · exact hentity e he
  · exact ht hm

/-- No reserved character is left in encoded text but the ampersands of entities. -/
theorem char_not_mem_encode {e : Entity} (h : e ≠ ampersand) (t : Text) : e.char ∉ encode t := by
  intro hm
  rcases mem_encode hm with ⟨e', he'⟩ | ⟨-, hnone⟩
  · revert h he'
    cases e <;> cases e' <;> decide
  · rw [ofChar?_char] at hnone
    cases hnone

/-- No character of encoded text opens or ends a tag or a quoted value. -/
theorem unreserved_of_mem_encode {c : Char} {t : Text} (h : c ∈ encode t) :
    c ∉ ['<', '>', '"', '\''] := by
  have hnot : ∀ e : Entity, e ≠ ampersand → c ≠ e.char := by
    rintro e he rfl
    exact char_not_mem_encode he t h
  simp only [List.mem_cons, List.not_mem_nil, or_false, not_or]
  exact ⟨hnot less (by decide), hnot greater (by decide), hnot quote (by decide),
    hnot apostrophe (by decide)⟩

/-- Encoded text has no tag. -/
theorem less_not_mem_encode (t : Text) : '<' ∉ encode t := char_not_mem_encode (e := less) (by decide) t

/-- An ampersand in encoded text starts an entity. -/
theorem exists_text_prefix {t before rest : Text} (h : encode t = before ++ '&' :: rest) :
    ∃ e : Entity, e.text <+: '&' :: rest := by
  induction t generalizing before with
  | nil => simp [encode] at h
  | cons c t ih =>
    rw [encode_cons] at h
    rcases List.append_eq_append_iff.1 h with ⟨later, -, ht⟩ | ⟨inside, hc, hrest⟩
    · exact ih ht
    · cases inside with
      | nil =>
        have hstart : encode t = [] ++ '&' :: rest := hrest.symm
        exact ih hstart
      | cons a inside =>
        -- the ampersand is one of those written for `c`, so it is the first character of its code
        obtain ⟨rfl, -⟩ := List.cons.inj hrest
        obtain ⟨y, ys, hshape, hys⟩ := ofChar_shape ampersand_not_mem_tail c
        cases before with
        | cons b before =>
          rw [hshape, List.cons_append] at hc
          exact absurd (by rw [(List.cons.inj hc).2]; simp) hys
        | nil =>
          cases he : ofChar? c with
          | none =>
            rw [ofChar_of_none he, List.nil_append] at hc
            rw [(List.cons.inj hc).1] at he
            exact absurd he (by decide)
          | some e =>
            refine ⟨e, encode t, ?_⟩
            rw [hrest, ← ofChar_of_some he, hc, List.nil_append]

/-! ## Prefixes of encoded text -/

/-- An entity is no part of what is written for an unreserved character. -/
theorem not_prefix_singleton (e : Entity) (c : Char) : ¬ e.text <+: [c] := by
  intro h
  have hlength : e.text.length ≤ 1 := h.length_le
  revert hlength
  cases e <;> decide

/-- What is written for a character does not start what is written for another. -/
theorem eq_of_prefix_ofChar {a b : Char} (h : ofChar a <+: ofChar b) : a = b := by
  cases ha : ofChar? a with
  | none =>
    rw [ofChar_of_none ha] at h
    cases hb : ofChar? b with
    | none => simpa [ofChar_of_none hb] using h
    | some e =>
      rw [ofChar_of_some hb] at h
      obtain ⟨word, hword⟩ := e.exists_text_eq
      rw [hword] at h
      rw [(List.cons_prefix_cons.1 h).1] at ha
      exact absurd ha (by decide)
  | some e =>
    rw [ofChar_of_some ha] at h
    cases hb : ofChar? b with
    | none => exact absurd (ofChar_of_none hb ▸ h) (not_prefix_singleton e b)
    | some e' =>
      rw [ofChar_of_some hb] at h
      have heq : e = e' := by
        clear ha hb
        revert h
        cases e <;> cases e' <;> decide
      rw [← char_of_ofChar? ha, ← char_of_ofChar? hb, heq]

/-- Encoded words start encoded texts as the words start the texts. -/
theorem encode_prefix_iff {word t : Text} : encode word <+: encode t ↔ word <+: t := by
  constructor
  · intro h
    induction word generalizing t with
    | nil => exact List.nil_prefix
    | cons a word ih =>
      rw [encode_cons] at h
      cases t with
      | nil =>
        obtain ⟨y, ys, ha, -⟩ := ofChar_shape ampersand_not_mem_tail a
        rw [ha] at h
        exact absurd (List.prefix_nil.1 h) (List.cons_ne_nil _ _)
      | cons b t =>
        rw [encode_cons] at h
        have hab : a = b := by
          have ha := (List.prefix_append (ofChar a) (encode word)).trans h
          have hb := List.prefix_append (ofChar b) (encode t)
          rcases List.prefix_or_prefix_of_prefix ha hb with hp | hp
          · exact eq_of_prefix_ofChar hp
          · exact (eq_of_prefix_ofChar hp).symm
        subst hab
        rw [List.prefix_append_right_inj] at h
        exact List.cons_prefix_cons.2 ⟨rfl, ih h⟩
  · rintro ⟨rest, rfl⟩
    rw [encode_append]
    exact List.prefix_append _ _

/-! ## Reading encoded text back -/

theorem readAt?_text_append (e : Entity) (rest : Text) :
    readAt? (e.text ++ rest) = some ([e.char], rest) := by
  cases e <;> rfl

/-- Only an ampersand starts an entity. -/
theorem readAt?_cons_of_ne {c : Char} (h : c ≠ '&') (t : Text) : readAt? (c :: t) = none := by
  rw [readAt?, List.findSome?_eq_none_iff]
  intro e _
  obtain ⟨word, hword⟩ := e.exists_text_eq
  rw [hword, Text.isPrefixOf?_cons_cons, if_neg (by simpa using Ne.symm h)]
  rfl

/-- What is written for a character is read as that character, whatever follows it. -/
theorem decode_ofChar_append (c : Char) (rest : Text) : decode (ofChar c ++ rest) = c :: decode rest := by
  cases hc : ofChar? c with
  | none =>
    have hne : c ≠ '&' := by
      rintro rfl
      exact absurd hc (by decide)
    rw [ofChar_of_none hc]
    exact Text.Pattern.replace_cons (p := pattern) (readAt?_cons_of_ne hne rest)
  | some e =>
    rw [ofChar_of_some hc, ← char_of_ofChar? hc]
    exact Text.Pattern.replace_of_spanAt? (p := pattern) (readAt?_text_append e rest)

theorem decode_encode (t : Text) : decode (encode t) = t := by
  induction t with
  | nil => exact Text.Pattern.replace_nil pattern
  | cons c t ih => rw [encode_cons, decode_ofChar_append, ih]

theorem encode_inj {s t : Text} : encode s = encode t ↔ s = t := by
  constructor
  · intro h
    rw [← decode_encode s, h, decode_encode]
  · rintro rfl
    rfl

/-- **Encoding is complete and reversible.** Encoded text has no character that opens or ends a tag or
a quoted value, every ampersand in it starts an entity, and decoding gives the text back. -/
theorem encode_complete_and_reversible (t : Text) :
    (∀ c ∈ encode t, c ∉ ['<', '>', '"', '\'']) ∧
      (∀ before rest, encode t = before ++ '&' :: rest → ∃ e : Entity, e.text <+: '&' :: rest) ∧
      decode (encode t) = t := by
  exact ⟨fun _ => unreserved_of_mem_encode, fun _ _ h => exists_text_prefix h, decode_encode t⟩

/-- An entity that stands in the text is encoded like other text. -/
example : encode "&lt;b>".toList = "&amp;lt;b&gt;".toList := by decide

end MarkdownPreview.Entity

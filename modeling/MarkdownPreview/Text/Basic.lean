/-!
# Texts

A text is the list of its characters; every reader and writer of this library works on that view.
Lines are cut at `'\n'` and joined with it again, which loses nothing (`joinLines_lines`). A marker
is found at the start of a text with `List.isPrefixOf?` and anywhere in it with `cut?`; both hand
back the text that follows, and it is shorter, so scanners end (`length_of_isPrefixOf?`,
`length_of_cut?`).
-/

namespace MarkdownPreview

/-- A text, character by character. -/
abbrev Text := List Char

namespace Text

/-! ## Characters -/

/-- What is said of the characters of a text is decided on these, not on all that there are. -/
instance (priority := high) decidableForallMem (P : Char → Prop) [DecidablePred P] (t : Text) :
    Decidable (∀ c ∈ t, P c) := List.decidableBAll P t

instance (priority := high) decidableExistsMem (P : Char → Prop) [DecidablePred P] (t : Text) :
    Decidable (∃ c ∈ t, P c) := List.decidableBEx P t

/-! ## Markers -/

@[simp] theorem isPrefixOf?_nil (t : Text) : [].isPrefixOf? t = some t := by cases t <;> rfl

@[simp] theorem isPrefixOf?_cons_nil (m : Char) (mark : Text) : (m :: mark).isPrefixOf? [] = none := rfl

theorem isPrefixOf?_cons_cons (m : Char) (mark : Text) (c : Char) (t : Text) :
    (m :: mark).isPrefixOf? (c :: t) = if m == c then mark.isPrefixOf? t else none := rfl

/-- A marker at the start of a text is followed by the rest of it. -/
theorem eq_append_of_isPrefixOf? {mark t rest : Text} (h : mark.isPrefixOf? t = some rest) :
    t = mark ++ rest := by
  induction mark generalizing t with
  | nil => simpa using h
  | cons m mark ih =>
    cases t with
    | nil => simp at h
    | cons c t =>
      simp only [isPrefixOf?_cons_cons, beq_iff_eq] at h
      split at h
      · next hm => rw [hm, ih h, List.cons_append]
      · simp at h

/-- A marker is found at the start of the text it begins. -/
theorem isPrefixOf?_append (mark rest : Text) : mark.isPrefixOf? (mark ++ rest) = some rest := by
  induction mark with
  | nil => simp
  | cons m mark ih => simp [isPrefixOf?_cons_cons, ih]

theorem length_of_isPrefixOf? {mark t rest : Text} (h : mark.isPrefixOf? t = some rest) :
    t.length = mark.length + rest.length := by
  rw [eq_append_of_isPrefixOf? h, List.length_append]

/-- The text before the first `mark` and the text after it. -/
def cut? (mark : Text) : Text → Option (Text × Text)
  | [] => if mark = [] then some ([], []) else none
  | c :: t =>
    match mark.isPrefixOf? (c :: t) with
    | some rest => some ([], rest)
    | none => (cut? mark t).map fun (before, rest) => (c :: before, rest)

/-- What is cut at a marker is the text before it, the marker and the text after it. -/
theorem eq_append_of_cut? {mark t before rest : Text} (h : cut? mark t = some (before, rest)) :
    t = before ++ mark ++ rest := by
  induction t generalizing before with
  | nil =>
    simp only [cut?] at h
    split at h
    · next hm => simp_all
    · simp at h
  | cons c t ih =>
    simp only [cut?] at h
    split at h
    · next r hr =>
      simp only [Option.some.injEq, Prod.mk.injEq] at h
      simp [← h.1, ← h.2, eq_append_of_isPrefixOf? hr]
    · obtain ⟨⟨b, r⟩, hc, he⟩ := Option.map_eq_some_iff.1 h
      simp only [Prod.mk.injEq] at he
      obtain ⟨rfl, rfl⟩ := he
      simp [ih hc]

theorem length_of_cut? {mark t before rest : Text} (h : cut? mark t = some (before, rest)) :
    t.length = before.length + mark.length + rest.length := by
  rw [eq_append_of_cut? h]
  simp [Nat.add_assoc]

/-- What is left after some first characters are dropped is no longer than the text. -/
theorem length_dropWhile_le (p : Char → Bool) (t : Text) : (t.dropWhile p).length ≤ t.length :=
  (List.dropWhile_sublist p).length_le

/-! ## Lines -/

/-- The lines of a text, cut at each `'\n'`: one more than there are line breaks. -/
def lines (t : Text) : List Text := t.splitOn '\n'

/-- Texts one below the other. -/
def joinLines (ls : List Text) : Text := ['\n'].intercalate ls

theorem joinLines_lines (t : Text) : joinLines (lines t) = t := List.intercalate_splitOn '\n'

/-! ## Sizes and numbers -/

/-- The number of bytes a text takes in UTF-8. -/
def utf8Length : Text → Nat
  | [] => 0
  | c :: t => c.utf8Size + utf8Length t

theorem utf8Length_append (s t : Text) : utf8Length (s ++ t) = utf8Length s + utf8Length t := by
  induction s with
  | nil => simp [utf8Length]
  | cons c s ih =>
    simp only [List.cons_append, utf8Length, ih]
    omega

/-- A number in decimal digits. -/
def decimal (n : Nat) : Text := Nat.toDigits 10 n

end Text

end MarkdownPreview

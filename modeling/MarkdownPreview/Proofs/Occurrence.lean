import MarkdownPreview.Text.Basic
/-!
# Occurrences of a word

How often a word starts in a text. Over a cut the count adds up unless the word can stand across it
(`occurrences_append`), and a text in which it never starts does not have it as a part
(`occurrences_eq_zero_iff`).
-/

namespace MarkdownPreview.Text

/-- The number of positions of a text at which a word starts. -/
def occurrences (word : Text) : Text → Nat
  | [] => 0
  | c :: t => (if word.isPrefixOf (c :: t) then 1 else 0) + occurrences word t

variable {word : Text}

theorem occurrences_cons (c : Char) (t : Text) :
    occurrences word (c :: t) = (if word <+: c :: t then 1 else 0) + occurrences word t := by
  simp [occurrences]

theorem occurrences_eq_zero_iff (h : word ≠ []) {t : Text} :
    occurrences word t = 0 ↔ ¬ word <:+: t := by
  induction t with
  | nil => simp [occurrences, h]
  | cons c t ih =>
    rw [occurrences_cons, List.infix_cons_iff]
    by_cases hp : word <+: c :: t
    · simp [hp]
    · simp [hp, ih]

/-- A word does not start in a text that lacks its first character. -/
theorem occurrences_eq_zero_of_not_mem {a : Char} {t : Text} (h : a ∉ t) :
    occurrences (a :: word) t = 0 := by
  rw [occurrences_eq_zero_iff (List.cons_ne_nil _ _)]
  intro hi
  exact h (hi.subset List.mem_cons_self)

/-- A word starts nowhere in a part that lacks its first character. -/
theorem occurrences_append_of_not_mem {a : Char} {s : Text} (h : a ∉ s) (t : Text) :
    occurrences (a :: word) (s ++ t) = occurrences (a :: word) t := by
  induction s with
  | nil => rfl
  | cons c s ih =>
    rw [List.mem_cons, not_or] at h
    have hstart : ¬ a :: word <+: c :: (s ++ t) := fun hp => h.1 (List.cons_prefix_cons.1 hp).1
    rw [List.cons_append, occurrences_cons, if_neg hstart, Nat.zero_add, ih h.2]

theorem singleton_infix_iff {a : Char} {t : Text} : [a] <:+: t ↔ a ∈ t := by
  constructor
  · intro h
    exact h.subset List.mem_cons_self
  · intro h
    obtain ⟨s, u, rfl⟩ := List.append_of_mem h
    exact ⟨s, u, by simp⟩

/-- A word of one character occurs as often as the character. -/
theorem occurrences_singleton (a : Char) (t : Text) : occurrences [a] t = t.count a := by
  induction t with
  | nil => rfl
  | cons c t ih =>
    rw [occurrences_cons, ih, List.count_cons, Nat.add_comm]
    by_cases h : a = c
    · simp [h]
    · simp [h, Ne.symm h]

/-- A word that starts before a cut and reaches over it has the characters on both its sides. -/
theorem prefix_append_cons {s t : Text} {y z : Char} (h : word <+: s ++ y :: z :: t) :
    word <+: s ++ [y] ∨ y ∈ word.dropLast ∧ z ∈ word.tail := by
  have hs : s ++ [y] <+: s ++ y :: z :: t := ⟨z :: t, by simp⟩
  rcases List.prefix_or_prefix_of_prefix h hs with hp | ⟨r, hr⟩
  · exact Or.inl hp
  · cases r with
    | nil => exact Or.inl (by simp [← hr])
    | cons z' r =>
      have hz : z' = z := by
        obtain ⟨u, hu⟩ := h
        simpa [← hr] using congrArg (fun l => l[s.length + 1]?) hu
      subst hz
      refine Or.inr ⟨?_, ?_⟩
      · rw [← hr, List.dropLast_append_cons]
        simp
      · rw [← hr]
        cases s <;> simp

/-- **Counting over a cut.** The count adds up if the word cannot have both the character before the
cut, not as its last, and the one after it, not as its first. -/
theorem occurrences_append {s t : Text}
    (hcut : ∀ y ∈ s.getLast?, ∀ z ∈ t.head?, y ∈ word.dropLast → z ∈ word.tail → False) :
    occurrences word (s ++ t) = occurrences word s + occurrences word t := by
  induction s with
  | nil => simp [occurrences]
  | cons c s ih =>
    have ih := ih fun y hy z hz => hcut y (by cases s with
      | nil => simp at hy
      | cons d s => simpa using hy) z hz
    have hiff : word <+: c :: (s ++ t) ↔ word <+: c :: s := by
      cases t with
      | nil => simp
      | cons z t =>
        refine ⟨fun hp => ?_, fun hp => hp.trans ⟨z :: t, by simp⟩⟩
        obtain ⟨init, y, hy⟩ : ∃ init y, c :: s = init ++ [y] :=
          ⟨_, _, (List.dropLast_concat_getLast (List.cons_ne_nil c s)).symm⟩
        rw [hy]
        rw [← List.cons_append, hy, List.append_assoc, List.singleton_append] at hp
        rcases prefix_append_cons hp with hp | ⟨h1, h2⟩
        · exact hp
        · exact (hcut y (by rw [hy]; simp) z rfl h1 h2).elim
    rw [List.cons_append, occurrences_cons, occurrences_cons, ih]
    simp only [hiff]
    omega

end MarkdownPreview.Text

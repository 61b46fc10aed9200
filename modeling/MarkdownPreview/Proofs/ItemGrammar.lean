import MarkdownPreview.Markup.Listing
import MarkdownPreview.Proofs.TrimmedText
/-!
# The grammar of item lines

An item line is recognised in one pass from left to right. The same lines are described in two other
ways: by a grammar that cuts the line in one way (`IsItemLine`), and by a pattern whose blanks and
whose content may both take the blanks behind the marker, so that a line can match in several ways
(`IsMatch`). A marker starts with no blank (`Kind.Marks.head`), which fixes the indent and the kind;
what the content takes of the blanks behind the marker is trimmed off again.

Main result `item?_grammar`: the recogniser reads an item off a line exactly if the grammar gives the
line that item, and exactly if some match of the pattern does; all matches give the same one.
-/

namespace MarkdownPreview.Listing

open Text

/-! ## Markers -/

/-- The markers of a kind: each of the three bullets, and one or more decimal digits with a point. -/
inductive Kind.Marks : Kind → Text → Prop
  | bullet {c : Char} : c ∈ ['*', '+', '-'] → Marks .unordered [c]
  | number {digits : Text} : digits ≠ [] → (∀ d ∈ digits, isDecimalDigit d = true) →
    Marks .ordered (digits ++ ['.'])

/-- No decimal digit is a blank or a bullet, in whatever script. -/
theorem not_blank_of_isDecimalDigit {c : Char} (h : isDecimalDigit c = true) :
    isBlank c = false ∧ c ∉ bullets := by
  have hdigits : ∀ start ∈ digitRuns, ∀ d < 10,
      isBlank (Char.ofNat (start + d)) = false ∧ Char.ofNat (start + d) ∉ bullets := by
    decide +kernel
  simp only [isDecimalDigit, List.any_eq_true, Bool.and_eq_true, decide_eq_true_eq] at h
  obtain ⟨start, hstart, hle, hlt⟩ := h
  have hc : Char.ofNat (start + (c.toNat - start)) = c := by
    rw [Nat.add_sub_cancel' hle, Char.ofNat_toNat]
  rw [← hc]
  exact hdigits start hstart _ (by omega)

variable {kind : Kind} {m : Text}

/-- A marker starts with no blank. -/
theorem Kind.Marks.head (h : kind.Marks m) : ∃ c rest, m = c :: rest ∧ isBlank c = false := by
  cases h with
  | @bullet c hc =>
    refine ⟨c, [], rfl, ?_⟩
    revert c
    decide
  | @number digits hne hdigits =>
    obtain ⟨d, digits, rfl⟩ := List.exists_cons_of_ne_nil hne
    exact ⟨d, _, rfl, (not_blank_of_isDecimalDigit (hdigits d List.mem_cons_self)).1⟩

/-- A marker is read, whatever follows it. -/
theorem Kind.Marks.marker?_append (h : kind.Marks m) (rest : Text) :
    marker? (m ++ rest) = some (kind, rest) := by
  cases h with
  | bullet hc => exact if_pos hc
  | @number digits hne hdigits =>
    have hdrop : (digits ++ '.' :: rest).dropWhile isDecimalDigit = '.' :: rest := by
      rw [List.dropWhile_append_of_pos hdigits, List.dropWhile_cons_of_neg (by decide)]
    obtain ⟨d, digits, rfl⟩ := List.exists_cons_of_ne_nil hne
    have hd := hdigits d List.mem_cons_self
    rw [List.append_assoc, List.singleton_append]
    rw [List.cons_append] at hdrop ⊢
    rw [marker?, if_neg (not_blank_of_isDecimalDigit hd).2, if_pos hd, hdrop]
    rfl

/-- What is read as a marker is one. -/
theorem exists_marks_of_marker? {t rest : Text} (h : marker? t = some (kind, rest)) :
    ∃ m, kind.Marks m ∧ t = m ++ rest := by
  cases t with
  | nil => simp [marker?] at h
  | cons c t =>
    simp only [marker?] at h
    split at h
    · next hc =>
      simp only [Option.some.injEq, Prod.mk.injEq] at h
      obtain ⟨rfl, rfl⟩ := h
      exact ⟨[c], .bullet hc, rfl⟩
    · split at h
      · next hc =>
        obtain ⟨r, hr, he⟩ := Option.map_eq_some_iff.1 h
        simp only [Prod.mk.injEq] at he
        obtain ⟨rfl, rfl⟩ := he
        have hdigits : (c :: t).takeWhile isDecimalDigit ≠ [] := by
          rw [List.takeWhile_cons_of_pos hc]
          exact List.cons_ne_nil _ _
        refine ⟨_, .number hdigits fun d hd => List.mem_takeWhile_imp hd, ?_⟩
        rw [List.append_assoc, ← eq_append_of_isPrefixOf? hr, List.takeWhile_append_dropWhile]
      · simp at h

/-! ## Item lines -/

/-- An item line as the grammar has it: an indent of blanks, a marker, one blank, and at least one more
character. The marker makes the kind, the blanks in front of it the indent, and all that follows it,
trimmed, is what the item says. -/
inductive IsItemLine : Text → Item → Prop
  | intro {kind : Kind} {indent marker rest : Text} {b : Char} :
    (∀ c ∈ indent, isBlank c = true) → kind.Marks marker → isBlank b = true → rest ≠ [] →
    IsItemLine (indent ++ marker ++ b :: rest) ⟨kind, indent.length, trim (b :: rest)⟩

/-- A match of the item pattern in a line: blanks, a marker, one or more blanks, and one or more
characters, none of them a line break. The content is trimmed. -/
inductive IsMatch : Text → Item → Prop
  | intro {kind : Kind} {indent marker blanks content : Text} :
    (∀ c ∈ indent, isBlank c = true) → kind.Marks marker →
    blanks ≠ [] → (∀ c ∈ blanks, isBlank c = true) → content ≠ [] → '\n' ∉ content →
    IsMatch (indent ++ marker ++ blanks ++ content) ⟨kind, indent.length, trim content⟩

/-- An item line is cut behind its indent. -/
theorem item?_of_marks {indent rest : Text} {b : Char} (hindent : ∀ c ∈ indent, isBlank c = true)
    (hm : kind.Marks m) (hb : isBlank b = true) (hrest : rest ≠ []) :
    item? (indent ++ m ++ b :: rest) = some ⟨kind, indent.length, trim rest⟩ := by
  obtain ⟨c, rest, rfl⟩ := List.exists_cons_of_ne_nil hrest
  obtain ⟨a, m', rfl, ha⟩ := hm.head
  have hnone : ¬ isBlank a = true := by simp [ha]
  have htake : (indent ++ (a :: m') ++ b :: c :: rest).takeWhile isBlank = indent := by
    rw [List.append_assoc, List.takeWhile_append_of_pos hindent, List.cons_append,
      List.takeWhile_cons_of_neg hnone, List.append_nil]
  have hdrop : (indent ++ (a :: m') ++ b :: c :: rest).dropWhile isBlank =
      (a :: m') ++ b :: c :: rest := by
    rw [List.append_assoc, List.dropWhile_append_of_pos hindent, List.cons_append,
      List.dropWhile_cons_of_neg hnone]
  rw [item?, htake, hdrop, hm.marker?_append]
  exact if_pos hb

/-- The recogniser follows the grammar. -/
theorem item?_eq_some_iff {line : Text} {i : Item} : item? line = some i ↔ IsItemLine line i := by
  constructor
  · intro h
    have hindent : ∀ c ∈ line.takeWhile isBlank, isBlank c = true :=
      fun c hc => List.mem_takeWhile_imp hc
    simp only [item?] at h
    split at h
    · next kind b c rest hm =>
      split at h
      · next hb =>
        obtain ⟨m, hmarks, hbehind⟩ := exists_marks_of_marker? hm
        have hline := IsItemLine.intro hindent hmarks hb (List.cons_ne_nil c rest)
        rw [List.append_assoc, ← hbehind, List.takeWhile_append_dropWhile, trim_cons hb,
          Option.some.inj h] at hline
        exact hline
      · simp at h
    · simp at h
  · rintro ⟨hindent, hm, hb, hrest⟩
    rw [trim_cons hb]
    exact item?_of_marks hindent hm hb hrest

/-- However the blanks behind the marker are shared out, the item is the same. -/
theorem IsMatch.isItemLine {line : Text} {i : Item} (h : IsMatch line i) : IsItemLine line i := by
  cases h with
  | @intro kind indent marker blanks content hindent hm hne hblanks hcontent =>
    obtain ⟨b, blanks, rfl⟩ := List.exists_cons_of_ne_nil hne
    have hrest : blanks ++ content ≠ [] := by simp [hcontent]
    have hline := IsItemLine.intro hindent hm (hblanks b List.mem_cons_self) hrest
    rw [← List.cons_append, trim_blanks_append hblanks] at hline
    rwa [List.append_assoc]

/-- The content may take all the blanks behind the marker but one. -/
theorem IsItemLine.isMatch {line : Text} {i : Item} (h : IsItemLine line i) (hline : '\n' ∉ line) :
    IsMatch line i := by
  cases h with
  | @intro kind indent marker rest b hindent hm hb hrest =>
    have hbreak : '\n' ∉ rest := fun h => hline (by simp [h])
    have hmatch := IsMatch.intro hindent hm (List.cons_ne_nil b []) (by simpa using hb) hrest hbreak
    rw [trim_cons hb]
    rwa [List.append_assoc, List.singleton_append] at hmatch

/-- **The grammar of item lines.** A line is read as an item exactly if the grammar has it as one, with
the kind of its marker, its number of leading blanks and the trimmed text behind the marker. The
pattern of items matches exactly these lines, and every way to match one gives that item. -/
theorem item?_grammar {line : Text} (h : '\n' ∉ line) (i : Item) :
    (item? line = some i ↔ IsItemLine line i) ∧ (item? line = some i ↔ IsMatch line i) := by
  refine ⟨item?_eq_some_iff, ?_⟩
  rw [item?_eq_some_iff]
  exact ⟨fun hline => hline.isMatch h, IsMatch.isItemLine⟩

/-- A number in Arabic digits with three blanks behind it: the last one is the content, or the last two
are, and the item says nothing. -/
theorem item?_grammar_blanks :
    '\n' ∉ "\t ٣١. \t\r".toList ∧
      IsMatch ("\t ".toList ++ "٣١.".toList ++ " \t".toList ++ "\r".toList) ⟨.ordered, 2, []⟩ ∧
      IsMatch ("\t ".toList ++ "٣١.".toList ++ " ".toList ++ "\t\r".toList) ⟨.ordered, 2, []⟩ ∧
      item? "\t ٣١. \t\r".toList = some ⟨.ordered, 2, []⟩ := by
  have hbreak : '\n' ∉ "\t ٣١. \t\r".toList := by decide
  have hmarks : Kind.Marks .ordered ("٣١".toList ++ ['.']) := .number (by decide) (by decide)
  have hshort : IsMatch ("\t ".toList ++ "٣١.".toList ++ " \t".toList ++ "\r".toList)
      ⟨.ordered, 2, []⟩ :=
    .intro (by decide) hmarks (by decide) (by decide) (by decide) (by decide)
  have hlong : IsMatch ("\t ".toList ++ "٣١.".toList ++ " ".toList ++ "\t\r".toList)
      ⟨.ordered, 2, []⟩ :=
    .intro (by decide) hmarks (by decide) (by decide) (by decide) (by decide)
  exact ⟨hbreak, hshort, hlong, (item?_grammar hbreak _).2.2 hshort⟩

end MarkdownPreview.Listing

import MarkdownPreview.Proofs.LineShape
/-!
# Carriage returns

A carriage return in front of a line break is part of the break for some passes and a blank at the
end of the line for others. `dropReturns` takes the returns out of a text, and `Returns` says that
each of them is directly followed by one of a few characters, at first a line break and later also
what the passes put between a line and its break. A pass goes well with returns if taking them out
before it is as good as after it. For lines, for runs of characters and for what is found by its
first characters this is shown here once.
-/

namespace MarkdownPreview

namespace Text

/-! ## Taking returns out and putting them in -/

/-- The text without its carriage returns. -/
def dropReturns (t : Text) : Text := t.filter (· != '\r')

/-- The text with a return in front of every break. -/
def crlf (t : Text) : Text := t.flatMap fun c => if c = '\n' then ['\r', '\n'] else [c]

@[simp] theorem dropReturns_nil : dropReturns [] = [] := rfl

@[simp] theorem dropReturns_append (s t : Text) :
    dropReturns (s ++ t) = dropReturns s ++ dropReturns t := List.filter_append s t

@[simp] theorem dropReturns_return_cons (t : Text) : dropReturns ('\r' :: t) = dropReturns t := rfl

theorem dropReturns_cons {c : Char} (hc : c ≠ '\r') (t : Text) :
    dropReturns (c :: t) = c :: dropReturns t := List.filter_cons_of_pos (by simpa using hc)

theorem return_not_mem_dropReturns (t : Text) : '\r' ∉ dropReturns t := by simp [dropReturns]

theorem dropReturns_eq_self {t : Text} (h : '\r' ∉ t) : dropReturns t = t :=
  List.filter_eq_self.2 fun c hc => by
    rw [bne_iff_ne]
    rintro rfl
    exact h hc

theorem mem_of_mem_dropReturns {c : Char} {t : Text} (h : c ∈ dropReturns t) : c ∈ t :=
  (List.mem_filter.1 h).1

@[simp] theorem crlf_nil : crlf [] = [] := rfl

@[simp] theorem crlf_append (s t : Text) : crlf (s ++ t) = crlf s ++ crlf t := List.flatMap_append

theorem crlf_break_cons (t : Text) : crlf ('\n' :: t) = '\r' :: '\n' :: crlf t := rfl

theorem crlf_cons {c : Char} (hc : c ≠ '\n') (t : Text) : crlf (c :: t) = c :: crlf t := by
  rw [crlf, List.flatMap_cons, if_neg hc]
  rfl

theorem crlf_eq_self {t : Text} (h : '\n' ∉ t) : crlf t = t := by
  induction t with
  | nil => rfl
  | cons c t ih =>
    rw [List.mem_cons, not_or] at h
    rw [crlf_cons (Ne.symm h.1), ih h.2]

theorem dropReturns_crlf {t : Text} (h : '\r' ∉ t) : dropReturns (crlf t) = t := by
  induction t with
  | nil => rfl
  | cons c t ih =>
    rw [List.mem_cons, not_or] at h
    by_cases hc : c = '\n'
    · rw [hc, crlf_break_cons, dropReturns_return_cons, dropReturns_cons (by decide), ih h.2]
    · rw [crlf_cons hc, dropReturns_cons (Ne.symm h.1), ih h.2]

theorem lines_dropReturns (t : Text) : lines (dropReturns t) = (lines t).map dropReturns := by
  induction t with
  | nil => rfl
  | cons c t ih =>
    obtain ⟨l, ls, ht⟩ := List.exists_cons_of_ne_nil (lines_ne_nil t)
    simp only [lines, List.splitOn_cons_eq_if_modifyHead] at *
    by_cases hreturn : c = '\r'
    · subst hreturn
      rw [dropReturns_return_cons, ih, ht, if_neg (by decide)]
      rfl
    · rw [dropReturns_cons hreturn, List.splitOn_cons_eq_if_modifyHead, ih, ht]
      split
      · rfl
      · simp [dropReturns_cons hreturn]

theorem takeWhile_dropReturns {p : Char → Bool} (hp : p '\r' = true) (t : Text) :
    (dropReturns t).takeWhile p = dropReturns (t.takeWhile p) := by
  induction t with
  | nil => rfl
  | cons c t ih =>
    by_cases hreturn : c = '\r'
    · subst hreturn
      rw [dropReturns_return_cons, ih, List.takeWhile_cons_of_pos hp, dropReturns_return_cons]
    · rw [dropReturns_cons hreturn, List.takeWhile_cons, List.takeWhile_cons, ih]
      split
      · rw [dropReturns_cons hreturn]
      · rfl

theorem dropWhile_dropReturns {p : Char → Bool} (hp : p '\r' = true) (t : Text) :
    (dropReturns t).dropWhile p = dropReturns (t.dropWhile p) := by
  induction t with
  | nil => rfl
  | cons c t ih =>
    by_cases hreturn : c = '\r'
    · subst hreturn
      rw [dropReturns_return_cons, ih, List.dropWhile_cons_of_pos hp]
    · rw [dropReturns_cons hreturn, List.dropWhile_cons, List.dropWhile_cons, ih]
      split
      · rfl
      · rw [dropReturns_cons hreturn]

theorem dropReturns_element {name : Text} (h : '\r' ∉ name) (body : Text) :
    dropReturns (element name body) = element name (dropReturns body) := by
  have hopen : '\r' ∉ openTag name := by simp [openTag, h]
  have hclose : '\r' ∉ closeTag name := by simp [closeTag, h]
  rw [element, dropReturns_append, dropReturns_append, dropReturns_eq_self hopen,
    dropReturns_eq_self hclose, element]

/-! ## Where returns stand -/

/-- Every return is directly followed by one of some characters, the text by `next`. -/
def Returns (S : List Char) (next : Option Char) : Text → Prop
  | [] => True
  | c :: t => (c = '\r' → ∃ d ∈ S, t.head?.or next = some d) ∧ Returns S next t

variable {S S' : List Char} {next : Option Char}

theorem returns_append {s t : Text} :
    Returns S next (s ++ t) ↔ Returns S (t.head?.or next) s ∧ Returns S next t := by
  induction s with
  | nil => simp [Returns]
  | cons c s ih =>
    rw [List.cons_append, Returns, Returns, ih, List.head?_append, Option.or_assoc, and_assoc]

theorem returns_of_not_mem {t : Text} (h : '\r' ∉ t) : Returns S next t := by
  induction t with
  | nil => trivial
  | cons c t ih =>
    rw [List.mem_cons, not_or] at h
    exact ⟨fun hc => absurd hc.symm h.1, ih h.2⟩

theorem Returns.of_suffix {t u : Text} (h : Returns S next t) (hu : u <:+ t) : Returns S next u := by
  obtain ⟨a, rfl⟩ := hu
  exact (returns_append.1 h).2

theorem Returns.mono {t : Text} (h : Returns S next t) (hS : S ⊆ S') : Returns S' next t := by
  induction t with
  | nil => trivial
  | cons c t ih =>
    refine ⟨fun hc => ?_, ih h.2⟩
    obtain ⟨d, hd, hnext⟩ := h.1 hc
    exact ⟨d, hS hd, hnext⟩

/-- What may end a text may stand before anything. -/
theorem Returns.of_none {t : Text} (h : Returns S none t) : Returns S next t := by
  induction t with
  | nil => trivial
  | cons c t ih =>
    refine ⟨fun hc => ?_, ih h.2⟩
    obtain ⟨d, hd, hnext⟩ := h.1 hc
    rw [Option.or_none] at hnext
    exact ⟨d, hd, by rw [hnext, Option.some_or]⟩

/-- A text that does not end in a return is as good before anything as at the end. -/
theorem Returns.to_none {t : Text} (h : Returns S next t) (hlast : t.getLast? ≠ some '\r') :
    Returns S none t := by
  induction t with
  | nil => trivial
  | cons c t ih =>
    cases t with
    | nil => exact ⟨fun hc => absurd (by rw [hc]; rfl) hlast, trivial⟩
    | cons d t => exact ⟨h.1, ih h.2 (by rwa [List.getLast?_cons_cons] at hlast)⟩

theorem Returns.getLast?_ne {t : Text} (h : Returns S next t) (hnext : ∀ d, next = some d → d ∉ S) :
    t.getLast? ≠ some '\r' := by
  intro hlast
  obtain ⟨s, rfl⟩ := List.getLast?_eq_some_iff.1 hlast
  obtain ⟨d, hd, he⟩ := (returns_append.1 h).2.1 rfl
  exact hnext d he hd

theorem Returns.append {s t : Text} (hs : Returns S none s) (ht : Returns S next t) :
    Returns S next (s ++ t) := returns_append.2 ⟨hs.of_none, ht⟩

/-- Before a character that no return stands before, a part of a text may also end the text. -/
theorem Returns.left {s t : Text} {d : Char} (h : Returns S next (s ++ d :: t)) (hd : d ∉ S) :
    Returns S none s := by
  have hs := (returns_append.1 h).1
  exact hs.to_none (hs.getLast?_ne fun d' hd' => by rwa [← Option.some.inj hd'])

/-- The part of a text before a character that no return stands before. -/
theorem Returns.takeWhile {p : Char → Bool} {t rest : Text} {d : Char} (h : Returns S next t)
    (hrest : t.dropWhile p = d :: rest) (hd : d ∉ S) : Returns S none (t.takeWhile p) := by
  rw [← List.takeWhile_append_dropWhile (p := p) (l := t), hrest] at h
  exact h.left hd

theorem Returns.element {name body : Text} (hname : '\r' ∉ name) (h : Returns S none body) :
    Returns S none (element name body) := by
  have hopen : Returns S none (openTag name) := returns_of_not_mem (by simp [openTag, hname])
  exact (hopen.append h).append (returns_of_not_mem (by simp [closeTag, hname]))

/-- A text is not empty without its returns. -/
theorem Returns.dropReturns_eq_nil_iff {t : Text} (h : Returns S none t) (hS : '\r' ∉ S) :
    dropReturns t = [] ↔ t = [] := by
  refine ⟨fun hnil => ?_, fun ht => by rw [ht]; rfl⟩
  cases t with
  | nil => rfl
  | cons c t =>
    by_cases hc : c = '\r'
    · obtain ⟨d, hd, hnext⟩ := h.1 hc
      obtain ⟨u, rfl⟩ := List.head?_eq_some_iff.1 (by simpa using hnext)
      have hne : d ≠ '\r' := by rintro rfl; exact hS hd
      rw [hc, dropReturns_return_cons, dropReturns_cons hne] at hnil
      simp at hnil
    · rw [dropReturns_cons hc] at hnil
      simp at hnil

theorem returns_crlf {t : Text} (h : '\r' ∉ t) : Returns ['\n'] none (crlf t) := by
  induction t with
  | nil => trivial
  | cons c t ih =>
    rw [List.mem_cons, not_or] at h
    by_cases hc : c = '\n'
    · rw [hc, crlf_break_cons]
      exact ⟨fun _ => ⟨'\n', by simp, rfl⟩, fun hc => absurd hc (by decide), ih h.2⟩
    · rw [crlf_cons hc]
      exact ⟨fun hr => absurd hr.symm h.1, ih h.2⟩

/-! ## Finding what a text starts with -/

/-- A marker that has no return, and no character that returns stand before, is found at the start
of a text with returns exactly if it is found without them. -/
theorem isPrefixOf?_dropReturns (hS : '\r' ∉ S) {mark : Text} (hmark : ∀ c ∈ mark, c ≠ '\r' ∧ c ∉ S)
    {t : Text} (h : Returns S next t) :
    mark.isPrefixOf? (dropReturns t) = (mark.isPrefixOf? t).map dropReturns := by
  induction mark generalizing t with
  | nil => simp
  | cons m mark ih =>
    obtain ⟨hm, hmark⟩ := List.forall_mem_cons.1 hmark
    cases t with
    | nil => rfl
    | cons c t =>
      by_cases hc : c = '\r'
      · subst hc
        have hnone : (m :: mark).isPrefixOf? ('\r' :: t) = none := by
          simp [isPrefixOf?_cons_cons, hm.1]
        rw [hnone, dropReturns_return_cons]
        obtain ⟨d, hd, hnext⟩ := h.1 rfl
        cases t with
        | nil => rfl
        | cons e t =>
          obtain rfl : e = d := by simpa using hnext
          have hne : e ≠ '\r' := by rintro rfl; exact hS hd
          have hme : m ≠ e := by rintro rfl; exact hm.2 hd
          rw [dropReturns_cons hne]
          simp [isPrefixOf?_cons_cons, hme]
      · rw [dropReturns_cons hc, isPrefixOf?_cons_cons, isPrefixOf?_cons_cons]
        split
        · exact ih hmark h.2
        · rfl

theorem isPrefixOf?_return_cons {mark : Text} (hne : mark ≠ []) (hmark : '\r' ∉ mark) (t : Text) :
    mark.isPrefixOf? ('\r' :: t) = none := by
  obtain ⟨m, mark, rfl⟩ := List.exists_cons_of_ne_nil hne
  have hm : m ≠ '\r' := by rintro rfl; exact hmark List.mem_cons_self
  simp [isPrefixOf?_cons_cons, hm]

end Text

end MarkdownPreview

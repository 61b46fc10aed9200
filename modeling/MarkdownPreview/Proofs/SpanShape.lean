import MarkdownPreview.Markup.Delimited
import MarkdownPreview.Markup.Fence
import MarkdownPreview.Markup.Image
import MarkdownPreview.Markup.Link
import MarkdownPreview.Proofs.FirstMarker
import MarkdownPreview.Proofs.LineShape
/-!
# The shape of a span

What a rewriting reads and where. `Pattern.found` lists the spans of a text as they stand in it, and
each kind of span is pinned down by one statement on what it is made of. What follows about the
rewritings uses these and does not open the recognisers again.
-/

namespace MarkdownPreview

namespace Text.Pattern

variable {p : Pattern}

/-! ## Spans in a text -/

/-- The spans of a text as they stand in it, from left to right. -/
def found (p : Pattern) (t : Text) : List Text :=
  match _h : p.spanAt? t with
  | some (_, rest) => t.take (t.length - rest.length) :: p.found rest
  | none =>
    match t with
    | [] => []
    | _ :: t => p.found t
termination_by t.length
decreasing_by
  · exact p.length_lt ‹_›
  · exact Nat.lt_succ_self _

theorem found_of_spanAt? {t out read rest : Text} (h : p.spanAt? t = some (out, rest))
    (ht : t = read ++ rest) :
    p.found t = read :: p.found rest := by
  rw [found]
  split
  · next out' rest' h' =>
    rw [h] at h'
    simp only [Option.some.injEq, Prod.mk.injEq] at h'
    rw [← h'.2, ht]
    simp
  · next h' => simp [h] at h'

theorem found_cons {c : Char} {t : Text} (h : p.spanAt? (c :: t) = none) :
    p.found (c :: t) = p.found t := by
  rw [found]
  split
  · next h' => simp [h] at h'
  · rfl

theorem found_nil (p : Pattern) : p.found [] = [] := by
  rw [found]
  split
  · next h => simp [p.spanAt?_nil] at h
  · rfl

/-- The walk over a text, as an induction: a span is read, or a character is copied. -/
theorem walk_induction {P : Text → Prop} (nil : P [])
    (span : ∀ t out rest, p.spanAt? t = some (out, rest) → P rest → P t)
    (copy : ∀ c t, p.spanAt? (c :: t) = none → P t → P (c :: t)) (t : Text) : P t := by
  induction hn : t.length using Nat.strongRecOn generalizing t with
  | ind n ih =>
    cases hs : p.spanAt? t with
    | some s => exact span t s.1 s.2 hs (ih _ (by have := p.length_lt hs; omega) _ rfl)
    | none =>
      cases t with
      | nil => exact nil
      | cons c t => exact copy c t hs (ih _ (by simp at hn; omega) _ rfl)

/-- A text without a span is left alone. -/
theorem replace_eq_self_of_found_eq_nil {t : Text} (h : p.found t = []) : p.replace t = t := by
  induction t using walk_induction (p := p) with
  | nil => exact replace_nil p
  | span t out rest hs _ =>
    rw [found] at h
    split at h
    · simp at h
    · next h' => simp [hs] at h'
  | copy c t hs ih => rw [replace_cons hs, ih (by rwa [found_cons hs] at h)]

/-- Where no suffix of a text starts with a span, there is none in it. -/
theorem found_eq_nil {t : Text} (h : ∀ u, u <:+ t → p.spanAt? u = none) : p.found t = [] := by
  induction t with
  | nil => exact found_nil p
  | cons c t ih =>
    rw [found_cons (h _ (List.suffix_refl _))]
    exact ih fun u hu => h u (hu.trans (List.suffix_cons c t))

/-- Where there is no span, no suffix of the text starts with one. -/
theorem spanAt?_eq_none_of_suffix {t u : Text} (h : p.found t = []) (hu : u <:+ t) :
    p.spanAt? u = none := by
  induction t using walk_induction (p := p) with
  | nil => rw [List.suffix_nil.1 hu, p.spanAt?_nil]
  | span t out rest hs _ =>
    rw [found] at h
    split at h
    · simp at h
    · next h' => simp [hs] at h'
  | copy c t hs ih =>
    rcases List.suffix_cons_iff.1 hu with rfl | hu
    · exact hs
    · exact ih (by rwa [found_cons hs] at h) hu

/-- What a text with a span in it is rewritten to has what a span becomes in it. -/
theorem exists_infix_replace {t : Text} (h : p.found t ≠ []) :
    ∃ u out rest, p.spanAt? u = some (out, rest) ∧ out <:+: p.replace t := by
  induction t using walk_induction (p := p) with
  | nil => exact absurd (found_nil p) h
  | span t out rest hs _ =>
    refine ⟨t, out, rest, hs, ?_⟩
    rw [replace_of_spanAt? hs]
    exact (List.prefix_append _ _).isInfix
  | copy c t hs ih =>
    obtain ⟨u, out, rest, hu, hout⟩ := ih (by rwa [found_cons hs] at h)
    refine ⟨u, out, rest, hu, ?_⟩
    rw [replace_cons hs]
    exact hout.trans (List.suffix_cons _ _).isInfix

/-- A text that is written in one way whatever follows it is written so at the end, too. -/
theorem replace_of_append {read written : Text}
    (h : ∀ rest, p.replace (read ++ rest) = written ++ p.replace rest) : p.replace read = written := by
  have hend := h []
  rwa [List.append_nil, replace_nil, List.append_nil] at hend

/-- What no span starts in is copied. -/
theorem replace_append {s : Text} (hs : ∀ c ∈ s, ∀ t, p.spanAt? (c :: t) = none) (t : Text) :
    p.replace (s ++ t) = s ++ p.replace t := by
  induction s with
  | nil => rfl
  | cons c s ih =>
    rw [List.cons_append, replace_cons (hs c List.mem_cons_self _),
      ih fun c' hc' => hs c' (List.mem_cons_of_mem _ hc'), List.cons_append]

/-- Spans that are read from a text are parts of it. -/
theorem isInfix_of_mem_found
    (h : ∀ t out rest, p.spanAt? t = some (out, rest) → ∃ read, t = read ++ rest)
    {t read : Text} (hread : read ∈ p.found t) : read <:+: t := by
  induction t using walk_induction (p := p) with
  | nil => simp [found_nil] at hread
  | span t out rest hs ih =>
    obtain ⟨first, rfl⟩ := h t out rest hs
    rw [found_of_spanAt? hs rfl] at hread
    rcases List.mem_cons.1 hread with rfl | hread
    · exact (List.prefix_append _ _).isInfix
    · exact (ih hread).trans (List.suffix_append _ _).isInfix
  | copy c t hs ih =>
    rw [found_cons hs] at hread
    exact (ih hread).trans (List.suffix_cons c t).isInfix

/-- Spans that are read from a text are made of its characters. -/
theorem mem_of_mem_found (h : ∀ t out rest, p.spanAt? t = some (out, rest) → ∃ read, t = read ++ rest)
    {t read : Text} {a : Char} (hread : read ∈ p.found t) (ha : a ∈ read) : a ∈ t :=
  (isInfix_of_mem_found h hread).subset ha

/-- A character that no span brings in is in the rewritten text only if it was in the text. -/
theorem not_mem_replace {a : Char}
    (h : ∀ t out rest, p.spanAt? t = some (out, rest) → a ∉ t → a ∉ out ∧ a ∉ rest) (t : Text) :
    a ∉ t → a ∉ p.replace t := by
  induction t using walk_induction (p := p) with
  | nil => simp [replace_nil]
  | span t out rest hs ih =>
    intro ht
    obtain ⟨hout, hrest⟩ := h t out rest hs ht
    rw [replace_of_spanAt? hs, List.mem_append, not_or]
    exact ⟨hout, ih hrest⟩
  | copy c t hs ih =>
    intro ht
    rw [List.mem_cons, not_or] at ht
    rw [replace_cons hs, List.mem_cons, not_or]
    exact ⟨ht.1, ih ht.2⟩

end Text.Pattern

open Text

theorem not_mem_element {a : Char} {name body : Text} (ho : a ∉ openTag name)
    (hc : a ∉ closeTag name) (hb : a ∉ body) :
    a ∉ element name body := by
  simp only [element, List.mem_append, not_or]
  exact ⟨⟨ho, hb⟩, hc⟩

/-! ## Fenced code -/

theorem Fence.blockAt?_eq_some {t out rest : Text} (h : blockAt? t = some (out, rest)) :
    ∃ code, t = mark ++ code ++ mark ++ rest ∧ out = block code := by
  obtain ⟨inner, hi, h⟩ := Option.bind_eq_some_iff.1 h
  obtain ⟨⟨code, r⟩, hc, he⟩ := Option.map_eq_some_iff.1 h
  simp only [Prod.mk.injEq] at he
  refine ⟨code, ?_, he.1.symm⟩
  rw [eq_append_of_isPrefixOf? hi, eq_append_of_cut? hc, ← he.2]
  simp

/-- A text without a fence has no code block. -/
theorem Fence.codeBlocks_eq_self {t : Text} (h : ¬ mark <:+: t) : codeBlocks t = t := by
  apply Pattern.replace_eq_self_of_found_eq_nil
  apply Pattern.found_eq_nil
  intro u hu
  cases hs : blockAt? u with
  | none => exact hs
  | some span =>
    obtain ⟨code, rfl, -⟩ := blockAt?_eq_some hs
    refine absurd (List.IsInfix.trans ?_ hu.isInfix) h
    exact ⟨[], code ++ mark ++ span.2, by simp⟩

/-- A pair of fences takes six backticks. -/
theorem Fence.codeBlocks_eq_self_of_count {t : Text} (h : t.count '`' < 6) : codeBlocks t = t := by
  apply Pattern.replace_eq_self_of_found_eq_nil
  apply Pattern.found_eq_nil
  intro u hu
  cases hs : blockAt? u with
  | none => exact hs
  | some span =>
    obtain ⟨code, rfl, -⟩ := blockAt?_eq_some hs
    have hcount := hu.sublist.count_le '`'
    have hmark : mark.count '`' = 3 := by decide
    simp only [List.count_append, hmark] at hcount
    omega

theorem Fence.codeBlocks_eq_self_of_not_mem {t : Text} (h : '`' ∉ t) : codeBlocks t = t :=
  codeBlocks_eq_self_of_count (by rw [List.count_eq_zero.2 h]; decide)

/-! ## Delimited spans -/

namespace Delimited

theorem closing?_eq_some {mark t body rest : Text} (h : closing? mark t = some (body, rest)) :
    t = body ++ mark ++ rest ∧ '\n' ∉ body := by
  induction t generalizing body with
  | nil => simp [closing?] at h
  | cons c t ih =>
    simp only [closing?] at h
    split at h
    · next r hr =>
      simp only [Option.some.injEq, Prod.mk.injEq] at h
      rw [← h.1, ← h.2]
      simpa using eq_append_of_isPrefixOf? hr
    · split at h
      · simp at h
      · next hc =>
        obtain ⟨⟨b, r⟩, hb, he⟩ := Option.map_eq_some_iff.1 h
        simp only [Prod.mk.injEq] at he
        obtain ⟨rfl, rfl⟩ := he
        obtain ⟨h1, h2⟩ := ih hb
        exact ⟨by simp [h1], by simp [Ne.symm hc, h2]⟩

/-- A span is a delimiter, a body on one line, and the delimiter again, and where the style asks for
it the delimiter does not stand twice at the start. -/
theorem spanAt?_shape {s : Delimited} {t out rest : Text} (h : s.spanAt? t = some (out, rest)) :
    ∃ mark ∈ s.marks, ∃ body, t = mark ++ body ++ mark ++ rest ∧ out = s.write body ∧
      '\n' ∉ body ∧ (s.bodyMayStartWithMark = false → ¬ mark <+: body ++ mark ++ rest) := by
  obtain ⟨mark, hmark, hm⟩ := List.exists_of_findSome?_eq_some h
  obtain ⟨⟨body, r⟩, hb, he⟩ := Option.map_eq_some_iff.1 hm
  simp only [Prod.mk.injEq] at he
  obtain ⟨rfl, rfl⟩ := he
  obtain ⟨inner, hi, hb⟩ := Option.bind_eq_some_iff.1 hb
  rw [eq_append_of_isPrefixOf? hi]
  split at hb
  · simp at hb
  · next hstart =>
    cases inner with
    | nil => simp [body?] at hb
    | cons c inner =>
      simp only [body?] at hb
      split at hb
      · simp at hb
      · next hc =>
        obtain ⟨⟨b, r'⟩, hcl, he⟩ := Option.map_eq_some_iff.1 hb
        simp only [Prod.mk.injEq] at he
        obtain ⟨rfl, rfl⟩ := he
        obtain ⟨h1, h2⟩ := closing?_eq_some hcl
        refine ⟨mark, hmark, c :: b, by simp [h1], rfl, by simp [Ne.symm hc, h2], fun hstyle hp => ?_⟩
        rw [List.cons_append, List.cons_append, ← h1] at hp
        exact hstart ⟨hstyle, List.isPrefixOf_iff_prefix.2 hp⟩

/-- A span is a delimiter, a body on one line, and the delimiter again. -/
theorem spanAt?_eq_some {s : Delimited} {t out rest : Text} (h : s.spanAt? t = some (out, rest)) :
    ∃ mark ∈ s.marks, ∃ body, t = mark ++ body ++ mark ++ rest ∧ out = s.write body ∧
      '\n' ∉ body := by
  obtain ⟨mark, hmark, body, ht, hout, hbreak, -⟩ := spanAt?_shape h
  exact ⟨mark, hmark, body, ht, hout, hbreak⟩

theorem suffix_of_spanAt? {s : Delimited} {t out rest : Text} (h : s.spanAt? t = some (out, rest)) :
    rest <:+ t := by
  obtain ⟨mark, -, body, rfl, -⟩ := spanAt?_eq_some h
  exact List.suffix_append _ _

/-- A text in which no delimiter comes twice on a line has no span. -/
theorem found_eq_nil {s : Delimited} {t : Text}
    (h : ∀ mark ∈ s.marks, ∀ body, '\n' ∉ body → ¬ mark ++ body ++ mark <:+: t) :
    s.pattern.found t = [] := by
  apply Pattern.found_eq_nil
  intro u hu
  cases hs : s.spanAt? u with
  | none => exact hs
  | some span =>
    obtain ⟨mark, hmark, body, rfl, -, hbody⟩ := spanAt?_eq_some hs
    exact absurd ((List.prefix_append _ _).isInfix.trans hu.isInfix) (h mark hmark body hbody)

/-- A character that a style does not write is in a formatted text only if it was in the text. -/
theorem not_mem_format {s : Delimited} {a : Char} (h : ∀ body, a ∉ body → a ∉ s.write body)
    {t : Text} (ht : a ∉ t) :
    a ∉ s.format t := by
  refine Pattern.not_mem_replace (fun t out rest hs ht => ?_) t ht
  obtain ⟨mark, -, body, rfl, rfl, -⟩ := spanAt?_eq_some hs
  simp only [List.mem_append, not_or] at ht
  exact ⟨h body ht.1.1.2, ht.2⟩

end Delimited

/-! ## References -/

namespace Image

/-- How an image ends: with `)`, or with blanks, a title in quotes and `)`. -/
inductive Ending : Option Text → Text → Prop
  | plain : Ending none [')']
  | titled {blanks title : Text} : blanks ≠ [] → (∀ c ∈ blanks, isBlank c = true) →
    Ending (some title) (blanks ++ '"' :: title ++ ['"', ')'])

theorem Ending.getLast? {title : Option Text} {e : Text} (h : Ending title e) :
    e.getLast? = some ')' := by
  cases h with
  | plain => rfl
  | titled => rw [List.getLast?_append]; rfl

theorem title?_eq_some {t title rest : Text} (h : title? t = some (title, rest)) :
    ∃ blanks, blanks ≠ [] ∧ (∀ c ∈ blanks, isBlank c = true) ∧
      t = blanks ++ '"' :: title ++ ['"', ')'] ++ rest := by
  have ht := List.takeWhile_append_dropWhile (p := isBlank) (l := t)
  simp only [title?] at h
  split at h
  · next quoted hblanks hquoted =>
    have hq := List.takeWhile_append_dropWhile (p := (· != '"')) (l := quoted)
    split at h
    · next htitle hrest =>
      simp only [Option.some.injEq, Prod.mk.injEq] at h
      refine ⟨t.takeWhile isBlank, by simp [hblanks], fun c hc => List.mem_takeWhile_imp hc, ?_⟩
      rw [htitle, hrest] at hq
      rw [hquoted] at ht
      generalize t.takeWhile isBlank = blanks at ht
      rw [← h.1, ← h.2, ← ht, ← hq]
      simp
    · simp at h
  · simp at h

theorem ending?_eq_some {t rest : Text} {title : Option Text} (h : ending? t = some (title, rest)) :
    ∃ e, Ending title e ∧ t = e ++ rest := by
  simp only [ending?] at h
  split at h
  · next ht =>
    simp only [Option.some.injEq, Prod.mk.injEq] at h
    obtain ⟨blanks, hne, hb, he⟩ := title?_eq_some ht
    rw [← h.1, ← h.2]
    exact ⟨_, .titled hne hb, he⟩
  · obtain ⟨r, hr, he⟩ := Option.map_eq_some_iff.1 h
    simp only [Prod.mk.injEq] at he
    rw [← he.1, ← he.2]
    exact ⟨[')'], .plain, eq_append_of_isPrefixOf? hr⟩

theorem source?_eq_some {t source rest : Text} {title : Option Text}
    (h : source? t = some (source, title, rest)) :
    ∃ e, Ending title e ∧ t = source ++ e ++ rest := by
  induction t generalizing source with
  | nil => simp [source?] at h
  | cons c t ih =>
    simp only [source?] at h
    split at h
    · simp at h
    · split at h
      · next he =>
        simp only [Option.some.injEq, Prod.mk.injEq] at h
        obtain ⟨e, hend, ht⟩ := ending?_eq_some he
        rw [← h.1, ← h.2.1, ← h.2.2]
        exact ⟨e, hend, by simp [ht]⟩
      · obtain ⟨⟨s, ti, r⟩, hs, he⟩ := Option.map_eq_some_iff.1 h
        simp only [Prod.mk.injEq] at he
        obtain ⟨rfl, rfl, rfl⟩ := he
        obtain ⟨e, hend, ht⟩ := ih hs
        exact ⟨e, hend, by simp [ht]⟩

/-- An image is `![`, its alternative text, `](`, its source, and its ending. -/
theorem ofText?_eq_some {t rest : Text} {i : Image} (h : ofText? t = some (i, rest)) :
    ∃ e, Ending i.title e ∧ t = '!' :: '[' :: i.alt ++ ']' :: '(' :: i.source ++ e ++ rest := by
  obtain ⟨inner, hi, h⟩ := Option.bind_eq_some_iff.1 h
  obtain ⟨target, ht, h⟩ := Option.bind_eq_some_iff.1 h
  obtain ⟨⟨s, ti, r⟩, hs, he⟩ := Option.map_eq_some_iff.1 h
  simp only [Prod.mk.injEq] at he
  obtain ⟨e, hend, htarget⟩ := source?_eq_some hs
  have hinner := List.takeWhile_append_dropWhile (p := (· != ']')) (l := inner)
  rw [eq_append_of_isPrefixOf? ht, htarget] at hinner
  refine ⟨e, by rw [← he.1]; exact hend, ?_⟩
  rw [eq_append_of_isPrefixOf? hi, ← he.1, ← he.2]
  generalize inner.takeWhile (· != ']') = alt at hinner
  rw [← hinner]
  simp

end Image

/-- A link is `[`, its text, `](`, its address, and `)`. -/
theorem Link.ofText?_eq_some {t rest : Text} {l : Link} (h : ofText? t = some (l, rest)) :
    t = '[' :: l.text ++ ']' :: '(' :: l.url ++ ')' :: rest := by
  obtain ⟨inner, hi, h⟩ := Option.bind_eq_some_iff.1 h
  obtain ⟨target, ht, h⟩ := Option.bind_eq_some_iff.1 h
  obtain ⟨r, hr, h⟩ := Option.bind_eq_some_iff.1 h
  dsimp only at h
  split at h
  · simp at h
  · simp only [Option.some.injEq, Prod.mk.injEq] at h
    have hinner := List.takeWhile_append_dropWhile (p := (· != ']')) (l := inner)
    have htarget := List.takeWhile_append_dropWhile (p := (· != ')')) (l := target)
    rw [eq_append_of_isPrefixOf? hr] at htarget
    rw [eq_append_of_isPrefixOf? ht] at hinner
    rw [eq_append_of_isPrefixOf? hi, ← h.1, ← h.2]
    generalize inner.takeWhile (· != ']') = text at hinner
    generalize target.takeWhile (· != ')') = url at htarget
    rw [← hinner, ← htarget]
    simp

/-- A link starts with a bracket, so a text without one is copied. -/
theorem Link.links_append {s : Text} (hs : '[' ∉ s) (rest : Text) :
    links (s ++ rest) = s ++ links rest := by
  refine Pattern.replace_append ?_ rest
  intro c hc t
  have hne : c ≠ '[' := ne_of_mem_of_not_mem hc hs
  simp [pattern, ofText?, isPrefixOf?_cons_cons, Ne.symm hne]

end MarkdownPreview

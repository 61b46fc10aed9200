import Mathlib.Data.List.Infix
import MarkdownPreview.Proofs.BlankLine
import MarkdownPreview.Proofs.Returns
/-!
# Rewritings and carriage returns

No rewriting looks at a return, and a return stands before no character that a span starts with, so
a span is found with returns in the text where it is found without them, and ends where it ends.
What is written for it differs by returns only (`replace_dropReturns`). There is one exception: the
source of an image has at least one character, whatever it is, and a return between the bracket and
a break is one; so a break may not come right after the bracket.
-/

namespace MarkdownPreview

open Text

/-! ## Walks -/

namespace Text.Pattern

variable {p : Pattern} {P : Text → Prop} {S S' : List Char}

/-- If spans are found alike with returns and without, a text is rewritten alike. `P` is what is
known of the text that is still to be read. -/
theorem replace_dropReturns (hP : ∀ t u, P t → u <:+ t → P u)
    (hspan : ∀ t, P t → p.spanAt? (dropReturns t) =
      (p.spanAt? t).map fun (out, rest) => (dropReturns out, dropReturns rest))
    (hrest : ∀ t out rest, p.spanAt? t = some (out, rest) → rest <:+ t) {t : Text} (ht : P t) :
    p.replace (dropReturns t) = dropReturns (p.replace t) := by
  induction t using walk_induction (p := p) with
  | nil => rw [dropReturns_nil, replace_nil, dropReturns_nil]
  | span t out rest hs ih =>
    have hs' := hspan t ht
    rw [hs, Option.map_some] at hs'
    rw [replace_of_spanAt? hs', replace_of_spanAt? hs, dropReturns_append,
      ih (hP t rest ht (hrest t out rest hs))]
  | copy c t hs ih =>
    have ih := ih (hP (c :: t) t ht (List.suffix_cons c t))
    have hs' := hspan (c :: t) ht
    rw [hs, Option.map_none] at hs'
    rw [replace_cons hs]
    by_cases hc : c = '\r'
    · rw [hc, dropReturns_return_cons, dropReturns_return_cons, ih]
    · rw [dropReturns_cons hc] at hs' ⊢
      rw [replace_cons hs', dropReturns_cons hc, ih]

/-- Where returns stand in a rewritten text. -/
theorem returns_replace (hP : ∀ t u, P t → u <:+ t → P u) (hreturns : ∀ t, P t → Returns S none t)
    (hS : S ⊆ S') (hsoft : ∀ c ∈ S, ∀ t, p.spanAt? (c :: t) = none)
    (hrest : ∀ t out rest, p.spanAt? t = some (out, rest) → rest <:+ t)
    (hout : ∀ t out rest, P t → p.spanAt? t = some (out, rest) → Returns S' none out) {t : Text}
    (ht : P t) : Returns S' none (p.replace t) := by
  induction t using walk_induction (p := p) with
  | nil => rw [replace_nil]; trivial
  | span t out rest hs ih =>
    rw [replace_of_spanAt? hs]
    exact (hout t out rest ht hs).append (ih (hP t rest ht (hrest t out rest hs)))
  | copy c t hs ih =>
    rw [replace_cons hs]
    refine ⟨fun hc => ?_, ih (hP (c :: t) t ht (List.suffix_cons c t))⟩
    obtain ⟨d, hd, hnext⟩ := (hreturns _ ht).1 hc
    obtain ⟨u, rfl⟩ := List.head?_eq_some_iff.1 (by simpa using hnext)
    rw [replace_cons (hsoft d hd u)]
    exact ⟨d, hS hd, rfl⟩

end Text.Pattern

/-! ## Encoded text -/

namespace Entity

theorem return_not_mem_ofChar {c : Char} (hc : c ≠ '\r') : '\r' ∉ ofChar c := by
  unfold ofChar
  split
  · next e _ => cases e <;> decide
  · simpa using Ne.symm hc

theorem dropReturns_encode (t : Text) : dropReturns (encode t) = encode (dropReturns t) := by
  induction t with
  | nil => rfl
  | cons c t ih =>
    rw [encode_cons, dropReturns_append, ih]
    by_cases hc : c = '\r'
    · subst hc
      rfl
    · rw [dropReturns_eq_self (return_not_mem_ofChar hc), dropReturns_cons hc, encode_cons]

theorem return_not_mem_encode {t : Text} (h : '\r' ∉ t) : '\r' ∉ encode t := by
  rw [← dropReturns_eq_self h, ← dropReturns_encode]
  exact return_not_mem_dropReturns _

/-- A return before a reserved character comes to stand before its entity. -/
theorem returns_encode {S S' : List Char} (hS : ∀ d ∈ S, ∃ e ∈ S', (ofChar d).head? = some e) {t : Text}
    (h : Returns S none t) : Returns S' none (encode t) := by
  induction t with
  | nil => trivial
  | cons c t ih =>
    rw [encode_cons]
    refine returns_append.2 ⟨?_, ih h.2⟩
    by_cases hc : c = '\r'
    · obtain ⟨d, hd, hnext⟩ := h.1 hc
      obtain ⟨u, rfl⟩ := List.head?_eq_some_iff.1 (by simpa using hnext)
      obtain ⟨e, he, hhead⟩ := hS d hd
      subst hc
      exact ⟨fun _ => ⟨e, he, by simp [encode_cons, List.head?_append, hhead]⟩, trivial⟩
    · exact returns_of_not_mem (return_not_mem_ofChar hc)

end Entity

/-! ## Fenced code -/

theorem Entity.encode_crlf (t : Text) : encode (crlf t) = crlf (encode t) := by
  have hbreak : ∀ c, c ≠ '\n' → '\n' ∉ ofChar c := by
    intro c hc
    unfold ofChar
    split
    · next e _ => cases e <;> decide
    · simpa using Ne.symm hc
  induction t with
  | nil => rfl
  | cons c t ih =>
    by_cases hc : c = '\n'
    · subst hc
      rw [crlf_break_cons, encode_cons, encode_cons, encode_cons, crlf_append, ih]
      rfl
    · rw [crlf_cons hc, encode_cons, encode_cons, crlf_append, ih, crlf_eq_self (hbreak c hc)]

namespace Fence

theorem isPrefixOf?_mark_crlf (t : Text) : mark.isPrefixOf? (crlf t) = (mark.isPrefixOf? t).map crlf := by
  have hmark : ∀ c ∈ mark, c ≠ '\n' ∧ c ≠ '\r' := by decide
  revert hmark t
  induction mark with
  | nil => simp
  | cons m mark ih =>
    intro t hmark
    obtain ⟨hm, hmark⟩ := List.forall_mem_cons.1 hmark
    cases t with
    | nil => rfl
    | cons c t =>
      by_cases hc : c = '\n'
      · rw [hc, crlf_break_cons, isPrefixOf?_cons_cons, isPrefixOf?_cons_cons]
        simp [hm]
      · rw [crlf_cons hc, isPrefixOf?_cons_cons, isPrefixOf?_cons_cons]
        split
        · exact ih t hmark
        · rfl

theorem isPrefixOf?_mark_of_ne {c : Char} (hc : c ≠ '`') (t : Text) : mark.isPrefixOf? (c :: t) = none := by
  rw [show mark = '`' :: ['`', '`'] from rfl, isPrefixOf?_cons_cons]
  simp [Ne.symm hc]

theorem cut?_crlf (t : Text) :
    cut? mark (crlf t) = (cut? mark t).map fun (before, rest) => (crlf before, crlf rest) := by
  induction t with
  | nil => rfl
  | cons c t ih =>
    by_cases hc : c = '\n'
    · rw [hc, crlf_break_cons, cut?, cut?, cut?, isPrefixOf?_mark_of_ne (by decide),
        isPrefixOf?_mark_of_ne (by decide), isPrefixOf?_mark_of_ne (by decide), ih]
      cases cut? mark t with
      | none => rfl
      | some cut => rfl
    · have hopen := isPrefixOf?_mark_crlf (c :: t)
      rw [crlf_cons hc] at hopen ⊢
      rw [cut?, cut?, hopen]
      cases mark.isPrefixOf? (c :: t) with
      | some rest => rfl
      | none =>
        simp only [Option.map_none, ih]
        cases cut? mark t with
        | none => rfl
        | some cut => simp [crlf_cons hc]

/-- The break a block of code starts with is dropped as a whole. -/
theorem dropFirstBreak_crlf {t : Text} (h : '\r' ∉ t) :
    dropFirstBreak (crlf t) = crlf (dropFirstBreak t) := by
  cases t with
  | nil => rfl
  | cons c t =>
    by_cases hc : c = '\n'
    · rw [hc]
      rfl
    · rw [List.mem_cons, not_or] at h
      have hself : ∀ u, dropFirstBreak (c :: u) = c :: u := by
        intro u
        simp [dropFirstBreak, isPrefixOf?_cons_cons, h.1, Ne.symm hc]
      rw [crlf_cons hc, hself, hself, crlf_cons hc]

theorem dropLastBreak_concat {c : Char} (hc : c ≠ '\n') (t : Text) :
    dropLastBreak (t ++ [c]) = t ++ [c] := by
  simp [dropLastBreak, List.isSuffixOf?, isPrefixOf?_cons_cons, Ne.symm hc]

theorem dropLastBreak_break {t : Text} (h : '\r' ∉ t) : dropLastBreak (t ++ ['\n']) = t := by
  have hcrlf : ['\n', '\r'].isPrefixOf? ('\n' :: t.reverse) = none := by
    rcases List.eq_nil_or_concat t with rfl | ⟨u, c, rfl⟩
    · rfl
    · have hc : '\r' ≠ c := by
        rintro rfl
        simp at h
      simp [isPrefixOf?_cons_cons, hc]
  simp [dropLastBreak, List.isSuffixOf?, hcrlf, isPrefixOf?_cons_cons]

/-- So is the break it ends with. -/
theorem dropLastBreak_crlf {t : Text} (h : '\r' ∉ t) :
    dropLastBreak (crlf t) = crlf (dropLastBreak t) := by
  rcases List.eq_nil_or_concat t with rfl | ⟨u, c, rfl⟩
  · rfl
  · rw [List.concat_eq_append] at h ⊢
    by_cases hc : c = '\n'
    · have hbreak : dropLastBreak (crlf u ++ ['\r', '\n']) = crlf u := by
        simp [dropLastBreak, List.isSuffixOf?, isPrefixOf?_cons_cons]
      rw [hc, crlf_append, dropLastBreak_break fun hm => h (by simp [hm])]
      exact hbreak
    · rw [crlf_append, crlf_cons hc, crlf_nil, dropLastBreak_concat hc, dropLastBreak_concat hc,
        crlf_append, crlf_cons hc, crlf_nil]

theorem block_crlf {code : Text} (h : '\r' ∉ code) : block (crlf code) = crlf (block code) := by
  have hfirst : '\r' ∉ dropFirstBreak code := fun hm => h (mem_of_mem_dropFirstBreak hm)
  have helement : ∀ name body, '\n' ∉ name → crlf (element name body) = element name (crlf body) := by
    intro name body hname
    have hopen : '\n' ∉ openTag name := by simp [openTag, hname]
    have hclose : '\n' ∉ closeTag name := by simp [closeTag, hname]
    rw [element, crlf_append, crlf_append, crlf_eq_self hopen, crlf_eq_self hclose, element]
  rw [block, block, helement _ _ (by decide), helement _ _ (by decide), dropFirstBreak_crlf h,
    dropLastBreak_crlf hfirst, Entity.encode_crlf]

theorem blockAt?_crlf {t : Text} (h : '\r' ∉ t) :
    blockAt? (crlf t) = (blockAt? t).map fun (out, rest) => (crlf out, crlf rest) := by
  rw [blockAt?, blockAt?, isPrefixOf?_mark_crlf]
  cases hi : mark.isPrefixOf? t with
  | none => rfl
  | some inner =>
    simp only [Option.map_some, Option.bind_some, cut?_crlf]
    cases hc : cut? mark inner with
    | none => rfl
    | some cut =>
      obtain ⟨code, rest⟩ := cut
      have hcode : '\r' ∉ code := by
        rw [eq_append_of_isPrefixOf? hi, eq_append_of_cut? hc] at h
        simp only [List.mem_append, not_or] at h
        exact h.2.1.1
      simp [block_crlf hcode]

/-- A return in front of every break stays where it is, in code blocks too. -/
theorem codeBlocks_crlf {t : Text} (h : '\r' ∉ t) : codeBlocks (crlf t) = crlf (codeBlocks t) := by
  unfold codeBlocks
  induction t using Pattern.walk_induction (p := pattern) with
  | nil => rw [crlf_nil, Pattern.replace_nil, crlf_nil]
  | span t out rest hs ih =>
    have hs' : pattern.spanAt? (crlf t) = some (crlf out, crlf rest) := by
      rw [show pattern.spanAt? (crlf t) = blockAt? (crlf t) from rfl, blockAt?_crlf h,
        show blockAt? t = some (out, rest) from hs]
      rfl
    obtain ⟨code, rfl, -⟩ := blockAt?_eq_some hs
    rw [Pattern.replace_of_spanAt? hs', Pattern.replace_of_spanAt? hs, crlf_append,
      ih fun hm => h (List.mem_append_right _ hm)]
  | copy c t hs ih =>
    have hs' := blockAt?_crlf h
    rw [show blockAt? (c :: t) = none from hs, Option.map_none] at hs'
    have ih := ih fun hm => h (List.mem_cons_of_mem _ hm)
    rw [Pattern.replace_cons hs]
    by_cases hc : c = '\n'
    · have hbreak : blockAt? ('\n' :: crlf t) = none := by
        rw [blockAt?, isPrefixOf?_mark_of_ne (by decide)]
        rfl
      rw [hc, crlf_break_cons] at hs' ⊢
      rw [Pattern.replace_cons hs', Pattern.replace_cons hbreak, ih, crlf_break_cons]
    · rw [crlf_cons hc] at hs' ⊢
      rw [Pattern.replace_cons hs', ih, crlf_cons hc]

theorem return_not_mem_codeBlocks {t : Text} (h : '\r' ∉ t) : '\r' ∉ codeBlocks t :=
  not_mem_codeBlocks (fun _ => Entity.return_not_mem_encode) (by decide) h

end Fence

/-! ## Delimited spans -/

namespace Delimited

variable {S S' : List Char} {mark : Text}

theorem closing?_dropReturns (hS : '\r' ∉ S) (hne : mark ≠ [])
    (hmark : ∀ c ∈ mark, c ≠ '\r' ∧ c ∉ S) {next : Option Char} {t : Text} (h : Returns S next t) :
    closing? mark (dropReturns t) =
      (closing? mark t).map fun (body, rest) => (dropReturns body, dropReturns rest) := by
  induction t with
  | nil => rfl
  | cons c t ih =>
    have hopen := isPrefixOf?_dropReturns hS hmark h
    rw [closing?]
    by_cases hc : c = '\r'
    · subst hc
      have hnone := isPrefixOf?_return_cons hne (fun hm => (hmark _ hm).1 rfl) t
      rw [hnone, dropReturns_return_cons, ih h.2, if_neg (by decide)]
      cases closing? mark t <;> rfl
    · rw [dropReturns_cons hc] at hopen ⊢
      rw [closing?, hopen]
      cases mark.isPrefixOf? (c :: t) with
      | some rest => rfl
      | none =>
        simp only [Option.map_none, ih h.2]
        split
        · rfl
        · cases closing? mark t with
          | none => rfl
          | some closing => simp [dropReturns_cons hc]

/-- The first character of a body may be a return, and then the one after it would do as well: it is
no delimiter, and if it is a break there is no body either way. -/
theorem body?_dropReturns (hS : '\r' ∉ S) (hne : mark ≠ [])
    (hmark : ∀ c ∈ mark, c ≠ '\r' ∧ c ∉ S) {t : Text} (h : Returns S none t) :
    body? mark (dropReturns t) =
      (body? mark t).map fun (body, rest) => (dropReturns body, dropReturns rest) := by
  cases t with
  | nil => rfl
  | cons c t =>
    have hclosing := closing?_dropReturns hS hne hmark h.2
    by_cases hc : c = '\r'
    · obtain ⟨d, hd, hnext⟩ := h.1 hc
      obtain ⟨u, rfl⟩ := List.head?_eq_some_iff.1 (by simpa using hnext)
      have hreturn : d ≠ '\r' := by rintro rfl; exact hS hd
      have hnone : mark.isPrefixOf? (d :: u) = none := by
        obtain ⟨m, mark, rfl⟩ := List.exists_cons_of_ne_nil hne
        have hm : m ≠ d := by rintro rfl; exact (hmark _ List.mem_cons_self).2 hd
        simp [isPrefixOf?_cons_cons, hm]
      have hclosing' := closing?_dropReturns hS hne hmark h.2.2
      subst hc
      rw [dropReturns_return_cons, dropReturns_cons hreturn, body?, hclosing', body?,
        if_neg (show ¬ '\r' = '\n' by decide), closing?, hnone]
      by_cases hlf : d = '\n'
      · simp only [hlf, if_true]
        rfl
      · simp only [hlf, if_false]
        cases closing? mark u with
        | none => rfl
        | some closing => simp [dropReturns_cons hreturn]
    · rw [dropReturns_cons hc, body?, body?, hclosing]
      split
      · rfl
      · cases closing? mark t with
        | none => rfl
        | some closing => simp [dropReturns_cons hc]

/-- The delimiters of a style have nothing to do with returns, and no more has what is written. -/
structure IgnoresReturns (s : Delimited) (S : List Char) : Prop where
  mark : ∀ mark ∈ s.marks, mark ≠ [] ∧ ∀ c ∈ mark, c ≠ '\r' ∧ c ∉ S
  write : ∀ body, dropReturns (s.write body) = s.write (dropReturns body)

variable {s : Delimited}

theorem bodyAt?_dropReturns (hS : '\r' ∉ S) (hne : mark ≠ [])
    (hmark : ∀ c ∈ mark, c ≠ '\r' ∧ c ∉ S) {t : Text} (h : Returns S none t) :
    s.bodyAt? mark (dropReturns t) =
      (s.bodyAt? mark t).map fun (body, rest) => (dropReturns body, dropReturns rest) := by
  rw [bodyAt?, bodyAt?, isPrefixOf?_dropReturns hS hmark h]
  cases hi : mark.isPrefixOf? t with
  | none => rfl
  | some inner =>
    rw [eq_append_of_isPrefixOf? hi] at h
    have hinner := h.of_suffix (List.suffix_append mark inner)
    have hbody := body?_dropReturns hS hne hmark hinner
    simp only [Option.map_some, Option.bind_some, ← List.isSome_isPrefixOf?_eq_isPrefixOf,
      isPrefixOf?_dropReturns hS hmark hinner, Option.isSome_map, hbody]
    split <;> rfl

theorem spanAt?_dropReturns (hS : '\r' ∉ S) (hs : s.IgnoresReturns S) {t : Text}
    (h : Returns S none t) :
    s.spanAt? (dropReturns t) =
      (s.spanAt? t).map fun (out, rest) => (dropReturns out, dropReturns rest) := by
  unfold spanAt?
  rw [List.map_findSome?]
  have hmarks := hs.mark
  revert hmarks
  induction s.marks with
  | nil => intro _; rfl
  | cons mark marks ih =>
    intro hmarks
    obtain ⟨⟨hne, hmark⟩, hmarks⟩ := List.forall_mem_cons.1 hmarks
    rw [List.findSome?_cons, List.findSome?_cons, ih hmarks, bodyAt?_dropReturns hS hne hmark h]
    simp only [Function.comp_apply]
    cases s.bodyAt? mark t with
    | none => rfl
    | some body => simp [hs.write]

theorem format_dropReturns (hS : '\r' ∉ S) (hs : s.IgnoresReturns S) {t : Text}
    (h : Returns S none t) : s.format (dropReturns t) = dropReturns (s.format t) :=
  Pattern.replace_dropReturns (P := Returns S none) (fun _ _ ht hu => ht.of_suffix hu)
    (fun _ ht => spanAt?_dropReturns hS hs ht) (fun _ _ _ => suffix_of_spanAt?) h

theorem returns_format (hS : S ⊆ S') (hs : s.IgnoresReturns S)
    (hwrite : ∀ body, Returns S none body → Returns S' none (s.write body)) {t : Text}
    (h : Returns S none t) : Returns S' none (s.format t) := by
  refine Pattern.returns_replace (P := Returns S none) (fun _ _ ht hu => ht.of_suffix hu)
    (fun _ ht => ht) hS ?_ (fun _ _ _ => suffix_of_spanAt?) ?_ h
  · intro c hc t
    cases hspan : s.spanAt? (c :: t) with
    | none => exact hspan
    | some span =>
      obtain ⟨mark, hm, body, ht, -, -⟩ := spanAt?_eq_some hspan
      obtain ⟨hne, hmark⟩ := hs.mark mark hm
      obtain ⟨m, mark, rfl⟩ := List.exists_cons_of_ne_nil hne
      rw [(List.cons.inj ht).1] at hc
      exact absurd hc (hmark m List.mem_cons_self).2
  · intro t out rest ht hspan
    obtain ⟨mark, hm, body, rfl, rfl, -⟩ := spanAt?_eq_some hspan
    obtain ⟨hne, hmark⟩ := hs.mark mark hm
    obtain ⟨m, mark, rfl⟩ := List.exists_cons_of_ne_nil hne
    rw [List.append_assoc, List.append_assoc] at ht
    exact hwrite body ((ht.of_suffix (List.suffix_append _ _)).left (hmark m List.mem_cons_self).2)

theorem ignoresReturns_strong : strong.IgnoresReturns ['\n', '<'] :=
  ⟨by decide, fun body => dropReturns_element (by decide) body⟩

theorem ignoresReturns_emphasis : emphasis.IgnoresReturns ['\n', '<'] :=
  ⟨by decide, fun body => dropReturns_element (by decide) body⟩

theorem ignoresReturns_code : code.IgnoresReturns ['\n', '<'] :=
  ⟨by decide, fun body => by
    simp only [code]
    rw [dropReturns_element (by decide), Entity.dropReturns_encode]⟩

theorem inlineFormats_dropReturns {t : Text} (h : Returns ['\n', '<'] none t) :
    inlineFormats (dropReturns t) = dropReturns (inlineFormats t) ∧
      Returns ['\n', '<', '&'] none (inlineFormats t) := by
  have hstrong := returns_format (List.Subset.refl _) ignoresReturns_strong
    (fun body hb => hb.element (by decide)) h
  have hem := returns_format (List.Subset.refl _) ignoresReturns_emphasis
    (fun body hb => hb.element (by decide)) hstrong
  have hcode : Returns ['\n', '<', '&'] none (code.format (emphasis.format (strong.format t))) :=
    returns_format (by decide) ignoresReturns_code
      (fun body hb => (Entity.returns_encode (by decide) hb).element (by decide)) hem
  refine ⟨?_, hcode⟩
  unfold inlineFormats
  rw [format_dropReturns (by decide) ignoresReturns_strong h,
    format_dropReturns (by decide) ignoresReturns_emphasis hstrong,
    format_dropReturns (by decide) ignoresReturns_code hem]

end Delimited

/-! ## Images -/

namespace Image

/-- Before images are read, returns stand before breaks and before tags. -/
abbrev Loose (t : Text) : Prop := Returns ['\n', '<'] none t

theorem isPrefixOf?_loose {mark : Text} (hmark : ∀ c ∈ mark, c ≠ '\r' ∧ c ∉ ['\n', '<']) {t : Text}
    (h : Loose t) : mark.isPrefixOf? (dropReturns t) = (mark.isPrefixOf? t).map dropReturns :=
  isPrefixOf?_dropReturns (by decide) hmark h

/-- The title a text starts with, read marker by marker. -/
theorem title?_eq (t : Text) : title? t =
    (['"'].isPrefixOf? (t.dropWhile isBlank)).bind fun quoted =>
      (['"', ')'].isPrefixOf? (quoted.dropWhile (· != '"'))).bind fun rest =>
        if t.takeWhile isBlank = [] ∨ quoted.takeWhile (· != '"') = [] then none
        else some (quoted.takeWhile (· != '"'), rest) := by
  unfold title?
  cases t.dropWhile isBlank with
  | nil => cases t.takeWhile isBlank <;> rfl
  | cons c quoted =>
    by_cases hc : c = '"'
    · subst hc
      have hopen := isPrefixOf?_append ['"'] quoted
      rw [List.singleton_append] at hopen
      rw [hopen, Option.bind_some]
      cases t.takeWhile isBlank with
      | nil => cases ['"', ')'].isPrefixOf? (quoted.dropWhile (· != '"')) <;> simp
      | cons b blanks =>
        split
        · next quoted' _ hquoted =>
          rw [← (List.cons.inj hquoted).2]
          generalize quoted.takeWhile (· != '"') = title
          generalize quoted.dropWhile (· != '"') = close
          split
          · simp [isPrefixOf?_cons_cons]
          · next hne =>
            cases title with
            | nil => cases ['"', ')'].isPrefixOf? close <;> simp
            | cons d title =>
              cases hr : ['"', ')'].isPrefixOf? close with
              | none => rfl
              | some rest => exact absurd (eq_append_of_isPrefixOf? hr) (hne d title rest rfl)
        · next hne => exact absurd rfl (hne b blanks quoted rfl)
    · have hopen : ['"'].isPrefixOf? (c :: quoted) = none := by
        simp [isPrefixOf?_cons_cons, Ne.symm hc]
      rw [hopen, Option.bind_none]
      cases t.takeWhile isBlank with
      | nil => rfl
      | cons b blanks => simp [hc]

theorem title?_dropReturns {t : Text} (h : Loose t) :
    title? (dropReturns t) =
      (title? t).map fun (title, rest) => (dropReturns title, dropReturns rest) := by
  have hafter : Loose (t.dropWhile isBlank) := h.of_suffix (List.dropWhile_suffix _)
  rw [title?_eq, title?_eq, dropWhile_dropReturns (by decide), takeWhile_dropReturns (by decide),
    isPrefixOf?_loose (by decide) hafter]
  cases hq : ['"'].isPrefixOf? (t.dropWhile isBlank) with
  | none => rfl
  | some quoted =>
    have hblanks := h.takeWhile (eq_append_of_isPrefixOf? hq) (by decide)
    rw [eq_append_of_isPrefixOf? hq] at hafter
    have hquoted : Loose quoted := hafter.2
    have hclose : Loose (quoted.dropWhile (· != '"')) := hquoted.of_suffix (List.dropWhile_suffix _)
    simp only [Option.map_some, Option.bind_some]
    rw [dropWhile_dropReturns (by decide), takeWhile_dropReturns (by decide),
      isPrefixOf?_loose (by decide) hclose]
    cases hr : ['"', ')'].isPrefixOf? (quoted.dropWhile (· != '"')) with
    | none => rfl
    | some rest =>
      have htitle := hquoted.takeWhile (eq_append_of_isPrefixOf? hr) (by decide)
      simp only [Option.map_some, Option.bind_some, hblanks.dropReturns_eq_nil_iff (by decide),
        htitle.dropReturns_eq_nil_iff (by decide)]
      split <;> rfl

theorem title?_return_cons {t : Text} {x : Text × Text} (h : title? t = some x) :
    title? ('\r' :: t) = some x := by
  rw [title?_eq] at h ⊢
  rw [List.dropWhile_cons_of_pos (by decide), List.takeWhile_cons_of_pos (by decide)]
  obtain ⟨quoted, hq, h⟩ := Option.bind_eq_some_iff.1 h
  obtain ⟨rest, hr, h⟩ := Option.bind_eq_some_iff.1 h
  split at h
  · simp at h
  · next hne =>
    rw [hq, Option.bind_some, hr, Option.bind_some, if_neg (by simpa using fun hnil => hne (Or.inr hnil)), h]

theorem ending?_dropReturns {t : Text} (h : Loose t) :
    ending? (dropReturns t) =
      (ending? t).map fun (title, rest) => (title.map dropReturns, dropReturns rest) := by
  rw [ending?, ending?, title?_dropReturns h, isPrefixOf?_loose (by decide) h]
  cases title? t with
  | some title => rfl
  | none => cases [')'].isPrefixOf? t <;> rfl

/-- No ending starts with a tag, and one that starts with a break also starts at a return before
it. -/
theorem ending?_of_return_cons {t : Text} (h : Loose ('\r' :: t)) (hnone : ending? ('\r' :: t) = none) :
    ending? t = none := by
  obtain ⟨d, hd, hnext⟩ := h.1 rfl
  obtain ⟨u, rfl⟩ := List.head?_eq_some_iff.1 (by simpa using hnext)
  have hparen : [')'].isPrefixOf? (d :: u) = none := by
    have hne : ')' ≠ d := by rintro rfl; revert hd; decide
    simp [isPrefixOf?_cons_cons, hne]
  cases ht : title? (d :: u) with
  | some title => simp [ending?, title?_return_cons ht] at hnone
  | none => rw [ending?, ht, hparen]; rfl

/-- What follows the return a text starts with is no ending. -/
def StartsApart (t : Text) : Prop := ∀ u, t = '\r' :: u → ending? u = none

theorem source?_dropReturns {t : Text} (h : Loose t) (hstart : StartsApart t) :
    source? (dropReturns t) = (source? t).map fun (source, title, rest) =>
      (dropReturns source, title.map dropReturns, dropReturns rest) := by
  induction t with
  | nil => rfl
  | cons c t ih =>
    by_cases hc : c = '\r'
    · subst hc
      have hnext : StartsApart t := by
        rintro u rfl
        obtain ⟨d, hd, hnext⟩ := h.1 rfl
        obtain rfl : '\r' = d := by simpa using hnext
        exact absurd hd (by decide)
      rw [dropReturns_return_cons, ih h.2 hnext, source?, if_neg (by decide), hstart t rfl]
      cases source? t <;> rfl
    · rw [dropReturns_cons hc, source?, source?, ending?_dropReturns h.2]
      split
      · rfl
      · cases he : ending? t with
        | some ending => simp [dropReturns_cons hc]
        | none =>
          have hnext : StartsApart t := by
            rintro u rfl
            exact ending?_of_return_cons h.2 he
          simp only [Option.map_none, ih h.2 hnext]
          cases source? t with
          | none => rfl
          | some source => simp [dropReturns_cons hc]

theorem source_ne_nil {t source rest : Text} {title : Option Text}
    (h : source? t = some (source, title, rest)) : source ≠ [] := by
  cases t with
  | nil => simp [source?] at h
  | cons c t =>
    simp only [source?] at h
    split at h
    · simp at h
    · split at h
      · simp only [Option.some.injEq, Prod.mk.injEq] at h
        rw [← h.1]
        simp
      · obtain ⟨⟨s, ti, r⟩, -, heq⟩ := Option.map_eq_some_iff.1 h
        simp only [Prod.mk.injEq] at heq
        rw [← heq.1]
        simp

theorem getLast?_source {t source rest : Text} {title : Option Text} (h : Loose t)
    (hstart : StartsApart t) (hs : source? t = some (source, title, rest)) :
    source.getLast? ≠ some '\r' := by
  induction t generalizing source with
  | nil => simp [source?] at hs
  | cons c t ih =>
    have hnext : ending? t = none → StartsApart t := by
      rintro he u rfl
      exact ending?_of_return_cons h.2 he
    simp only [source?] at hs
    split at hs
    · simp at hs
    · cases he : ending? t with
      | some ending =>
        have hc : c ≠ '\r' := by
          rintro rfl
          rw [hstart t rfl] at he
          simp at he
        simp only [he, Option.some.injEq, Prod.mk.injEq] at hs
        rw [← hs.1]
        simpa using hc
      | none =>
        simp only [he] at hs
        obtain ⟨⟨s, ti, r⟩, hs', heq⟩ := Option.map_eq_some_iff.1 hs
        simp only [Prod.mk.injEq] at heq
        obtain ⟨rfl, rfl, rfl⟩ := heq
        have hlast := ih h.2 (hnext he) hs'
        obtain ⟨d, s, rfl⟩ := List.exists_cons_of_ne_nil (source_ne_nil hs')
        rwa [List.getLast?_cons_cons]

/-- What stands behind the bracket that opens the address of the image a text starts with. -/
def target? (t : Text) : Option Text :=
  (['!', '['].isPrefixOf? t).bind fun inner =>
    [']', '('].isPrefixOf? (inner.dropWhile (· != ']'))

theorem target?_dropReturns {t : Text} (h : Loose t) :
    target? (dropReturns t) = (target? t).map dropReturns := by
  rw [target?, target?, isPrefixOf?_loose (by decide) h]
  cases hi : ['!', '['].isPrefixOf? t with
  | none => rfl
  | some inner =>
    rw [eq_append_of_isPrefixOf? hi] at h
    have hend := (h.of_suffix (List.suffix_append _ inner)).of_suffix
      (List.dropWhile_suffix (· != ']'))
    rw [Option.map_some, Option.bind_some, Option.bind_some, dropWhile_dropReturns (by decide),
      isPrefixOf?_loose (by decide) hend]

/-- Somewhere a break, with a title behind it, is the first thing in the address of an image. After
a return it is no longer the first, and then it is the blank in front of the title. -/
def BreakFirst (t : Text) : Prop :=
  ∃ u ∈ t.tails, ∃ target ∈ target? u, target.head? = some '\n' ∧ (title? target).isSome

instance : DecidablePred BreakFirst :=
  fun t => inferInstanceAs (Decidable (∃ u ∈ t.tails, ∃ target ∈ target? u, _))

theorem BreakFirst.of_suffix {t u : Text} (h : BreakFirst u) (hu : u <:+ t) : BreakFirst t := by
  obtain ⟨v, hv, h⟩ := h
  exact ⟨v, (List.mem_tails v t).2 (((List.mem_tails v u).1 hv).trans hu), h⟩

/-- What is known of a text with images that goes well with returns. -/
structure Ready (t : Text) : Prop where
  loose : Loose t
  apart : ¬ BreakFirst (dropReturns t)

theorem Ready.of_suffix {t u : Text} (h : Ready t) (hu : u <:+ t) : Ready u := by
  refine ⟨h.loose.of_suffix hu, fun hfirst => h.apart (hfirst.of_suffix ?_)⟩
  obtain ⟨a, rfl⟩ := hu
  rw [dropReturns_append]
  exact List.suffix_append _ _

theorem Ready.startsApart {t target : Text} (h : Ready t) (htarget : target? t = some target)
    (hloose : Loose target) : StartsApart target := by
  rintro u rfl
  obtain ⟨d, hd, hnext⟩ := hloose.1 rfl
  obtain ⟨v, rfl⟩ := List.head?_eq_some_iff.1 (by simpa using hnext)
  simp only [List.mem_cons, List.not_mem_nil, or_false] at hd
  rcases hd with rfl | rfl
  · have hbreak : Loose ('\n' :: v) := hloose.2
    cases ht : title? ('\n' :: v) with
    | none => rw [ending?, ht]; rfl
    | some title =>
      have htitle := title?_dropReturns hbreak
      have hfirst := target?_dropReturns h.loose
      rw [htarget, Option.map_some, dropReturns_return_cons] at hfirst
      refine absurd ⟨_, (List.mem_tails _ _).2 (List.suffix_refl _), _, hfirst, ?_, ?_⟩ h.apart
      · rw [dropReturns_cons (by decide)]
        rfl
      · rw [htitle, ht]
        rfl
  · rfl

/-- The image without its returns. -/
def withoutReturns (i : Image) : Image :=
  ⟨dropReturns i.alt, dropReturns i.source, i.title.map dropReturns⟩

theorem titleAttribute_dropReturns (title : Option Text) :
    titleAttribute (title.map dropReturns) = dropReturns (titleAttribute title) := by
  cases title with
  | none => rfl
  | some t =>
    have hopen : '\r' ∉ " title=\"".toList := by decide +kernel
    have hclose : '\r' ∉ ['"'] := by decide
    show " title=\"".toList ++ dropReturns t ++ ['"'] =
      dropReturns (" title=\"".toList ++ t ++ ['"'])
    rw [dropReturns_append, dropReturns_append, dropReturns_eq_self hopen,
      dropReturns_eq_self hclose]

theorem html_withoutReturns (i : Image) : i.withoutReturns.html = dropReturns i.html := by
  have hsource : '\r' ∉ "<img src=\"".toList := by decide +kernel
  have halt : '\r' ∉ "\" alt=\"".toList := by decide +kernel
  have hquote : '\r' ∉ ['"'] := by decide +kernel
  have herror : '\r' ∉ " onerror=\"this.onerror=null;this.src='".toList := by decide +kernel
  have hfallback : '\r' ∉ fallback := by decide +kernel
  have hend : '\r' ∉ "';\">".toList := by decide +kernel
  unfold html withoutReturns
  simp only [dropReturns_append, titleAttribute_dropReturns,
    dropReturns_eq_self hsource, dropReturns_eq_self halt, dropReturns_eq_self hquote,
    dropReturns_eq_self herror, dropReturns_eq_self hfallback, dropReturns_eq_self hend]

theorem ofText?_dropReturns {t : Text} (h : Ready t) :
    ofText? (dropReturns t) =
      (ofText? t).map fun (image, rest) => (image.withoutReturns, dropReturns rest) := by
  rw [ofText?, ofText?, isPrefixOf?_loose (by decide) h.loose]
  cases hi : ['!', '['].isPrefixOf? t with
  | none => rfl
  | some inner =>
    have hinner := h.loose
    rw [eq_append_of_isPrefixOf? hi] at hinner
    have hend := (hinner.of_suffix (List.suffix_append _ inner)).of_suffix
      (List.dropWhile_suffix (· != ']'))
    simp only [Option.map_some, Option.bind_some]
    rw [dropWhile_dropReturns (by decide), takeWhile_dropReturns (by decide),
      isPrefixOf?_loose (by decide) hend]
    cases ht : [']', '('].isPrefixOf? (inner.dropWhile (· != ']')) with
    | none => rfl
    | some target =>
      rw [eq_append_of_isPrefixOf? ht] at hend
      have htarget : Loose target := hend.2.2
      have hapart := h.startsApart (by rw [target?, hi, Option.bind_some, ht]) htarget
      simp only [Option.map_some, Option.bind_some]
      rw [source?_dropReturns htarget hapart]
      cases source? target <;> rfl

theorem returns_html {t rest : Text} {i : Image} (h : Ready t) (hi : ofText? t = some (i, rest)) :
    Loose i.html := by
  obtain ⟨inner, hinner, hi⟩ := Option.bind_eq_some_iff.1 hi
  obtain ⟨target, htarget, hi⟩ := Option.bind_eq_some_iff.1 hi
  obtain ⟨⟨source, title, rest⟩, hs, heq⟩ := Option.map_eq_some_iff.1 hi
  simp only [Prod.mk.injEq] at heq
  obtain ⟨rfl, -⟩ := heq
  have hinside := h.loose
  rw [eq_append_of_isPrefixOf? hinner] at hinside
  have hinside : Loose inner := hinside.2.2
  have halt : Loose (inner.takeWhile (· != ']')) :=
    hinside.takeWhile (eq_append_of_isPrefixOf? htarget) (by decide)
  have hend := hinside.of_suffix (List.dropWhile_suffix (· != ']'))
  rw [eq_append_of_isPrefixOf? htarget] at hend
  have hloose : Loose target := hend.2.2
  have hlast := getLast?_source hloose
    (h.startsApart (by rw [target?, hinner, Option.bind_some, htarget]) hloose) hs
  obtain ⟨e, he, htarget⟩ := source?_eq_some hs
  rw [htarget, List.append_assoc] at hloose
  obtain ⟨hbefore, hafter⟩ := returns_append.1 hloose
  have htitle : Loose (titleAttribute title) := by
    cases he with
    | plain => trivial
    | @titled blanks title _ _ =>
      simp only [List.append_assoc, List.cons_append] at hafter
      have hquoted := (hafter.of_suffix (List.suffix_append blanks _)).2
      have hopen : Loose " title=\"".toList := returns_of_not_mem (by decide)
      exact (hopen.append (hquoted.left (d := '"') (by decide))).append (returns_of_not_mem (by decide))
  have hsource := hbefore.to_none hlast
  have hfixed : ∀ s : Text, '\r' ∉ s → Loose s := fun s hs => returns_of_not_mem hs
  unfold html
  refine Returns.append (.append (.append (.append (.append (.append (.append (.append
    (hfixed _ (by decide)) hsource) (hfixed _ (by decide))) halt) (hfixed _ (by decide))) htitle)
    (hfixed _ (by decide))) (hfixed _ (by decide))) (hfixed _ (by decide))

theorem suffix_of_ofText? {t rest : Text} {i : Image} (h : ofText? t = some (i, rest)) :
    rest <:+ t := by
  obtain ⟨e, -, ht⟩ := ofText?_eq_some h
  rw [ht]
  exact List.suffix_append _ _

theorem spanAt?_pattern_eq_some {t out rest : Text} (h : pattern.spanAt? t = some (out, rest)) :
    ∃ i, ofText? t = some (i, rest) ∧ i.html = out := by
  obtain ⟨⟨i, r⟩, hi, he⟩ := Option.map_eq_some_iff.1 h
  simp only [Prod.mk.injEq] at he
  exact ⟨i, he.2 ▸ hi, he.1⟩

/-- Images are found with returns in the text where they are found without. -/
theorem images_dropReturns {t : Text} (h : Ready t) :
    images (dropReturns t) = dropReturns (images t) ∧ Loose (images t) := by
  refine ⟨Pattern.replace_dropReturns (P := Ready) (fun _ _ ht hu => ht.of_suffix hu) ?_ ?_ h,
    Pattern.returns_replace (P := Ready) (fun _ _ ht hu => ht.of_suffix hu) (fun _ ht => ht.loose)
      (List.Subset.refl _) ?_ ?_ ?_ h⟩
  · intro t ht
    simp only [pattern, ofText?_dropReturns ht]
    cases ofText? t with
    | none => rfl
    | some image => simp [html_withoutReturns]
  · intro t out rest hs
    obtain ⟨i, hi, -⟩ := spanAt?_pattern_eq_some hs
    exact suffix_of_ofText? hi
  · intro c hc t
    simp only [List.mem_cons, List.not_mem_nil, or_false] at hc
    rcases hc with rfl | rfl <;> rfl
  · intro t out rest hs
    obtain ⟨i, hi, -⟩ := spanAt?_pattern_eq_some hs
    exact suffix_of_ofText? hi
  · intro t out rest ht hs
    obtain ⟨i, hi, rfl⟩ := spanAt?_pattern_eq_some hs
    exact returns_html ht hi

end Image

/-! ## Links -/

namespace Link

/-- Before links are read, returns also stand before the entities of code. -/
abbrev Loose (t : Text) : Prop := Returns ['\n', '<', '&'] none t

theorem isPrefixOf?_loose {mark : Text} (hmark : ∀ c ∈ mark, c ≠ '\r' ∧ c ∉ ['\n', '<', '&']) {t : Text}
    (h : Loose t) : mark.isPrefixOf? (dropReturns t) = (mark.isPrefixOf? t).map dropReturns :=
  isPrefixOf?_dropReturns (by decide) hmark h

/-- The link without its returns. -/
def withoutReturns (l : Link) : Link := ⟨dropReturns l.text, dropReturns l.url⟩

theorem html_withoutReturns (l : Link) : l.withoutReturns.html = dropReturns l.html := by
  have hopen : '\r' ∉ "<a href=\"".toList := by decide +kernel
  have htarget : '\r' ∉ "\" target=\"_blank\" rel=\"noopener noreferrer\">".toList := by decide +kernel
  have hclose : '\r' ∉ "</a>".toList := by decide +kernel
  unfold html withoutReturns
  simp only [dropReturns_append, dropReturns_eq_self hopen, dropReturns_eq_self htarget,
    dropReturns_eq_self hclose]

theorem ofText?_dropReturns {t : Text} (h : Loose t) :
    ofText? (dropReturns t) =
      (ofText? t).map fun (link, rest) => (link.withoutReturns, dropReturns rest) := by
  rw [ofText?, ofText?, isPrefixOf?_loose (by decide) h]
  cases hi : ['['].isPrefixOf? t with
  | none => rfl
  | some inner =>
    rw [eq_append_of_isPrefixOf? hi] at h
    have hinner : Loose inner := h.2
    have hend : Loose (inner.dropWhile (· != ']')) := hinner.of_suffix (List.dropWhile_suffix _)
    simp only [Option.map_some, Option.bind_some]
    rw [dropWhile_dropReturns (by decide), takeWhile_dropReturns (by decide),
      isPrefixOf?_loose (by decide) hend]
    cases ht : [']', '('].isPrefixOf? (inner.dropWhile (· != ']')) with
    | none => rfl
    | some target =>
      have htext := hinner.takeWhile (eq_append_of_isPrefixOf? ht) (by decide)
      rw [eq_append_of_isPrefixOf? ht] at hend
      have htarget : Loose target := hend.2.2
      have hclose : Loose (target.dropWhile (· != ')')) := htarget.of_suffix (List.dropWhile_suffix _)
      simp only [Option.map_some, Option.bind_some]
      rw [dropWhile_dropReturns (by decide), takeWhile_dropReturns (by decide),
        isPrefixOf?_loose (by decide) hclose]
      cases hr : [')'].isPrefixOf? (target.dropWhile (· != ')')) with
      | none => rfl
      | some rest =>
        have hurl := htarget.takeWhile (eq_append_of_isPrefixOf? hr) (by decide)
        simp only [Option.map_some, Option.bind_some, htext.dropReturns_eq_nil_iff (by decide),
          hurl.dropReturns_eq_nil_iff (by decide)]
        split <;> rfl

/-- Links are found with returns in the text where they are found without. -/
theorem links_dropReturns {t : Text} (h : Loose t) : links (dropReturns t) = dropReturns (links t) := by
  refine Pattern.replace_dropReturns (P := Loose) (fun _ _ ht hu => ht.of_suffix hu) ?_ ?_ h
  · intro t ht
    simp only [pattern, ofText?_dropReturns ht]
    cases ofText? t with
    | none => rfl
    | some link => simp [html_withoutReturns]
  · intro t out rest hs
    obtain ⟨⟨l, r⟩, hl, he⟩ := Option.map_eq_some_iff.1 hs
    simp only [Prod.mk.injEq] at he
    rw [← he.2, ofText?_eq_some hl]
    exact ⟨'[' :: l.text ++ ']' :: '(' :: l.url ++ [')'], by simp⟩

end Link

end MarkdownPreview

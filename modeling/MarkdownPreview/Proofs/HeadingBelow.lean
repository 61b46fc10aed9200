import MarkdownPreview.Proofs.BlockEnd
/-!
# Headings below blocks

A heading line is recognised at the start of a line, and the heading pass reads the lines that
tables, quotes and lists have left. Right below a block the line stands behind a tag, so it is no
heading, and no later pass makes it one: all that can become of it is the end of a heading that its
whole line is, title and all.

Main result `heading_isSuffix_render_iff`: a text that ends in a heading line is rendered with that
heading at its end exactly if the lines above do not end in a block. An item is enough for it to
fail (`heading_lost_below_item`).
-/

namespace MarkdownPreview

open Text

/-! ## Ends of texts -/

namespace Text

/-- An end without blanks at its own two ends is not trimmed. -/
theorem isSuffix_trim {c : Char} {z t : Text} (h : c :: z <:+ t) (hc : isBlank c = false)
    (hlast : ∀ d, (c :: z).getLast? = some d → isBlank d = false) : c :: z <:+ trim t := by
  obtain ⟨a, b, ht, ha, hb⟩ := trim_shape t
  have hend : b = [] := by
    rcases List.eq_nil_or_concat b with rfl | ⟨b, d, rfl⟩
    · rfl
    · rw [List.concat_eq_append] at ht hb
      rw [ht, ← List.append_assoc] at h
      obtain ⟨y, hy, -⟩ := (List.suffix_concat_iff.1 h).resolve_left (by simp)
      have hd := hlast d (by rw [hy, List.getLast?_concat])
      rw [hb d (by simp)] at hd
      cases hd
  rw [ht, hend, List.append_nil] at h
  rcases suffix_append_cases h with h | ⟨x, hx, hxa, hz⟩
  · exact h
  · obtain ⟨d, x, rfl⟩ := List.exists_cons_of_ne_nil hx
    rw [(List.cons.inj hz).1, ha d (hxa.subset List.mem_cons_self)] at hc
    cases hc

/-- An end of a text without a break in it is the end of its last line, whatever ends the lines. -/
theorem Line.ofText_append {z : Text} (hz : '\n' ∉ z ∧ '\r' ∉ z) (t : Text) :
    ∃ ls m, ofText (t ++ z) = ls ++ [⟨m ++ z, none⟩] := by
  fun_induction ofText t with
  | case1 => exact ⟨[], [], ofText_of_break_not_mem hz⟩
  | case2 t ih =>
    obtain ⟨ls, m, h⟩ := ih
    exact ⟨_ :: ls, m, by rw [List.cons_append, List.cons_append, ofText, h]; rfl⟩
  | case3 t _ ih =>
    obtain ⟨ls, m, h⟩ := ih
    exact ⟨_ :: ls, m, by rw [List.cons_append, ofText.eq_3 _ _ (by simp), if_pos rfl, h]; rfl⟩
  | case4 t hcr _ ih =>
    obtain ⟨ls, m, h⟩ := ih
    have hnext : ∀ u, t ++ z ≠ '\n' :: u := by
      intro u hu
      cases t with
      | nil => exact hz.1 (by rw [List.nil_append] at hu; simp [hu])
      | cons d t => exact hcr t rfl (by rw [(List.cons.inj hu).1])
    refine ⟨⟨[], some .cr⟩ :: ls, m, ?_⟩
    rw [List.cons_append, ofText.eq_3 _ _ (fun u _ hu => hnext u hu), if_neg (by decide), if_pos rfl, h]
    rfl
  | case5 c t _ hlf hne ih =>
    obtain ⟨ls, m, h⟩ := ih
    rw [List.cons_append, ofText_cons ⟨hlf, hne⟩, h]
    cases ls with
    | nil => exact ⟨[], c :: m, rfl⟩
    | cons l ls => exact ⟨_ :: ls, m, rfl⟩

theorem mapLines_append (f : Text → Text) {z : Text} (hz : '\n' ∉ z ∧ '\r' ∉ z) (t : Text) :
    ∃ u m, mapLines f (t ++ z) = u ++ f (m ++ z) := by
  obtain ⟨ls, m, h⟩ := Line.ofText_append hz t
  exact ⟨_, m, by simp [mapLines, h, Line.print, Line.endingText]; rfl⟩

end Text

/-! ## Heading lines -/

/-- A word of ASCII letters. -/
def IsWord (w : Text) : Prop := w ≠ [] ∧ ∀ c ∈ w, c.isAlpha = true

instance (w : Text) : Decidable (IsWord w) := inferInstanceAs (Decidable (_ ∧ _))

/-- Between the ASCII letters there is no blank and no mark. -/
theorem Text.toNat_of_isAlpha {c : Char} (h : c.isAlpha = true) :
    65 ≤ c.toNat ∧ c.toNat ≤ 90 ∨ 97 ≤ c.toNat ∧ c.toNat ≤ 122 := by
  have hletter : (decide (c.val ≥ 'A'.val ∧ c.val ≤ 'Z'.val) ||
      (decide (c.val ≥ 'a'.val) && decide (c.val ≤ 'z'.val))) = true := h
  simp only [Bool.or_eq_true, Bool.and_eq_true, decide_eq_true_eq] at hletter
  rcases hletter with ⟨h1, h2⟩ | ⟨h1, h2⟩
  · exact Or.inl ⟨UInt32.le_iff_toNat_le.1 h1, UInt32.le_iff_toNat_le.1 h2⟩
  · exact Or.inr ⟨UInt32.le_iff_toNat_le.1 h1, UInt32.le_iff_toNat_le.1 h2⟩

theorem Text.isBlank_of_isAlpha {c : Char} (h : c.isAlpha = true) : isBlank c = false := by
  have hc := toNat_of_isAlpha h
  simp [isBlank]
  omega

theorem IsWord.not_mem {w : Text} (h : IsWord w) {c : Char} (hc : c.isAlpha = false) : c ∉ w := by
  intro hm
  rw [h.2 c hm] at hc
  cases hc

namespace Heading

/-- The line of a heading: as many hashes as its level, a space, and a word. -/
def source (level : Nat) (word : Text) : Text := List.replicate level '#' ++ ' ' :: word

theorem not_mem_source {c : Char} {k : Nat} {w : Text} (hw : IsWord w) (hc : c.isAlpha = false)
    (hmark : c ≠ '#' ∧ c ≠ ' ') : c ∉ source k w := by
  simp [source, List.mem_replicate, hmark, hw.not_mem hc]

theorem ofLine?_source {k : Nat} {w : Text} (hk : 0 < k) (hw : IsWord w) :
    ofLine? (source k w) = some ⟨min k maxLevel, w⟩ := by
  have htrim : trim w = w :=
    trim_eq_self (fun d hd => isBlank_of_isAlpha (hw.2 d (List.mem_of_head? hd)))
      fun d hd => isBlank_of_isAlpha (hw.2 d (List.mem_of_getLast? hd))
  rw [source, ofLine?_replicate hk (Or.inl rfl) hw.1, htrim]

theorem source_eq_cons {k : Nat} (hk : 0 < k) (w : Text) :
    source k w = '#' :: source (k - 1) w := by
  obtain ⟨k, rfl⟩ := Nat.exists_eq_add_one.2 hk
  rfl

theorem isPlain_source {k : Nat} {w : Text} (hk : 0 < k) : IsPlain (source k w) := by
  rw [source_eq_cons hk]
  exact ⟨rfl, QuoteLine.ofLine?_cons (by decide) _,
    Listing.item?_cons (by decide) (by decide) (by decide) _⟩

/-- The rule pass leaves a heading line alone. -/
theorem horizontalRules_append_source (t : Text) {k : Nat} {w : Text} (hw : IsWord w) :
    Rule.horizontalRules (t ++ '\n' :: source k w) =
      Rule.horizontalRules t ++ '\n' :: source k w := by
  have hrule : Rule.isRule (source k w) = false := by
    refine Bool.eq_false_iff.2 fun h => ?_
    have hspace := Rule.mem_marks_of_isRule h (c := ' ') (by simp [source])
    exact absurd hspace (by decide)
  have hself : Rule.horizontalRules (source k w) = source k w := by
    apply Rule.horizontalRules_eq_self
    rw [Line.ofText_of_break_not_mem
      ⟨not_mem_source hw (by decide) (by decide), not_mem_source hw (by decide) (by decide)⟩]
    simpa using hrule
  have happart : Rule.horizontalRules (t ++ '\n' :: source k w) =
      Rule.horizontalRules t ++ '\n' :: Rule.horizontalRules (source k w) :=
    mapLines_append_break rfl t _
  rw [happart, hself]

theorem headings_source {k : Nat} {w : Text} (hk : 0 < k) (hw : IsWord w) :
    headings (source k w) = html ⟨min k maxLevel, w⟩ := by
  rw [headings, mapLines, Line.ofText_of_break_not_mem
    ⟨not_mem_source hw (by decide) (by decide), not_mem_source hw (by decide) (by decide)⟩]
  simp [line, ofLine?_source hk hw, Line.print, Line.endingText]

/-! ## A line behind a tag -/

/-- What stands behind `>` is no heading: if the line is one, it is the end of the title. -/
theorem isSuffix_title {l z : Text} {h : Heading} (hl : ofLine? l = some h) (hz : '>' :: z <:+ l)
    (hlast : ∀ d, ('>' :: z).getLast? = some d → isBlank d = false) : '>' :: z <:+ h.title := by
  obtain ⟨n, b, rest, rfl, hb, rfl⟩ := ofLine?_eq_some hl
  refine isSuffix_trim ?_ (by decide) hlast
  rcases suffix_append_cases hz with hz | ⟨x, hx, hmarks, hz⟩
  · rcases List.suffix_cons_iff.1 hz with hz | hz
    · rw [← (List.cons.inj hz).1] at hb
      exact absurd hb (by decide)
    · exact hz
  · obtain ⟨c, x, rfl⟩ := List.exists_cons_of_ne_nil hx
    have hc := List.eq_of_mem_replicate (hmarks.subset List.mem_cons_self)
    rw [← (List.cons.inj hz).1] at hc
    exact absurd hc (by decide)

/-- A line behind `>` ends as it did, or with the closing tag of a heading behind that. -/
theorem isSuffix_line {l z : Text} (hz : '>' :: z <:+ l)
    (hlast : ∀ d, ('>' :: z).getLast? = some d → isBlank d = false) :
    '>' :: z <:+ line l ∨
      ∃ n ≤ maxLevel, '>' :: z ++ closeTag ('h' :: decimal n) <:+ line l := by
  unfold line
  split
  · next h hl =>
    have hlevel : h.level ≤ maxLevel := by
      obtain ⟨n, -, -, -, -, rfl⟩ := ofLine?_eq_some hl
      exact Nat.min_le_right _ _
    obtain ⟨a, ha⟩ := isSuffix_title hl hz hlast
    refine Or.inr ⟨h.level, hlevel, ?_⟩
    rw [html, element, ← ha]
    exact ⟨openTag ('h' :: decimal h.level) ++ a, by simp⟩
  · exact Or.inl hz

theorem isSuffix_headings {t z : Text} (hz : '>' :: z <:+ t) (hbreak : '\n' ∉ z ∧ '\r' ∉ z)
    (hlast : ∀ d, ('>' :: z).getLast? = some d → isBlank d = false) :
    '>' :: z <:+ headings t ∨
      ∃ n ≤ maxLevel, '>' :: z ++ closeTag ('h' :: decimal n) <:+ headings t := by
  obtain ⟨a, rfl⟩ := hz
  obtain ⟨u, m, h⟩ := mapLines_append line (z := '>' :: z) (by simpa using hbreak) a
  rw [headings, h]
  rcases isSuffix_line (l := m ++ '>' :: z) (List.suffix_append _ _) hlast with hz | ⟨n, hn, hz⟩
  · exact Or.inl (List.suffix_append_of_suffix hz)
  · exact Or.inr ⟨n, hn, List.suffix_append_of_suffix hz⟩

end Heading

namespace Delimited

/-- An end that has no character of a delimiter is not changed. -/
theorem isSuffix_format {s : Delimited} {t z : Text}
    (hs : ∀ mark ∈ s.marks, mark ≠ [] ∧ ∀ c ∈ mark, c ∉ z) (h : z <:+ t) : z <:+ s.format t := by
  unfold format
  induction t using Pattern.walk_induction (p := s.pattern) with
  | nil => rwa [Pattern.replace_nil]
  | span t out rest hspan ih =>
    obtain ⟨mark, hmark, body, rfl, -, -⟩ := spanAt?_eq_some hspan
    rw [Pattern.replace_of_spanAt? hspan]
    refine List.suffix_append_of_suffix (ih ?_)
    rcases suffix_append_cases h with h | ⟨x, hx, hend, rfl⟩
    · exact h
    · -- the end would have the last character of the closing delimiter
      obtain ⟨hne, hz⟩ := hs mark hmark
      obtain ⟨mark', d, hd⟩ := (List.eq_nil_or_concat mark).resolve_left hne
      rw [List.concat_eq_append] at hd
      rw [hd, ← List.append_assoc] at hend
      obtain ⟨y, rfl, -⟩ := (List.suffix_concat_iff.1 hend).resolve_left hx
      exact absurd (by simp) (hz d (by simp [hd]))
  | copy c t hspan ih =>
    rw [Pattern.replace_cons hspan]
    rcases List.suffix_cons_iff.1 h with rfl | h
    · have hself : s.pattern.replace t = t := format_eq_self fun mark hmark => by
        obtain ⟨hne, hz⟩ := hs mark hmark
        obtain ⟨d, mark, rfl⟩ := List.exists_cons_of_ne_nil hne
        exact ⟨d, List.mem_cons_self, fun hd => hz d List.mem_cons_self (List.mem_cons_of_mem _ hd)⟩
      exact ⟨[], congrArg (c :: ·) hself.symm⟩
    · exact (ih h).trans (List.suffix_cons _ _)

theorem isSuffix_inlineFormats {t z : Text} (ha : '*' ∉ z) (hu : '_' ∉ z) (hb : '`' ∉ z)
    (h : z <:+ t) : z <:+ inlineFormats t := by
  have hstrong : z <:+ strong.format t := isSuffix_format (by simp [strong, ha, hu]) h
  have hem := isSuffix_format (s := emphasis) (by simp [emphasis, ha, hu]) hstrong
  exact isSuffix_format (s := code) (by simp [code, hb]) hem

end Delimited

/-! ## All passes -/

/-- What is rendered of a text without backticks and brackets goes through no pass but these. -/
theorem render_eq_of_not_mem {t : Text} (hb : '`' ∉ t) (hbracket : '[' ∉ t) :
    render t = Delimited.inlineFormats (Heading.headings
      (Listing.lists (QuoteLine.blockquotes (Table.tables (Rule.horizontalRules t))))) := by
  have hfence : ¬ Fence.mark <:+: t := fun h => hb (h.subset (by decide))
  have hblocks := bracket_not_mem_blocks hbracket
  rw [render_eq, beforeFormats, Fence.codeBlocks_eq_self hfence, Image.images_eq_self hblocks,
    Link.links_eq_self (Delimited.bracket_not_mem_inlineFormats hblocks)]
  simp only [blocks, Pass.applyAll, List.foldl_cons, List.foldl_nil, Pass.apply]

namespace Heading

variable {k : Nat} {w : Text}

theorem source_last (hw : IsWord w) :
    ∀ d, ('>' :: source k w).getLast? = some d → d.isAlpha = true := by
  intro d hd
  obtain ⟨w', c, rfl⟩ := (List.eq_nil_or_concat w).resolve_left hw.1
  rw [List.concat_eq_append] at hd hw
  have hend : '>' :: source k (w' ++ [c]) = '>' :: (List.replicate k '#' ++ ' ' :: w') ++ [c] := by
    simp [source]
  rw [hend, List.getLast?_concat] at hd
  rw [← Option.some.inj hd]
  exact hw.2 c (by simp)

/-- Neither the line behind `>` nor a heading that ends in it ends in the heading. -/
theorem not_isSuffix_html {t : Text} {n : Nat} (hn : n ≤ maxLevel) (hw : IsWord w)
    (h : '>' :: source k w <:+ t ∨
      ∃ m ≤ maxLevel, '>' :: source k w ++ closeTag ('h' :: decimal m) <:+ t) :
    ¬ (html ⟨n, w⟩ <:+ t) := by
  intro hhtml
  have hlength : ∀ m ≤ maxLevel, (decimal m).length = 1 := by decide
  rcases h with h | ⟨m, hm, h⟩
  · -- the last character is a letter, and not the end of a tag
    have hletter : ∀ d, t.getLast? = some d → d.isAlpha = true := by
      obtain ⟨a, rfl⟩ := h
      rw [List.getLast?_append_of_ne_nil _ (by simp)]
      exact source_last hw
    obtain ⟨a, rfl⟩ := hhtml
    have hend : (html ⟨n, w⟩).getLast? = some '>' := (isMarkup_element _ _).2
    exact absurd (hletter '>' (by rw [List.getLast?_append, hend]; rfl)) (by decide)
  · -- before the word there is a space, and not the end of a tag
    have hspace : ' ' :: w ++ closeTag ('h' :: decimal m) <:+ t :=
      List.IsSuffix.trans ⟨'>' :: List.replicate k '#', by simp [source]⟩ h
    have htag : '>' :: w ++ closeTag ('h' :: decimal n) <:+ t :=
      List.IsSuffix.trans ⟨'<' :: 'h' :: decimal n, by simp [html, element, openTag]⟩ hhtml
    have heq : ' ' :: w ++ closeTag ('h' :: decimal m) = '>' :: w ++ closeTag ('h' :: decimal n) := by
      have hle := List.suffix_of_suffix_length_le hspace htag
        (by simp [closeTag, hlength m hm, hlength n hn])
      exact hle.eq_of_length (by simp [closeTag, hlength m hm, hlength n hn])
    exact absurd (List.cons.inj heq).1 (by decide)

end Heading

/-- **A heading is recognised exactly where no block ends above it.** -/
theorem heading_isSuffix_render_iff {p w : Text} {k : Nat} (hb : '`' ∉ p) (hbracket : '[' ∉ p)
    (hk : 0 < k) (hw : IsWord w) :
    (⟨min k 6, w⟩ : Heading).html <:+ render (p ++ '\n' :: Heading.source k w) ↔
      ¬ EndsInBlock (lines (Rule.horizontalRules p)) := by
  have hnot : ∀ c : Char, c.isAlpha = false → c ≠ '#' ∧ c ≠ ' ' → c ∉ Heading.source k w :=
    fun c hc hmark => Heading.not_mem_source hw hc hmark
  have hbreak := hnot '\n' (by decide) (by decide)
  rw [render_eq_of_not_mem (by simp [hb, hnot]) (by simp [hbracket, hnot]),
    Heading.horizontalRules_append_source p hw]
  have hmarks : ∀ m ≤ Heading.maxLevel, ∀ c ∈ ['*', '_', '`'],
      c ∉ openTag ('h' :: decimal m) ∧ c ∉ closeTag ('h' :: decimal m) := by decide
  by_cases hend : EndsInBlock (lines (Rule.horizontalRules p))
  · refine iff_of_false ?_ (not_not.2 hend)
    have hbehind := (endsBehindTag_of_endsInBlock hend hbreak (Heading.isPlain_source hk)).2
    refine Heading.not_isSuffix_html (k := k) (Nat.min_le_right k 6) hw ?_
    refine (Heading.isSuffix_headings hbehind ⟨hbreak, hnot '\r' (by decide) (by decide)⟩ fun d hd =>
      isBlank_of_isAlpha (Heading.source_last hw d hd)).imp ?_ ?_
    · exact Delimited.isSuffix_inlineFormats (by simp [hnot]) (by simp [hnot]) (by simp [hnot])
    · rintro ⟨m, hm, hz⟩
      have hclose := hmarks m hm
      simp only [List.forall_mem_cons] at hclose
      exact ⟨m, hm, Delimited.isSuffix_inlineFormats (by simp [hnot, hclose]) (by simp [hnot, hclose])
        (by simp [hnot, hclose]) hz⟩
  · refine iff_of_true ?_ hend
    have hletters : ∀ c ∈ ['*', '_', '`'], c.isAlpha = false := by decide
    have hhtml : ∀ c ∈ ['*', '_', '`'], c ∉ (⟨min k Heading.maxLevel, w⟩ : Heading).html := by
      intro c hc
      have htags := hmarks _ (Nat.min_le_right k Heading.maxLevel) c hc
      have hword : c ∉ w := hw.not_mem (hletters c hc)
      simp [Heading.html, element, htags, hword]
    have happart : ∀ a b, Heading.headings (a ++ '\n' :: b) =
      Heading.headings a ++ '\n' :: Heading.headings b := mapLines_append_break rfl
    rw [append_break_of_not_endsInBlock hend hbreak (Heading.isPlain_source hk), happart,
      Delimited.breaksApart_inlineFormats _ _ trivial, Heading.headings_source hk hw,
      Delimited.inlineFormats_eq_self_of_not_mem (hhtml '*' (by simp)) (hhtml '_' (by simp))
        (hhtml '`' (by simp))]
    exact ⟨_, (List.append_cons _ '\n' _).symm⟩

/-- A quote line that stands behind a table is no quote, and the heading below it is one. -/
theorem heading_below_table_and_quote :
    '`' ∉ "|a|\n|-|\n> b".toList ∧ '[' ∉ "|a|\n|-|\n> b".toList ∧ 0 < 8 ∧ IsWord "Deep".toList ∧
      ¬ EndsInBlock (lines (Rule.horizontalRules "|a|\n|-|\n> b".toList)) ∧
      (⟨min 8 6, "Deep".toList⟩ : Heading).html <:+
        render ("|a|\n|-|\n> b".toList ++ '\n' :: Heading.source 8 "Deep".toList) := by
  have hb : '`' ∉ "|a|\n|-|\n> b".toList := by decide
  have hbracket : '[' ∉ "|a|\n|-|\n> b".toList := by decide
  have hw : IsWord "Deep".toList := by decide
  have hend : ¬ EndsInBlock (lines (Rule.horizontalRules "|a|\n|-|\n> b".toList)) := by
    decide +kernel
  exact ⟨hb, hbracket, by decide, hw, hend,
    (heading_isSuffix_render_iff hb hbracket (by decide) hw).2 hend⟩

/-- Below an item, a heading is left as it is. -/
theorem heading_lost_below_item : '`' ∉ "- a".toList ∧ '[' ∉ "- a".toList ∧ IsWord "b".toList ∧
    render ("- a".toList ++ '\n' :: Heading.source 1 "b".toList) =
      "<ul><li>a</li></ul># b".toList ∧
    ¬ ((⟨min 1 6, "b".toList⟩ : Heading).html <:+
      render ("- a".toList ++ '\n' :: Heading.source 1 "b".toList)) := by
  decide +kernel

end MarkdownPreview

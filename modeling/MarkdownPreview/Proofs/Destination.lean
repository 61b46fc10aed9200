import MarkdownPreview.Proofs.HeadingBelow
import MarkdownPreview.Proofs.ReferenceForm
import MarkdownPreview.Proofs.SpanLines
/-!
# Destinations

The address of a link and the source of an image are read by every pass, and the inline formats read
them as text: those of a link before it is written as an element, those of an image after that. So a
destination is kept exactly if the inline formats find no span in it. They find none if and only if
its asterisks stand side by side, and so do its underscores: between two runs of a delimiter
there is a body, but a run on its own can only be taken for a span whose body starts with the
delimiter, and the body of strong text and of emphasis may not (`Delimited.found_eq_nil_of_oneRun`).

Main result `destination_kept_iff`.
-/

namespace MarkdownPreview

open Text

/-! ## Runs of a character -/

/-- All occurrences of the character stand side by side: behind its first run there is none. -/
def OneRun (a : Char) (t : Text) : Prop := a ∉ (t.dropWhile (· != a)).dropWhile (· == a)

instance (a : Char) (t : Text) : Decidable (OneRun a t) := inferInstanceAs (Decidable (_ ∉ _))

namespace OneRun

variable {a c : Char} {t u : Text}

theorem of_not_mem (h : a ∉ t) : OneRun a t := fun ha =>
  h ((List.dropWhile_sublist _).subset ((List.dropWhile_sublist _).subset ha))

theorem cons_of_ne (h : c ≠ a) : OneRun a (c :: t) ↔ OneRun a t := by
  unfold OneRun
  rw [List.dropWhile_cons_of_pos (by simpa using h)]

theorem cons_self : OneRun a (a :: t) ↔ a ∉ t.dropWhile (· == a) := by
  unfold OneRun
  rw [List.dropWhile_cons_of_neg (by simp), List.dropWhile_cons_of_pos (by simp)]

/-- A text that goes on with the only run has no other. -/
theorem of_dropWhile (h : a ∉ t.dropWhile (· == a)) : OneRun a t := by
  cases t with
  | nil => exact of_not_mem List.not_mem_nil
  | cons c t =>
    by_cases hc : c = a
    · subst hc
      rw [List.dropWhile_cons_of_pos (by simp)] at h
      exact cons_self.2 h
    · rw [List.dropWhile_cons_of_neg (by simpa using hc)] at h
      exact of_not_mem h

theorem of_cons (h : OneRun a (c :: t)) : OneRun a t := by
  by_cases hc : c = a
  · subst hc
    exact of_dropWhile (cons_self.1 h)
  · exact (cons_of_ne hc).1 h

theorem of_suffix (h : OneRun a t) (hu : u <:+ t) : OneRun a u := by
  induction t with
  | nil => rwa [List.suffix_nil.1 hu]
  | cons c t ih =>
    rcases List.suffix_cons_iff.1 hu with rfl | hu
    · exact h
    · exact ih h.of_cons hu

/-- Between two of the character there is nothing else. -/
theorem eq_of_mem {body rest : Text} (h : OneRun a (a :: (body ++ a :: rest))) :
    ∀ d ∈ body, d = a := by
  have hnone := cons_self.1 h
  rw [List.dropWhile_append] at hnone
  split at hnone
  · next hempty =>
    intro d hd
    have hall := List.dropWhile_eq_nil_iff.1 (List.isEmpty_iff.1 hempty) d hd
    simpa using hall
  · exact absurd (List.mem_append_right _ List.mem_cons_self) hnone

/-- Two runs have something between them. -/
theorem exists_of_not (h : ¬ OneRun a t) :
    ∃ above body below, t = above ++ a :: (body ++ a :: below) ∧ body ≠ [] ∧ a ∉ body := by
  induction t with
  | nil => exact absurd (of_not_mem List.not_mem_nil) h
  | cons c t ih =>
    by_cases ht : OneRun a t
    · -- the character that makes the difference is a run of its own
      have hc : c = a := by
        by_contra hne
        exact h ((cons_of_ne hne).2 ht)
      subst hc
      rw [cons_self, not_not] at h
      cases t with
      | nil => simp at h
      | cons d t =>
        have hd : d ≠ c := by
          rintro rfl
          rw [List.dropWhile_cons_of_pos (by simp)] at h
          exact cons_self.1 ht h
        rw [List.dropWhile_cons_of_neg (by simpa using hd)] at h
        obtain ⟨body, below, hbody, hnot⟩ := List.eq_append_cons_of_mem h
        refine ⟨[], body, below, by rw [hbody, List.nil_append], ?_, hnot⟩
        rintro rfl
        exact hd (List.cons.inj hbody).1
    · obtain ⟨above, body, below, rfl, hne, hbody⟩ := ih ht
      exact ⟨c :: above, body, below, rfl, hne, hbody⟩

theorem append_left_iff {s : Text} (hs : a ∉ s) : OneRun a (s ++ t) ↔ OneRun a t := by
  induction s with
  | nil => rfl
  | cons c s ih =>
    rw [List.mem_cons, not_or] at hs
    rw [List.cons_append, cons_of_ne (Ne.symm hs.1), ih hs.2]

theorem append_right_iff {s : Text} (hs : a ∉ s) : OneRun a (t ++ s) ↔ OneRun a t := by
  induction t with
  | nil => exact iff_of_true (of_not_mem hs) (of_not_mem List.not_mem_nil)
  | cons c t ih =>
    by_cases hc : c = a
    · subst hc
      rw [List.cons_append, cons_self, cons_self, List.dropWhile_append]
      split
      · next hempty =>
        have hrest : c ∉ s.dropWhile (· == c) := fun h => hs ((List.dropWhile_sublist _).subset h)
        rw [List.isEmpty_iff.1 hempty]
        exact iff_of_true hrest List.not_mem_nil
      · rw [List.mem_append, not_or]
        exact and_iff_left hs
    · rw [List.cons_append, cons_of_ne hc, cons_of_ne hc, ih]

end OneRun

namespace Delimited

/-- In a single run no style finds a span whose body may not start with the delimiter. -/
theorem found_eq_nil_of_oneRun {s : Delimited} (huses : s.UsesDelimiters)
    (hstart : s.bodyMayStartWithMark = false) {t : Text}
    (ht : ∀ mark ∈ s.marks, ∀ a ∈ mark, OneRun a t) : s.pattern.found t = [] := by
  apply Pattern.found_eq_nil
  intro u hu
  cases hs : s.spanAt? u with
  | none => exact hs
  | some span =>
    obtain ⟨mark, hmark, body, hu', -, -, hnot⟩ := spanAt?_shape hs
    obtain ⟨m, n, rfl⟩ := huses mark hmark
    have hrun : OneRun m.char u :=
      (ht _ hmark m.char (by rw [List.replicate_succ]; exact List.mem_cons_self)).of_suffix hu
    -- all that stands between the two delimiters is the delimiter's character
    obtain ⟨k, rfl⟩ : ∃ k, body = List.replicate k m.char := by
      have hpair : OneRun m.char (m.char :: ((List.replicate n m.char ++ body) ++
          m.char :: (List.replicate n m.char ++ span.2))) := by
        rw [hu', List.replicate_succ] at hrun
        simpa using hrun
      exact ⟨_, List.eq_replicate_length.2 fun d hd => hpair.eq_of_mem d (List.mem_append_right _ hd)⟩
    have hcomm : List.replicate k m.char ++ List.replicate (n + 1) m.char =
        List.replicate (n + 1) m.char ++ List.replicate k m.char := by
      rw [List.replicate_append_replicate, List.replicate_append_replicate, Nat.add_comm]
    refine absurd ?_ (hnot hstart)
    rw [hcomm, List.append_assoc]
    exact List.prefix_append _ _

/-- Where emphasis finds no span, its delimiters are single runs. -/
theorem oneRun_of_found_eq_nil {t : Text} (hbreak : '\n' ∉ t) (h : emphasis.pattern.found t = [])
    {a : Char} (ha : [a] ∈ emphasis.marks) : OneRun a t := by
  by_contra hrun
  obtain ⟨above, body, below, rfl, hne, hbody⟩ := OneRun.exists_of_not hrun
  have hline : '\n' ∉ body := fun hm => hbreak (by simp [hm])
  exact absurd (Pattern.spanAt?_eq_none_of_suffix h (List.suffix_append above _))
    (spanAt?_ne_none ha hne hbody hline below)

/-- One line without backticks and inline tags is, up to its links, left alone by the inline formats
exactly if its asterisks are a single run, and its underscores too. -/
theorem links_inlineFormats_eq_iff {t : Text} (hbreak : '\n' ∉ t) (htick : '`' ∉ t)
    (htags : ∀ e : InlineElement, ¬ openTag e.name <:+: t) :
    Link.links (inlineFormats t) = Link.links t ↔ OneRun '*' t ∧ OneRun '_' t := by
  constructor
  · intro h
    have hnone : ∀ e : InlineElement, ¬ openTag e.name <:+: inlineFormats t := by
      intro e
      rw [← e.isInfix_links_iff, h, e.isInfix_links_iff]
      exact htags e
    have hem := (found_eq_nil_of_no_tags hnone).1
    exact ⟨oneRun_of_found_eq_nil hbreak hem (by decide), oneRun_of_found_eq_nil hbreak hem (by decide)⟩
  · rintro ⟨hasterisk, hunderscore⟩
    have hstrong : strong.format t = t := by
      apply Pattern.replace_eq_self_of_found_eq_nil
      exact found_eq_nil_of_oneRun usesDelimiters_strong rfl (by simp [strong, hasterisk, hunderscore])
    have hem : emphasis.format t = t := by
      apply Pattern.replace_eq_self_of_found_eq_nil
      exact found_eq_nil_of_oneRun usesDelimiters_emphasis rfl
        (by simp [emphasis, hasterisk, hunderscore])
    have hcode : code.format t = t := format_eq_self (by simp [code, htick])
    rw [inlineFormats, hstrong, hem, hcode]

end Delimited

/-! ## Before the inline formats -/

/-- No pass over the blocks reads a line that starts with the character. -/
def StartsNoBlock (c : Char) : Prop :=
  isBlank c = false ∧ isDecimalDigit c = false ∧ c ∉ Rule.marks ∧ c ∉ Listing.bullets ∧
    c ≠ '>' ∧ c ≠ '#'

instance (c : Char) : Decidable (StartsNoBlock c) := inferInstanceAs (Decidable (_ ∧ _))

/-- One line that starts no block is left alone. -/
theorem blocks_eq_self {c : Char} (hc : StartsNoBlock c) {t : Text}
    (hbreak : '\n' ∉ c :: t ∧ '\r' ∉ c :: t) : blocks (c :: t) = c :: t := by
  obtain ⟨hblank, hdigit, hrule, hbullet, hquote, hheading⟩ := hc
  have hbody := Line.ofText_of_break_not_mem hbreak
  have hlines := lines_of_break_not_mem hbreak.1
  have hisRule : Rule.isRule (c :: t) = false :=
    Bool.eq_false_iff.2 fun h => hrule (Rule.mem_marks_of_isRule h List.mem_cons_self)
  have hrules : Rule.horizontalRules (c :: t) = c :: t :=
    Rule.horizontalRules_eq_self (by simpa [hbody] using hisRule)
  have htables : Table.tables (c :: t) = c :: t := by
    apply Table.tables_eq_self
    rw [hlines]
    exact List.isChain_singleton _
  have hquotes : QuoteLine.blockquotes (c :: t) = c :: t :=
    QuoteLine.blockquotes_eq_self (by simpa [hlines] using QuoteLine.ofLine?_cons hquote t)
  have hlists : Listing.lists (c :: t) = c :: t :=
    Listing.lists_eq_self (by simpa [hlines] using Listing.item?_cons hblank hbullet hdigit t)
  have hheadings : Heading.headings (c :: t) = c :: t :=
    Heading.headings_eq_self (by simpa [hbody] using Heading.ofLine?_cons hheading t)
  simp only [blocks, Pass.applyAll, List.foldl_cons, List.foldl_nil, Pass.apply]
  rw [hrules, htables, hquotes, hlists, hheadings]

/-! ## References -/

/-- A destination as it is written in a reference: it is not empty, and nothing in it ends the
reference, the attribute it becomes or the tag around that, or opens another construct. -/
def IsDestination (u : Text) : Prop :=
  u ≠ [] ∧ ∀ c ∈ u, isBlank c = false ∧ c ∉ ['(', ')', '[', ']', '"', '\'', '<', '>', '`']

instance (u : Text) : Decidable (IsDestination u) := inferInstanceAs (Decidable (_ ∧ _))

theorem IsDestination.not_mem {u : Text} (h : IsDestination u) {c : Char}
    (hc : isBlank c = true ∨ c ∈ ['(', ')', '[', ']', '"', '\'', '<', '>', '`']) : c ∉ u := by
  intro hm
  obtain ⟨hblank, hmark⟩ := h.2 c hm
  rcases hc with hc | hc
  · simp [hblank] at hc
  · exact hmark hc

theorem Link.links_markdown {l : Link} (htext : l.text ≠ [] ∧ ']' ∉ l.text)
    (hurl : l.url ≠ [] ∧ ')' ∉ l.url) : links l.markdown = l.html :=
  Pattern.replace_of_append (links_markdown_append htext hurl)

namespace Image

/-- How an image without a title is written. -/
def markdown (alt source : Text) : Text := '!' :: '[' :: alt ++ ']' :: '(' :: source ++ [')']

theorem images_markdown {alt source : Text} (halt : ']' ∉ alt) (hsource : IsSource source) :
    images (markdown alt source) = (⟨alt, source, none⟩ : Image).html := by
  have hreference : markdown alt source = (⟨alt, source, none⟩ : Image).reference := by
    simp [markdown, reference, titleMarkdown]
  rw [hreference]
  exact Pattern.replace_of_append (images_reference_append halt hsource (by simp))

/-- The element of an image has, besides its source, none of the characters that later passes look
for. -/
theorem html_shape {w : Text} (hw : IsWord w) (u : Text) :
    ∃ before behind, (⟨w, u, none⟩ : Image).html = before ++ u ++ behind ∧
      ∀ c ∈ ['*', '_', '`', '\n', '['], c ∉ before ∧ c ∉ behind := by
  have hfixed : ∀ c ∈ ['*', '_', '`', '\n', '['], c.isAlpha = false ∧ c ∉ "<img src=\"".toList ∧
      c ∉ "\" alt=\"".toList ∧ c ∉ ['"'] ++ (titleAttribute none ++
        (" onerror=\"this.onerror=null;this.src='".toList ++ (fallback ++ "';\">".toList))) := by
    decide +kernel
  refine ⟨"<img src=\"".toList, "\" alt=\"".toList ++ (w ++ (['"'] ++ (titleAttribute none ++
    (" onerror=\"this.onerror=null;this.src='".toList ++ (fallback ++ "';\">".toList))))), ?_, ?_⟩
  · unfold html
    simp only [List.append_assoc]
  · intro c hc
    obtain ⟨hletter, hsource, halt, hrest⟩ := hfixed c hc
    refine ⟨hsource, ?_⟩
    rw [List.mem_append, List.mem_append, not_or, not_or]
    exact ⟨halt, hw.not_mem hletter, hrest⟩

end Image

/-! ## All passes -/

/-- What stands around a reference has to be looked for in the word and the destination only. -/
theorem not_mem_markdown {w u : Text} (hw : IsWord w) (hu : IsDestination u) {c : Char}
    (hc : c ∈ ['\n', '\r', '`', '<']) :
    c ∉ (⟨w, u⟩ : Link).markdown ∧ c ∉ Image.markdown w u := by
  have hchars : ∀ c ∈ ['\n', '\r', '`', '<'], c.isAlpha = false ∧ c ∉ ['!', '[', ']', '(', ')'] ∧
      (isBlank c = true ∨ c ∈ ['(', ')', '[', ']', '"', '\'', '<', '>', '`']) := by decide
  obtain ⟨hletter, hmark, hdestination⟩ := hchars c hc
  have hword := hw.not_mem hletter
  have haddress := hu.not_mem hdestination
  simp only [List.mem_cons, List.not_mem_nil, or_false, not_or] at hmark
  constructor
  · simp [Link.markdown, hword, haddress, hmark]
  · simp [Image.markdown, hword, haddress, hmark]

/-- No pass before the inline formats changes a link. -/
theorem beforeFormats_link {w u : Text} (hw : IsWord w) (hu : IsDestination u) :
    beforeFormats (⟨w, u⟩ : Link).markdown = (⟨w, u⟩ : Link).markdown := by
  have hnot := fun c hc => (not_mem_markdown hw hu (c := c) hc).1
  have hblocks : blocks (⟨w, u⟩ : Link).markdown = (⟨w, u⟩ : Link).markdown :=
    blocks_eq_self (c := '[') (by decide) ⟨hnot '\n' (by decide), hnot '\r' (by decide)⟩
  have himage : ¬ ['!', '['] <:+: (⟨w, u⟩ : Link).markdown := by
    intro h
    rcases List.infix_cons_iff.1 h with h | h
    · exact absurd (List.cons_prefix_cons.1 h).1 (by decide)
    · have hbracket := h.subset (List.mem_cons_of_mem _ List.mem_cons_self)
      simp [hw.not_mem (c := '[') (by decide), hu.not_mem (c := '[') (by decide)] at hbracket
  rw [beforeFormats, Fence.codeBlocks_eq_self_of_not_mem (hnot '`' (by decide)), hblocks,
    Image.images_eq_self_of_not_infix himage]

/-- The image pass is the only one before the inline formats that changes an image. -/
theorem beforeFormats_image {w u : Text} (hw : IsWord w) (hu : IsDestination u) :
    beforeFormats (Image.markdown w u) = (⟨w, u, none⟩ : Image).html := by
  have hnot := fun c hc => (not_mem_markdown hw hu (c := c) hc).2
  have hblocks : blocks (Image.markdown w u) = Image.markdown w u :=
    blocks_eq_self (c := '!') (by decide) ⟨hnot '\n' (by decide), hnot '\r' (by decide)⟩
  have hsource : ∀ c ∈ u, isBlank c = false ∧ c ≠ ')' := fun c hc =>
    ⟨(hu.2 c hc).1, ne_of_mem_of_not_mem hc (hu.not_mem (by decide))⟩
  rw [beforeFormats, Fence.codeBlocks_eq_self_of_not_mem (hnot '`' (by decide)), hblocks,
    Image.images_markdown (hw.not_mem (by decide)) ⟨hu.1, hsource⟩]

/-- A text that reaches the inline formats as one line without backticks goes through them unchanged
exactly if its asterisks are a single run there, and its underscores too. -/
theorem render_eq_links_iff {t : Text} (ht : '`' ∉ t ∧ '<' ∉ t)
    (hbefore : '\n' ∉ beforeFormats t ∧ '`' ∉ beforeFormats t) :
    render t = Link.links (beforeFormats t) ↔
      OneRun '*' (beforeFormats t) ∧ OneRun '_' (beforeFormats t) := by
  rw [render_eq]
  apply Delimited.links_inlineFormats_eq_iff hbefore.1 hbefore.2
  intro e
  apply e.not_isInfix_beforeFormats
  rw [Fence.codeBlocks_eq_self_of_not_mem ht.1]
  exact fun htag => ht.2 (htag.subset List.mem_cons_self)

/-- Around the address of a link there is neither an asterisk nor an underscore. -/
theorem Link.oneRun_markdown_iff {w : Text} (hw : IsWord w) (u : Text) {a : Char}
    (ha : a ∈ ['*', '_']) : OneRun a (⟨w, u⟩ : Link).markdown ↔ OneRun a u := by
  have hchars : ∀ a ∈ ['*', '_'], a.isAlpha = false ∧ a ∉ ['[', ']', '(', ')'] := by decide
  obtain ⟨hletter, hmark⟩ := hchars a ha
  simp only [List.mem_cons, List.not_mem_nil, or_false, not_or] at hmark
  have hshape : (⟨w, u⟩ : Link).markdown = ('[' :: w ++ [']', '(']) ++ u ++ [')'] := by
    simp [markdown]
  rw [hshape, OneRun.append_right_iff (by simp [hmark]),
    OneRun.append_left_iff (by simp [hmark, hw.not_mem hletter])]

/-- Around the source in the element of an image there is neither an asterisk nor an underscore. -/
theorem Image.oneRun_html_iff {w : Text} (hw : IsWord w) (u : Text) {a : Char}
    (ha : a ∈ ['*', '_']) : OneRun a (⟨w, u, none⟩ : Image).html ↔ OneRun a u := by
  obtain ⟨before, behind, hshape, hfixed⟩ := html_shape hw u
  obtain ⟨hbefore, hbehind⟩ := hfixed a (List.mem_append_left ['`', '\n', '['] ha)
  rw [hshape, OneRun.append_right_iff hbehind, OneRun.append_left_iff hbefore]

theorem Image.not_mem_html {w u : Text} (hw : IsWord w) (hu : IsDestination u) {c : Char}
    (hc : c ∈ ['`', '\n', '[']) : c ∉ (⟨w, u, none⟩ : Image).html := by
  have hchars : ∀ c ∈ ['`', '\n', '['], c ∈ ['*', '_', '`', '\n', '['] ∧ (isBlank c = true ∨
      c ∈ ['(', ')', '[', ']', '"', '\'', '<', '>', '`']) := by decide
  obtain ⟨hmark, hdestination⟩ := hchars c hc
  obtain ⟨before, behind, hshape, hfixed⟩ := html_shape hw u
  obtain ⟨hbefore, hbehind⟩ := hfixed c hmark
  rw [hshape, List.mem_append, List.mem_append, not_or, not_or]
  exact ⟨⟨hbefore, hu.not_mem hdestination⟩, hbehind⟩

/-- **Which destinations are kept.** A link with a word for its text becomes the anchor with its
address, and an image with a word for its alternative text the element with its source, exactly if
all the asterisks of the destination stand side by side, and so do all its underscores. -/
theorem destination_kept_iff {w u : Text} (hw : IsWord w) (hu : IsDestination u) :
    (render (⟨w, u⟩ : Link).markdown = (⟨w, u⟩ : Link).html ↔ OneRun '*' u ∧ OneRun '_' u) ∧
    (render (Image.markdown w u) = (⟨w, u, none⟩ : Image).html ↔ OneRun '*' u ∧ OneRun '_' u) := by
  have hnot := fun c hc => not_mem_markdown hw hu (c := c) hc
  constructor
  · have hlinks : Link.links (⟨w, u⟩ : Link).markdown = (⟨w, u⟩ : Link).html :=
      Link.links_markdown ⟨hw.1, hw.not_mem (by decide)⟩ ⟨hu.1, hu.not_mem (by decide)⟩
    have hiff := render_eq_links_iff (t := (⟨w, u⟩ : Link).markdown)
      ⟨(hnot '`' (by decide)).1, (hnot '<' (by decide)).1⟩
    rw [beforeFormats_link hw hu, hlinks] at hiff
    rw [hiff ⟨(hnot '\n' (by decide)).1, (hnot '`' (by decide)).1⟩,
      Link.oneRun_markdown_iff hw u (by decide), Link.oneRun_markdown_iff hw u (by decide)]
  · have hchars := fun c hc => Image.not_mem_html hw hu (c := c) hc
    have hlinks : Link.links (⟨w, u, none⟩ : Image).html = (⟨w, u, none⟩ : Image).html :=
      Link.links_eq_self (hchars '[' (by decide))
    have hiff := render_eq_links_iff (t := Image.markdown w u)
      ⟨(hnot '`' (by decide)).2, (hnot '<' (by decide)).2⟩
    rw [beforeFormats_image hw hu, hlinks] at hiff
    rw [hiff ⟨hchars '\n' (by decide), hchars '`' (by decide)⟩,
      Image.oneRun_html_iff hw u (by decide), Image.oneRun_html_iff hw u (by decide)]

/-- Repeated characters of one kind do no harm. -/
theorem destination_kept_dunder :
    IsWord "home".toList ∧ IsDestination "https://x.y/__init.py?q=a-b~c#d**".toList ∧
    render (⟨"home".toList, "https://x.y/__init.py?q=a-b~c#d**".toList⟩ : Link).markdown =
      (⟨"home".toList, "https://x.y/__init.py?q=a-b~c#d**".toList⟩ : Link).html ∧
    render (Image.markdown "home".toList "https://x.y/__init.py?q=a-b~c#d**".toList) =
      (⟨"home".toList, "https://x.y/__init.py?q=a-b~c#d**".toList, none⟩ : Image).html := by
  have hw : IsWord "home".toList := by decide
  have hu : IsDestination "https://x.y/__init.py?q=a-b~c#d**".toList := by decide +kernel
  have hrun : OneRun '*' "https://x.y/__init.py?q=a-b~c#d**".toList ∧
      OneRun '_' "https://x.y/__init.py?q=a-b~c#d**".toList := by decide +kernel
  exact ⟨hw, hu, (destination_kept_iff hw hu).1.2 hrun, (destination_kept_iff hw hu).2.2 hrun⟩

/-- Two underscores in a destination mark what is between them as emphasis. -/
theorem destination_emphasised : IsWord "a".toList ∧ IsDestination "x_y_z".toList ∧
    render (⟨"a".toList, "x_y_z".toList⟩ : Link).markdown ≠
      (⟨"a".toList, "x_y_z".toList⟩ : Link).html ∧
    render (Image.markdown "a".toList "x_y_z".toList) ≠
      (⟨"a".toList, "x_y_z".toList, none⟩ : Image).html := by
  decide +kernel

end MarkdownPreview

import MarkdownPreview.Proofs.BlockWeight
import MarkdownPreview.Proofs.SpanShape
/-!
# What the rewritings weigh

A rewriting replaces spans, and a span starts and ends where a text can be cut. So the weight of the
text changes by what the spans lose, span by span along the walk (`of_replace`): nothing for strong
text, emphasis, images and links, and all that was in them for code, which is encoded.
-/

namespace MarkdownPreview

open Text

theorem Image.isMarkup_html (i : Image) : IsMarkup i.html := by
  have hhead : "<img src=\"".toList.head? = some '<' := by decide
  have hlast : "';\">".toList.getLast? = some '>' := by decide
  unfold IsMarkup Image.html
  refine ⟨?_, by rw [List.getLast?_append, hlast, Option.some_or]⟩
  simp only [List.append_assoc]
  rw [List.head?_append, hhead, Option.some_or]

theorem Link.isMarkup_html (l : Link) : IsMarkup l.html := by
  have hhead : "<a href=\"".toList.head? = some '<' := by decide
  have hlast : "</a>".toList.getLast? = some '>' := by decide
  unfold IsMarkup Link.html
  refine ⟨?_, by rw [List.getLast?_append, hlast, Option.some_or]⟩
  simp only [List.append_assoc]
  rw [List.head?_append, hhead, Option.some_or]

/-- The text the inline formats read. -/
def beforeFormats (t : Text) : Text := Image.images (blocks (Fence.codeBlocks t))

theorem render_eq (t : Text) : render t = Link.links (Delimited.inlineFormats (beforeFormats t)) := by
  simp only [render, beforeFormats, blocks, Pass.all, Pass.applyAll, List.foldl_cons,
    List.foldl_nil, Pass.apply]

namespace Weight

variable {w : Weight}

/-! ## Rewritings -/

/-- **The weight of a rewritten text.** If a span starts and ends at cuts, becomes markup and loses
a certain weight by it, the text loses what its spans lose. The induction is along the walk over the
text; `s` is what was copied before. -/
theorem of_replace {p : Pattern} (loss : Text → Int)
    (h : ∀ t out rest, p.spanAt? t = some (out, rest) → ∃ read, t = read ++ rest ∧ IsMarkup out ∧
      (∀ s, w.of (s ++ read ++ rest) = w.of s + w.of read + w.of rest) ∧
        w.of out + loss read = w.of read)
    (t : Text) : ∀ s, w.of (s ++ p.replace t) + ((p.found t).map loss).sum = w.of (s ++ t) := by
  induction t using Pattern.walk_induction (p := p) with
  | nil => intro s; simp [Pattern.replace_nil, Pattern.found_nil]
  | span t out rest hs ih =>
    intro s
    obtain ⟨read, rfl, hout, hcut, hloss⟩ := h t out rest hs
    have ih := ih []
    simp only [List.nil_append] at ih
    rw [Pattern.replace_of_spanAt? hs, Pattern.found_of_spanAt? hs rfl, ← List.append_assoc,
      ← List.append_assoc,
      w.of_append_markup hout, hcut, List.map_cons, List.sum_cons]
    omega
  | copy c t hs ih =>
    intro s
    have ih := ih (s ++ [c])
    rw [Pattern.replace_cons hs, Pattern.found_cons hs]
    simpa using ih

theorem of_replace_eq {p : Pattern}
    (h : ∀ t out rest, p.spanAt? t = some (out, rest) → ∃ read, t = read ++ rest ∧ IsMarkup out ∧
      (∀ s, w.of (s ++ read ++ rest) = w.of s + w.of read + w.of rest) ∧ w.of out = w.of read)
      (t : Text) :
    w.of (p.replace t) = w.of t := by
  have hsum := of_replace (w := w) (fun _ => 0) (fun t out rest hs => by
    obtain ⟨read, h1, h2, h3, h4⟩ := h t out rest hs
    exact ⟨read, h1, h2, h3, by omega⟩) t []
  have hzero : ((p.found t).map fun _ => (0 : Int)).sum = 0 := by
    rw [List.map_const', List.sum_replicate_int, Int.mul_zero]
  rw [hzero] at hsum
  simpa using hsum

/-! ## Delimited spans -/

/-- The delimiter weighs nothing and can be cut out. -/
def IgnoresMark (w : Weight) (mark : Text) : Prop := ∀ a b, w.of (a ++ mark ++ b) = w.of a + w.of b

theorem of_span {mark : Text} (h : w.IgnoresMark mark) (body : Text) :
    w.of (mark ++ body ++ mark) = w.of body ∧
    ∀ s rest, w.of (s ++ (mark ++ body ++ mark) ++ rest) =
      w.of s + w.of (mark ++ body ++ mark) + w.of rest := by
  have hread : w.of (mark ++ body ++ mark) = w.of body := by
    have h1 := h (mark ++ body) []
    have h2 := h [] body
    simp only [List.append_nil, List.nil_append, of_nil] at h1 h2
    omega
  refine ⟨hread, fun s rest => ?_⟩
  have h1 := h s (body ++ mark ++ rest)
  have h2 := h body rest
  simp only [List.append_assoc] at h1 h2 hread ⊢
  rw [h1, h2, hread]
  omega

/-- Formatting keeps the weight of a text if what is written keeps the weight of a body. -/
theorem of_format_of_write {style : Delimited} (hmarkup : ∀ body, IsMarkup (style.write body))
    (hwrite : ∀ body, w.of (style.write body) = w.of body)
    (hmarks : ∀ mark ∈ style.marks, w.IgnoresMark mark) (t : Text) :
    w.of (style.format t) = w.of t := by
  refine of_replace_eq (fun t out rest hs => ?_) t
  obtain ⟨mark, hm, body, rfl, rfl, -⟩ := Delimited.spanAt?_eq_some hs
  obtain ⟨hread, hcut⟩ := of_span (hmarks mark hm) body
  exact ⟨_, rfl, hmarkup body, fun s => hcut s rest, (hwrite body).trans hread.symm⟩

theorem of_format {style : Delimited} {name : Text}
    (hwrite : ∀ body, style.write body = element name body)
    (hmarks : ∀ mark ∈ style.marks, w.IgnoresMark mark) (hn : w.Neutral name) (t : Text) :
    w.of (style.format t) = w.of t := by
  refine of_format_of_write (fun body => ?_) (fun body => ?_) hmarks t
  · rw [hwrite]
    exact isMarkup_element _ _
  · rw [hwrite]
    exact w.of_element_of_neutral hn body

/-- Code spans take away the weight they enclose if encoded text weighs nothing. -/
theorem of_code (hmarks : ∀ mark ∈ Delimited.code.marks, w.IgnoresMark mark)
    (hn : w.Neutral "code".toList)
    (hencode : ∀ b, w.of (Entity.encode b) = 0) (t : Text) :
    w.of (Delimited.code.format t) + ((Delimited.code.pattern.found t).map w.of).sum = w.of t := by
  refine of_replace w.of (fun t out rest hs => ?_) t []
  obtain ⟨mark, hm, body, rfl, rfl, -⟩ := Delimited.spanAt?_eq_some hs
  obtain ⟨-, hcut⟩ := of_span (hmarks mark hm) body
  have hwrite : w.of (Delimited.code.write body) = 0 :=
    (w.of_element_of_neutral hn _).trans (hencode body)
  exact ⟨_, rfl, isMarkup_element _ _, fun s => hcut s rest, by omega⟩

/-- Code blocks do as code spans do. -/
theorem of_codeBlocks (hmark : w.IgnoresMark Fence.mark) (hp : w.Neutral "pre".toList)
    (hc : w.Neutral "code".toList)
    (hencode : ∀ b, w.of (Entity.encode b) = 0) (t : Text) :
    w.of (Fence.codeBlocks t) + ((Fence.pattern.found t).map w.of).sum = w.of t := by
  refine of_replace w.of (fun t out rest hs => ?_) t []
  obtain ⟨code, rfl, rfl⟩ := Fence.blockAt?_eq_some hs
  obtain ⟨-, hcut⟩ := of_span hmark code
  have hblock : w.of (Fence.block code) = 0 := by
    unfold Fence.block
    rw [w.of_element_of_neutral hp, w.of_element_of_neutral hc, hencode]
  exact ⟨_, rfl, isMarkup_element _ _, fun s => hcut s rest, by omega⟩

/-! ## References -/

/-- The brackets of references and the tags that are written for them weigh nothing. -/
structure IgnoresReferences (w : Weight) : Prop where
  openBracket : w.of ['['] = 0
  closeBracket : w.of [']'] = 0
  source : w.of "<img src=\"".toList = 0
  alt : w.of "\" alt=\"".toList = 0
  title : w.of " title=\"".toList = 0
  handler :
    w.of (" onerror=\"this.onerror=null;this.src='".toList ++ Image.fallback ++ "';\">".toList) = 0
  link : w.of "<a href=\"".toList + w.of "\" target=\"_blank\" rel=\"noopener noreferrer\">".toList +
    w.of "</a>".toList = 0

instance : Decidable w.IgnoresReferences :=
  decidable_of_iff (w.of ['['] = 0 ∧ w.of [']'] = 0 ∧ w.of "<img src=\"".toList = 0 ∧
      w.of "\" alt=\"".toList = 0 ∧
      w.of " title=\"".toList = 0 ∧
      w.of (" onerror=\"this.onerror=null;this.src='".toList ++ Image.fallback ++ "';\">".toList) =
        0 ∧
      w.of "<a href=\"".toList + w.of "\" target=\"_blank\" rel=\"noopener noreferrer\">".toList +
        w.of "</a>".toList = 0)
    ⟨fun ⟨h1, h2, h3, h4, h5, h6, h7⟩ => ⟨h1, h2, h3, h4, h5, h6, h7⟩,
      fun ⟨h1, h2, h3, h4, h5, h6, h7⟩ => ⟨h1, h2, h3, h4, h5, h6, h7⟩⟩

theorem of_cons_separator {c : Char} (h : isSeparator c = true) (t : Text) :
    w.of (c :: t) = w.of [c] + w.of t := by
  simpa using w.of_separator h [] t

/-- The weight of an optional title. -/
def ofTitle (w : Weight) : Option Text → Int
  | none => 0
  | some title => w.of title

theorem of_ending {title : Option Text} {e : Text} (h : Image.Ending title e) (s : Text) :
    w.of (s ++ e) = w.of s + w.ofTitle title := by
  cases h with
  | plain => rw [w.of_append_cons (by decide), w.of_nil]; rfl
  | @titled blanks title hne hb =>
    have hquote : w.of ['"'] = 0 := w.of_markers _ rfl
    have hparen : w.of [')'] = 0 := w.of_markers _ rfl
    rw [List.append_assoc, w.of_append_blanks_append hb hne, List.cons_append, of_cons_separator rfl,
      w.of_separator rfl, hquote, hparen, ofTitle]
    omega

theorem of_titleAttribute (hw : w.IgnoresReferences) : ∀ title : Option Text,
    w.of (Image.titleAttribute title) = w.ofTitle title
  | none => w.of_nil
  | some title => by
    have hopen := w.of_append_of_getLast? (m := " title=\"".toList) (y := '"') rfl (Or.inr rfl) title
    have hquote : w.of ['"'] = 0 := w.of_markers _ rfl
    rw [show Image.titleAttribute (some title) = " title=\"".toList ++ title ++ ['"'] from rfl,
      w.cut_before _ '"' [] (Or.inr rfl), hopen, hw.title, hquote, ofTitle]
    omega

theorem of_image (hw : w.IgnoresReferences) (i : Image) :
    w.of i.html = w.of i.source + w.of i.alt + w.ofTitle i.title := by
  have hsource := w.of_append_of_getLast? (m := "<img src=\"".toList) (y := '"') (by decide)
    (Or.inr rfl) i.source
  have halt :
      ∀ s t, w.of (s ++ "\" alt=\"".toList ++ t) = w.of s + w.of "\" alt=\"".toList + w.of t :=
    w.of_append_part (z := '"') (y := '"') (by decide) (by decide) (Or.inr rfl) (Or.inr rfl)
  have hquote := w.of_append_part (m := ['"']) (z := '"') (y := '"') rfl rfl (Or.inr rfl)
    (Or.inr rfl) i.alt
  have hhandler := w.of_append_of_head?
    (m := " onerror=\"this.onerror=null;this.src='".toList ++ Image.fallback ++ "';\">".toList)
    (z := ' ') (by decide) (Or.inr rfl) (Image.titleAttribute i.title)
  have hhtml : i.html = "<img src=\"".toList ++ i.source ++ "\" alt=\"".toList ++ (i.alt ++ ['"'] ++
      (Image.titleAttribute i.title ++
        (" onerror=\"this.onerror=null;this.src='".toList ++ Image.fallback ++ "';\">".toList))) := by
    unfold Image.html
    simp only [List.append_assoc]
  have hzero : w.of ['"'] = 0 := w.of_markers _ rfl
  rw [hhtml, halt, hsource, hquote, hhandler, of_titleAttribute hw, hw.source, hw.alt, hw.handler,
    hzero]
  omega

theorem of_images (hw : w.IgnoresReferences) (t : Text) : w.of (Image.images t) = w.of t := by
  refine of_replace_eq (fun t out rest hs => ?_) t
  obtain ⟨⟨i, r⟩, hi, he⟩ := Option.map_eq_some_iff.1 hs
  simp only [Prod.mk.injEq] at he
  obtain ⟨rfl, rfl⟩ := he
  obtain ⟨e, hend, rfl⟩ := Image.ofText?_eq_some hi
  refine ⟨'!' :: '[' :: i.alt ++ ']' :: '(' :: i.source ++ e, rfl, Image.isMarkup_html i,
    fun s => ?_, ?_⟩
  · exact w.of_append_part (z := '!') (y := ')') rfl
      (by rw [List.getLast?_append, hend.getLast?, Option.some_or])
      (Or.inr rfl) (Or.inr rfl) s _
  · have hbang : w.of ['!'] = 0 := w.of_markers _ rfl
    have hparen : w.of ['('] = 0 := w.of_markers _ rfl
    have hopen := of_cons_separator (w := w) (c := '!') rfl ('[' :: (i.alt ++ ']' :: '(' :: i.source))
    have hbracket := of_cons_separator (w := w) (c := '[') rfl (i.alt ++ ']' :: '(' :: i.source)
    have hclose := w.of_separator (c := ']') rfl i.alt ('(' :: i.source)
    have hsource := of_cons_separator (w := w) (c := '(') rfl i.source
    rw [of_image hw, of_ending hend, List.cons_append, List.cons_append, hopen, hbracket, hclose,
      hsource, hbang, hparen, hw.openBracket, hw.closeBracket]
    omega

theorem of_link (hw : w.IgnoresReferences) (l : Link) : w.of l.html = w.of l.url + w.of l.text := by
  have haddress := w.of_append_of_getLast? (m := "<a href=\"".toList) (y := '"') (by decide)
    (Or.inr rfl) l.url
  have htarget := w.of_append_part (m := "\" target=\"_blank\" rel=\"noopener noreferrer\">".toList)
    (z := '"') (y := '>')
    (by decide) (by decide) (Or.inr rfl) (Or.inl rfl) ("<a href=\"".toList ++ l.url) l.text
  have hend := w.of_append_of_head? (m := "</a>".toList) (z := '<') (by decide) (Or.inl rfl)
    ("<a href=\"".toList ++ l.url ++ "\" target=\"_blank\" rel=\"noopener noreferrer\">".toList
      ++ l.text)
  have htags := hw.link
  unfold Link.html
  rw [hend, htarget, haddress]
  omega

theorem of_links (hw : w.IgnoresReferences) (t : Text) : w.of (Link.links t) = w.of t := by
  refine of_replace_eq (fun t out rest hs => ?_) t
  obtain ⟨⟨l, r⟩, hl, he⟩ := Option.map_eq_some_iff.1 hs
  simp only [Prod.mk.injEq] at he
  obtain ⟨rfl, rfl⟩ := he
  refine ⟨'[' :: l.text ++ ']' :: '(' :: l.url ++ [')'], ?_, Link.isMarkup_html l, fun s => ?_, ?_⟩
  · rw [Link.ofText?_eq_some hl]
    simp
  · exact w.of_append_part (z := '[') (y := ')') rfl List.getLast?_concat (Or.inr rfl)
      (Or.inr rfl) s r
  · have hparen : w.of ['('] = 0 := w.of_markers _ rfl
    have hbracket := of_cons_separator (w := w) (c := '[') rfl (l.text ++ ']' :: '(' :: l.url)
    have hclose := w.of_separator (c := ']') rfl l.text ('(' :: l.url)
    have hurl := of_cons_separator (w := w) (c := '(') rfl l.url
    have hlast := w.of_append_cons (c := ')') (by decide) ('[' :: l.text ++ ']' :: '(' :: l.url) []
    rw [of_link hw, hlast, List.cons_append, hbracket, hclose, hurl, hparen, hw.openBracket,
      hw.closeBracket, of_nil]
    omega

end Weight

end MarkdownPreview

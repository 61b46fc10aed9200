import Mathlib.Tactic.MkIffOfInductiveProp
import MarkdownPreview.Proofs.ReferenceForm
/-!
# References in sequence

A document is a row of parts: texts without references, images, links, and links whose text is an
image. Main result `links_images_parts`: the image pass and the link pass write each part as its
element, in the order of the document, whatever stands next to it.

The step lemmas are `images_part` and `links_part`, with one case for each kind of part: a part in
front of any text is read as a whole, and the pass goes on right behind it. Between the two passes an
image is an element already (`Part.afterImages`). It has no bracket, so the link pass copies it where
it stands alone and takes it for the text of a link where it stands in one.
-/

namespace MarkdownPreview

open Text

/-- A pass that reads each part of a text as a whole, whatever follows it, reads them in their
order. -/
theorem Text.Pattern.replace_flatMap {α : Type} {p : Pattern} {read written : α → Text} {as : List α}
    (h : ∀ a ∈ as, ∀ rest, p.replace (read a ++ rest) = written a ++ p.replace rest) :
    p.replace (as.flatMap read) = as.flatMap written := by
  induction as with
  | nil => exact replace_nil p
  | cons a as ih =>
    rw [List.forall_mem_cons] at h
    rw [List.flatMap_cons, h.1, ih h.2, List.flatMap_cons]

/-! ## Parts of a document -/

/-- No square bracket, so nothing that opens a reference or ends its text. -/
def Unbracketed (t : Text) : Prop := '[' ∉ t ∧ ']' ∉ t

instance (t : Text) : Decidable (Unbracketed t) := inferInstanceAs (Decidable (_ ∧ _))

theorem unbracketed_append {s t : Text} : Unbracketed (s ++ t) ↔ Unbracketed s ∧ Unbracketed t := by
  unfold Unbracketed
  rw [List.mem_append, List.mem_append, not_or, not_or]
  exact and_and_and_comm

instance (source : Text) : Decidable (Image.IsSource source) := inferInstanceAs (Decidable (_ ∧ _))

instance (title : Text) : Decidable (Image.IsTitle title) := inferInstanceAs (Decidable (_ ∧ _))

/-- An image that can be written: its source and its title are, and nothing in it is bracketed. -/
@[mk_iff]
structure Image.Writable (i : Image) : Prop where
  alt : Unbracketed i.alt
  source : Unbracketed i.source
  isSource : IsSource i.source
  title : ∀ t ∈ i.title, Unbracketed t ∧ IsTitle t

instance (i : Image) : Decidable i.Writable := decidable_of_iff _ (Image.writable_iff i).symm

/-- An address that can be written. -/
@[mk_iff]
structure Link.IsAddress (url : Text) : Prop where
  unbracketed : Unbracketed url
  ne_nil : url ≠ []
  not_mem : ')' ∉ url

instance (url : Text) : Decidable (Link.IsAddress url) :=
  decidable_of_iff _ (Link.isAddress_iff url).symm

/-- What a document is made of. -/
inductive Part
  /-- A text in which no reference starts. -/
  | filler (t : Text)
  | image (i : Image)
  | link (l : Link)
  /-- A link whose text is an image. -/
  | linkedImage (i : Image) (url : Text)

namespace Part

/-- How a part is written. -/
def markdown : Part → Text
  | filler t => t
  | image i => i.reference
  | link l => l.markdown
  | linkedImage i url => (⟨i.reference, url⟩ : Link).markdown

/-- What the image pass makes of a part. -/
def afterImages : Part → Text
  | filler t => t
  | image i => i.html
  | link l => l.markdown
  | linkedImage i url => (⟨i.html, url⟩ : Link).markdown

/-- The element of an image: its source, its text, its title if it has one, and a handler that shows
the placeholder in its place if it cannot be loaded. -/
def img (i : Image) : Text :=
  "<img src=\"".toList ++ i.source ++ "\" alt=\"".toList ++ i.alt ++ "\"".toList ++
    (match i.title with
      | some title => " title=\"".toList ++ title ++ "\"".toList
      | none => []) ++
    " onerror=\"this.onerror=null;this.src='/image-placeholder.jpg';\">".toList

/-- The element of a link around some content. -/
def anchor (url content : Text) : Text :=
  "<a href=\"".toList ++ url ++ "\" target=\"_blank\" rel=\"noopener noreferrer\">".toList ++
    content ++ "</a>".toList

/-- What is shown for a part. -/
def html : Part → Text
  | filler t => t
  | image i => img i
  | link l => anchor l.url l.text
  | linkedImage i url => anchor url (img i)

theorem img_eq (i : Image) : img i = i.html := by
  have hend : " onerror=\"this.onerror=null;this.src='/image-placeholder.jpg';\">".toList =
      " onerror=\"this.onerror=null;this.src='".toList ++ Image.fallback ++ "';\">".toList := by
    decide +kernel
  unfold img Image.html
  rw [hend]
  simp only [List.append_assoc]
  cases i.title <;> rfl

theorem anchor_eq (l : Link) : anchor l.url l.text = l.html := rfl

/-- A part that is read back as it is written. -/
def Writable : Part → Prop
  | filler t => '[' ∉ t ∧ '!' ∉ t
  | image i => i.Writable
  | link l => (Unbracketed l.text ∧ l.text ≠ []) ∧ Link.IsAddress l.url
  | linkedImage i url => i.Writable ∧ Link.IsAddress url

instance : (e : Part) → Decidable e.Writable
  | filler _ => inferInstanceAs (Decidable (_ ∧ _))
  | image i => inferInstanceAs (Decidable i.Writable)
  | link _ => inferInstanceAs (Decidable (_ ∧ _))
  | linkedImage _ _ => inferInstanceAs (Decidable (_ ∧ _))

end Part

/-! ## The image pass -/

namespace Image

theorem spanAt?_cons {c : Char} (hc : c ≠ '!') (t : Text) : pattern.spanAt? (c :: t) = none := by
  simp [pattern, ofText?, isPrefixOf?_cons_cons, Ne.symm hc]

/-- An image starts with `![`, so a text without a bracket is copied, unless the mark at its end
stands in front of one. -/
theorem images_append {s : Text} {c : Char} (hs : '[' ∉ s) (hc : c ≠ '!' ∧ c ≠ '[') (rest : Text) :
    images (s ++ c :: rest) = s ++ c :: images rest := by
  induction s with
  | nil => exact Pattern.replace_cons (spanAt?_cons hc.1 rest)
  | cons d s ih =>
    rw [List.mem_cons, not_or] at hs
    have hnone : pattern.spanAt? (d :: (s ++ c :: rest)) = none := by
      cases s with
      | nil => simp [pattern, ofText?, isPrefixOf?_cons_cons, Ne.symm hc.2]
      | cons e s =>
        have he : e ≠ '[' := ne_of_mem_of_not_mem List.mem_cons_self hs.2
        simp [pattern, ofText?, isPrefixOf?_cons_cons, Ne.symm he]
    rw [List.cons_append, images, Pattern.replace_cons hnone, ← images, ih hs.2, List.cons_append]

/-- The bracket that opens a link is copied, with or without an image behind it. -/
theorem images_bracket (rest : Text) : images ('[' :: rest) = '[' :: images rest :=
  Pattern.replace_cons (spanAt?_cons (by decide) rest)

/-- What stands between the text of a link and the text behind the link is copied. -/
theorem images_address {url : Text} (hurl : '[' ∉ url) (rest : Text) :
    images (']' :: '(' :: url ++ ')' :: rest) = ']' :: '(' :: url ++ ')' :: images rest := by
  refine images_append ?_ (by decide) rest
  simp [hurl]

end Image

/-- The image pass writes the images of a part, and goes on behind it. -/
theorem images_part {e : Part} (he : e.Writable) (rest : Text) :
    Image.images (e.markdown ++ rest) = e.afterImages ++ Image.images rest := by
  cases e with
  | filler t =>
    refine Pattern.replace_append ?_ rest
    intro c hc t
    exact Image.spanAt?_cons (ne_of_mem_of_not_mem hc he.2) t
  | image i =>
    have htitle : ∀ t ∈ i.title, Image.IsTitle t := fun t ht => (he.title t ht).2
    exact Image.images_reference_append he.alt.2 he.isSource htitle rest
  | link l =>
    obtain ⟨⟨htext, -⟩, hurl⟩ := he
    have hinner : '[' ∉ l.text ++ ']' :: '(' :: l.url := by
      simp [htext.1, hurl.unbracketed.1]
    have hcopy := Image.images_append (c := ')') hinner (by decide) rest
    simpa [Part.markdown, Part.afterImages, Link.markdown, Image.images_bracket] using hcopy
  | linkedImage i url =>
    obtain ⟨hi, hurl⟩ := he
    have htitle : ∀ t ∈ i.title, Image.IsTitle t := fun t ht => (hi.title t ht).2
    have himage := Image.images_reference_append hi.alt.2 hi.isSource htitle
      (']' :: '(' :: url ++ ')' :: rest)
    have haddress := Image.images_address hurl.unbracketed.1 rest
    rw [haddress] at himage
    simpa [Part.markdown, Part.afterImages, Link.markdown, Image.images_bracket] using himage

/-! ## The link pass -/

/-- The element of an image has the brackets of its parts only. -/
theorem Image.Writable.unbracketed_html {i : Image} (hi : i.Writable) : Unbracketed i.html := by
  have hfixed : Unbracketed "<img src=\"".toList ∧ Unbracketed "\" alt=\"".toList ∧
      Unbracketed ['"'] ∧ Unbracketed " title=\"".toList ∧
      Unbracketed " onerror=\"this.onerror=null;this.src='".toList ∧ Unbracketed fallback ∧
      Unbracketed "';\">".toList := by
    decide +kernel
  obtain ⟨hsource, halt, hquote, htitle, herror, hfallback, hclose⟩ := hfixed
  have hattribute : Unbracketed (titleAttribute i.title) := by
    cases ht : i.title with
    | none => exact ⟨List.not_mem_nil, List.not_mem_nil⟩
    | some title =>
      rw [show titleAttribute (some title) = " title=\"".toList ++ title ++ ['"'] from rfl,
        unbracketed_append, unbracketed_append]
      exact ⟨⟨htitle, (hi.title title ht).1⟩, hquote⟩
  unfold html
  simp only [unbracketed_append]
  exact ⟨⟨⟨⟨⟨⟨⟨⟨hsource, hi.source⟩, halt⟩, hi.alt⟩, hquote⟩, hattribute⟩, herror⟩, hfallback⟩, hclose⟩

/-- Behind the image pass, the link pass writes the link that a part is, and goes on behind it. -/
theorem links_part {e : Part} (he : e.Writable) (rest : Text) :
    Link.links (e.afterImages ++ rest) = e.html ++ Link.links rest := by
  cases e with
  | filler t => exact Link.links_append he.1 rest
  | image i =>
    rw [Part.html, Part.img_eq]
    exact Link.links_append (Image.Writable.unbracketed_html he).1 rest
  | link l =>
    obtain ⟨⟨htext, hne⟩, hurl⟩ := he
    rw [Part.html, Part.anchor_eq]
    exact Link.links_markdown_append ⟨hne, htext.2⟩ ⟨hurl.ne_nil, hurl.not_mem⟩ rest
  | linkedImage i url =>
    obtain ⟨hi, hurl⟩ := he
    have hne : i.html ≠ [] := by
      unfold Image.html
      simp only [ne_eq, List.append_eq_nil_iff, hi.isSource.1, false_and, and_false, not_false_eq_true]
    rw [Part.html, Part.img_eq, Part.anchor_eq ⟨i.html, url⟩]
    exact Link.links_markdown_append (l := ⟨i.html, url⟩) ⟨hne, hi.unbracketed_html.2⟩
      ⟨hurl.ne_nil, hurl.not_mem⟩ rest

/-! ## Both passes -/

/-- **References in sequence.** The image pass and then the link pass leave the fillers of a document
as they are, and write each image, each link and each linked image as its element, in their order. -/
theorem links_images_parts {es : List Part} (h : ∀ e ∈ es, e.Writable) :
    Link.links (Image.images (es.flatMap Part.markdown)) = es.flatMap Part.html := by
  have himages : Image.images (es.flatMap Part.markdown) = es.flatMap Part.afterImages :=
    Pattern.replace_flatMap fun e he => images_part (h e he)
  have hlinks : Link.links (es.flatMap Part.afterImages) = es.flatMap Part.html :=
    Pattern.replace_flatMap fun e he => links_part (h e he)
  rw [himages, hlinks]

/-- A title with a parenthesis and a line break, a mark at the end of a link's text, and references
that stand side by side. -/
theorem links_images_parts_row :
    Link.links (Image.images
      "](x) ![a!](p.png \"t)\n(u\")[b!](v!)[![](q.png)](w(x)![c](r)".toList) =
      "](x) ".toList ++
      "<img src=\"p.png\" alt=\"a!\" title=\"t)\n(u\"".toList ++
      " onerror=\"this.onerror=null;this.src='/image-placeholder.jpg';\">".toList ++
      "<a href=\"v!\" target=\"_blank\" rel=\"noopener noreferrer\">b!</a>".toList ++
      "<a href=\"w(x\" target=\"_blank\" rel=\"noopener noreferrer\">".toList ++
      "<img src=\"q.png\" alt=\"\"".toList ++
      " onerror=\"this.onerror=null;this.src='/image-placeholder.jpg';\"></a>".toList ++
      "<img src=\"r\" alt=\"c\"".toList ++
      " onerror=\"this.onerror=null;this.src='/image-placeholder.jpg';\">".toList := by
  obtain ⟨es, hes⟩ : ∃ es : List Part, es = [.filler "](x) ".toList,
      .image ⟨"a!".toList, "p.png".toList, some "t)\n(u".toList⟩, .link ⟨"b!".toList, "v!".toList⟩,
      .linkedImage ⟨[], "q.png".toList, none⟩ "w(x".toList,
      .image ⟨"c".toList, "r".toList, none⟩] := ⟨_, rfl⟩
  have hparts : ∀ e ∈ es, e.Writable := by
    rw [hes]
    decide +kernel
  have hwritten : es.flatMap Part.markdown =
      "](x) ![a!](p.png \"t)\n(u\")[b!](v!)[![](q.png)](w(x)![c](r)".toList := by
    rw [hes]
    decide +kernel
  have hrow := links_images_parts hparts
  rw [hwritten] at hrow
  rw [hrow, hes]
  decide +kernel

end MarkdownPreview

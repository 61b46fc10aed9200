import MarkdownPreview.Proofs.SpanShape
/-!
# How references are written

`Link.markdown` and `Image.reference` write a link and an image as they stand in a text. Whatever
follows them, they are read back: `Link.ofText?_markdown` and `Image.ofText?_reference`, the second
because a source without blanks goes on up to the title or the closing parenthesis behind it
(`Image.source?_append`).
-/

namespace MarkdownPreview

open Text

namespace Text

variable {a : Char} {s : Text}

theorem takeWhile_append_cons (h : a ∉ s) (rest : Text) : (s ++ a :: rest).takeWhile (· != a) = s := by
  have hs : ∀ c ∈ s, (c != a) = true := fun c hc => bne_iff_ne.2 (ne_of_mem_of_not_mem hc h)
  rw [List.takeWhile_append_of_pos hs, List.takeWhile_cons_of_neg (by simp), List.append_nil]

theorem dropWhile_append_cons (h : a ∉ s) (rest : Text) :
    (s ++ a :: rest).dropWhile (· != a) = a :: rest := by
  have hs : ∀ c ∈ s, (c != a) = true := fun c hc => bne_iff_ne.2 (ne_of_mem_of_not_mem hc h)
  rw [List.dropWhile_append_of_pos hs, List.dropWhile_cons_of_neg (by simp)]

end Text

namespace Link

/-- How a link is written. -/
def markdown (l : Link) : Text := '[' :: l.text ++ ']' :: '(' :: l.url ++ [')']

/-- A link is read back from what is written for it. -/
theorem ofText?_markdown {l : Link} (htext : l.text ≠ [] ∧ ']' ∉ l.text)
    (hurl : l.url ≠ [] ∧ ')' ∉ l.url) (rest : Text) :
    ofText? (l.markdown ++ rest) = some (l, rest) := by
  have hshape : l.markdown ++ rest =
      ['['] ++ (l.text ++ ']' :: (['('] ++ (l.url ++ ')' :: rest))) := by
    simp [markdown]
  have htarget : [']', '('].isPrefixOf? (']' :: (['('] ++ (l.url ++ ')' :: rest))) =
      some (l.url ++ ')' :: rest) := isPrefixOf?_append [']', '('] _
  have hend : [')'].isPrefixOf? (')' :: rest) = some rest := isPrefixOf?_append [')'] rest
  rw [hshape, ofText?, isPrefixOf?_append, Option.bind_some, dropWhile_append_cons htext.2,
    takeWhile_append_cons htext.2, htarget, Option.bind_some, dropWhile_append_cons hurl.2,
    takeWhile_append_cons hurl.2, hend, Option.bind_some]
  simp [htext.1, hurl.1]

theorem links_markdown_append {l : Link} (htext : l.text ≠ [] ∧ ']' ∉ l.text)
    (hurl : l.url ≠ [] ∧ ')' ∉ l.url) (rest : Text) :
    links (l.markdown ++ rest) = l.html ++ links rest := by
  have hspan : pattern.spanAt? (l.markdown ++ rest) = some (l.html, rest) := by
    simp [pattern, ofText?_markdown htext hurl rest]
  exact Pattern.replace_of_spanAt? hspan

end Link

namespace Image

/-- How the title of an image is written behind its source. -/
def titleMarkdown : Option Text → Text
  | none => []
  | some title => ' ' :: '"' :: title ++ ['"']

/-- How an image is written. -/
def reference (i : Image) : Text :=
  '!' :: '[' :: i.alt ++ ']' :: '(' :: i.source ++ titleMarkdown i.title ++ [')']

/-- A title as it is written: not empty, and without the quote that ends it. -/
def IsTitle (title : Text) : Prop := title ≠ [] ∧ '"' ∉ title

theorem title?_of_not_blank {c : Char} (hc : isBlank c = false) (t : Text) : title? (c :: t) = none := by
  rw [title?, List.takeWhile_cons_of_neg (by simp [hc])]

theorem title?_titleMarkdown {title : Text} (h : IsTitle title) (rest : Text) :
    title? (titleMarkdown (some title) ++ ')' :: rest) = some (title, rest) := by
  have hshape : titleMarkdown (some title) ++ ')' :: rest =
      ' ' :: '"' :: (title ++ '"' :: ')' :: rest) := by simp [titleMarkdown]
  have hblank : isBlank ' ' = true ∧ isBlank '"' = false := by decide
  have hquoted := takeWhile_append_cons h.2 (')' :: rest)
  have hrest := dropWhile_append_cons h.2 (')' :: rest)
  obtain ⟨c, u, rfl⟩ := List.exists_cons_of_ne_nil h.1
  rw [hshape]
  generalize c :: u ++ '"' :: ')' :: rest = quoted at hquoted hrest
  simp [title?, hblank, hquoted, hrest]

theorem ending?_titleMarkdown {title : Option Text} (h : ∀ t ∈ title, IsTitle t) (rest : Text) :
    ending? (titleMarkdown title ++ ')' :: rest) = some (title, rest) := by
  cases title with
  | some title => rw [ending?, title?_titleMarkdown (h title rfl) rest]
  | none =>
    have hend : [')'].isPrefixOf? (')' :: rest) = some rest := isPrefixOf?_append [')'] rest
    rw [titleMarkdown, List.nil_append, ending?, title?_of_not_blank (by decide), hend]
    rfl

/-- A source as it is written: not empty, and without blanks and the parenthesis that ends it. -/
def IsSource (source : Text) : Prop := source ≠ [] ∧ ∀ c ∈ source, isBlank c = false ∧ c ≠ ')'

/-- A source without blanks has no title in it, so it goes on up to the ending behind it. -/
theorem source?_append {source e rest : Text} {title : Option Text} (h : IsSource source)
    (he : ending? e = some (title, rest)) : source? (source ++ e) = some (source, title, rest) := by
  obtain ⟨hne, hchars⟩ := h
  induction source with
  | nil => exact absurd rfl hne
  | cons c u ih =>
    obtain ⟨hc, hrest⟩ := List.forall_mem_cons.1 hchars
    rw [List.cons_append, source?, if_neg hc.2]
    cases u with
    | nil => rw [List.nil_append, he]
    | cons d u =>
      have hd := hrest d List.mem_cons_self
      have hnone : ending? (d :: u ++ e) = none := by
        simp [ending?, title?_of_not_blank hd.1, isPrefixOf?_cons_cons, Ne.symm hd.2]
      rw [hnone, ih (List.cons_ne_nil _ _) hrest]
      rfl

/-- An image is read back from what is written for it. -/
theorem ofText?_reference {i : Image} (halt : ']' ∉ i.alt) (hsource : IsSource i.source)
    (htitle : ∀ t ∈ i.title, IsTitle t) (rest : Text) :
    ofText? (i.reference ++ rest) = some (i, rest) := by
  have hshape : i.reference ++ rest =
      ['!', '['] ++ (i.alt ++ ']' :: (['('] ++ (i.source ++ (titleMarkdown i.title ++ ')' :: rest)))) := by
    simp [reference]
  have htarget : [']', '('].isPrefixOf?
      (']' :: (['('] ++ (i.source ++ (titleMarkdown i.title ++ ')' :: rest)))) =
      some (i.source ++ (titleMarkdown i.title ++ ')' :: rest)) := isPrefixOf?_append [']', '('] _
  rw [hshape, ofText?, isPrefixOf?_append, Option.bind_some, dropWhile_append_cons halt,
    takeWhile_append_cons halt, htarget, Option.bind_some,
    source?_append hsource (ending?_titleMarkdown htitle rest)]
  rfl

theorem images_reference_append {i : Image} (halt : ']' ∉ i.alt) (hsource : IsSource i.source)
    (htitle : ∀ t ∈ i.title, IsTitle t) (rest : Text) :
    images (i.reference ++ rest) = i.html ++ images rest := by
  have hspan : pattern.spanAt? (i.reference ++ rest) = some (i.html, rest) := by
    simp [pattern, ofText?_reference halt hsource htitle rest]
  exact Pattern.replace_of_spanAt? hspan

end Image

end MarkdownPreview

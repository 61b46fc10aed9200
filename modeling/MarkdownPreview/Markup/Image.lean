import MarkdownPreview.Text.Blank
import MarkdownPreview.Text.Pattern
/-!
# Images

An image is `![alt](source)` or `![alt](source "title")`. The alternative text ends at the first
`]`. The source is the shortest text without `)` that is not empty and is followed by a title and
`)`, or by `)` alone; a title stands in double quotes after one or more blanks and is not empty.

An image that fails to load is replaced once by `fallback`: the handler clears itself first, so a
missing placeholder cannot start it again.
-/

namespace MarkdownPreview

/-- An image reference. -/
structure Image where
  alt : Text
  source : Text
  title : Option Text
  deriving DecidableEq, Repr

namespace Image

/-- What is shown for an image that fails to load. -/
def fallback : Text := "/image-placeholder.jpg".toList

/-- The title a text starts with, blanks first, and what follows the `)` after it. -/
def title? (t : Text) : Option (Text × Text) :=
  match t.takeWhile Text.isBlank, t.dropWhile Text.isBlank with
  | _ :: _, '"' :: quoted =>
    match quoted.takeWhile (· != '"'), quoted.dropWhile (· != '"') with
    | c :: title, '"' :: ')' :: rest => some (c :: title, rest)
    | _, _ => none
  | _, _ => none

/-- The end of an image: a title and `)`, or `)` alone. -/
def ending? (t : Text) : Option (Option Text × Text) :=
  match title? t with
  | some (title, rest) => some (some title, rest)
  | none => ([')'].isPrefixOf? t).map fun rest => (none, rest)

/-- The source of an image, its title, and what follows the image. -/
def source? : Text → Option (Text × Option Text × Text)
  | [] => none
  | c :: t =>
    if c = ')' then none
    else match ending? t with
      | some (title, rest) => some ([c], title, rest)
      | none => (source? t).map fun (source, title, rest) => (c :: source, title, rest)

/-- The image a text starts with, and what follows it. -/
def ofText? (t : Text) : Option (Image × Text) :=
  (['!', '['].isPrefixOf? t).bind fun inner =>
    ([']', '('].isPrefixOf? (inner.dropWhile (· != ']'))).bind fun target =>
      (source? target).map fun (source, title, rest) =>
        (⟨inner.takeWhile (· != ']'), source, title⟩, rest)

/-- The attribute that holds the title, if there is one. -/
def titleAttribute : Option Text → Text
  | none => []
  | some title => " title=\"".toList ++ title ++ ['"']

/-- The image as an element. -/
def html (i : Image) : Text :=
  "<img src=\"".toList ++ i.source ++ "\" alt=\"".toList ++ i.alt ++ ['"'] ++
    titleAttribute i.title ++ " onerror=\"this.onerror=null;this.src='".toList ++ fallback ++
    "';\">".toList

theorem length_of_title? {t title rest : Text} (h : title? t = some (title, rest)) :
    rest.length < t.length := by
  have hl := Text.length_dropWhile_le Text.isBlank t
  simp only [title?] at h
  split at h
  · next quoted _ hq =>
    have hl' := Text.length_dropWhile_le (· != '"') quoted
    split at h
    · next hd =>
      simp only [Option.some.injEq, Prod.mk.injEq] at h
      rw [hd] at hl'
      rw [hq] at hl
      simp only [List.length_cons] at hl hl'
      rw [← h.2]
      omega
    · simp at h
  · simp at h

theorem length_of_ending? {t rest : Text} {title : Option Text}
    (h : ending? t = some (title, rest)) : rest.length < t.length := by
  simp only [ending?] at h
  split at h
  · next ht =>
    simp only [Option.some.injEq, Prod.mk.injEq] at h
    rw [← h.2]
    exact length_of_title? ht
  · obtain ⟨r, hr, he⟩ := Option.map_eq_some_iff.1 h
    simp only [Prod.mk.injEq] at he
    have := Text.length_of_isPrefixOf? hr
    simp only [List.length_cons, List.length_nil] at this
    rw [← he.2]
    omega

theorem length_of_source? {t source rest : Text} {title : Option Text}
    (h : source? t = some (source, title, rest)) : rest.length < t.length := by
  induction t generalizing source with
  | nil => simp [source?] at h
  | cons c t ih =>
    simp only [source?] at h
    split at h
    · simp at h
    · split at h
      · next he =>
        simp only [Option.some.injEq, Prod.mk.injEq] at h
        rw [← h.2.2]
        exact Nat.lt_succ_of_lt (length_of_ending? he)
      · obtain ⟨⟨s, ti, r⟩, hs, he⟩ := Option.map_eq_some_iff.1 h
        simp only [Prod.mk.injEq] at he
        obtain ⟨-, rfl, rfl⟩ := he
        exact Nat.lt_succ_of_lt (ih hs)

theorem length_of_ofText? {t rest : Text} {image : Image} (h : ofText? t = some (image, rest)) :
    rest.length < t.length := by
  obtain ⟨inner, hi, h⟩ := Option.bind_eq_some_iff.1 h
  obtain ⟨target, ht, h⟩ := Option.bind_eq_some_iff.1 h
  obtain ⟨⟨s, ti, r⟩, hs, he⟩ := Option.map_eq_some_iff.1 h
  simp only [Prod.mk.injEq] at he
  have h₁ := Text.length_of_isPrefixOf? hi
  have h₂ := Text.length_dropWhile_le (· != ']') inner
  have h₃ := Text.length_of_isPrefixOf? ht
  have h₄ := length_of_source? hs
  rw [← he.2]
  omega

/-- Images as spans of a text. -/
def pattern : Text.Pattern where
  spanAt? t := (ofText? t).map fun (image, rest) => (image.html, rest)
  length_lt h := by
    obtain ⟨⟨image, r⟩, hi, he⟩ := Option.map_eq_some_iff.1 h
    simp only [Prod.mk.injEq] at he
    rw [← he.2]
    exact length_of_ofText? hi

/-- Write the images of a text as elements. -/
def images (t : Text) : Text := pattern.replace t

end Image

end MarkdownPreview

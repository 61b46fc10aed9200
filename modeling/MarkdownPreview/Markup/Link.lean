import MarkdownPreview.Text.Pattern
/-!
# Links

A link is `[text](url)`. Its text ends at the first `]` and its address at the first `)`, and
neither is empty. A link opens in a new tab, which learns nothing of the page it came from.
-/

namespace MarkdownPreview

/-- A link. -/
structure Link where
  text : Text
  url : Text
  deriving DecidableEq, Repr

namespace Link

/-- The link a text starts with, and what follows it. -/
def ofText? (t : Text) : Option (Link × Text) :=
  (['['].isPrefixOf? t).bind fun inner =>
    ([']', '('].isPrefixOf? (inner.dropWhile (· != ']'))).bind fun target =>
      ([')'].isPrefixOf? (target.dropWhile (· != ')'))).bind fun rest =>
        let text := inner.takeWhile (· != ']')
        let url := target.takeWhile (· != ')')
        if text = [] ∨ url = [] then none else some (⟨text, url⟩, rest)

/-- The link as an element. -/
def html (l : Link) : Text :=
  "<a href=\"".toList ++ l.url ++ "\" target=\"_blank\" rel=\"noopener noreferrer\">".toList ++
    l.text ++ "</a>".toList

theorem length_of_ofText? {t rest : Text} {link : Link} (h : ofText? t = some (link, rest)) :
    rest.length < t.length := by
  obtain ⟨inner, hi, h⟩ := Option.bind_eq_some_iff.1 h
  obtain ⟨target, ht, h⟩ := Option.bind_eq_some_iff.1 h
  obtain ⟨r, hr, h⟩ := Option.bind_eq_some_iff.1 h
  have h₁ := Text.length_of_isPrefixOf? hi
  have h₂ := Text.length_dropWhile_le (· != ']') inner
  have h₃ := Text.length_of_isPrefixOf? ht
  have h₄ := Text.length_dropWhile_le (· != ')') target
  have h₅ := Text.length_of_isPrefixOf? hr
  simp only [List.length_cons, List.length_nil] at h₁
  dsimp only at h
  split at h
  · simp at h
  · simp only [Option.some.injEq, Prod.mk.injEq] at h
    rw [← h.2]
    omega

/-- Links as spans of a text. -/
def pattern : Text.Pattern where
  spanAt? t := (ofText? t).map fun (link, rest) => (link.html, rest)
  length_lt h := by
    obtain ⟨⟨link, r⟩, hl, he⟩ := Option.map_eq_some_iff.1 h
    simp only [Prod.mk.injEq] at he
    rw [← he.2]
    exact length_of_ofText? hl

/-- Write the links of a text as elements. -/
def links (t : Text) : Text := pattern.replace t

end Link

end MarkdownPreview

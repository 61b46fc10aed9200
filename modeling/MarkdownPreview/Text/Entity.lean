import MarkdownPreview.Text.Pattern
/-!
# Entities

Five characters are reserved in HTML and have an entity each. `encode` writes every reserved
character as its entity in one pass, so an entity that is already there is encoded like any other
text; `decode` replaces the five entities from left to right and reads back what `encode` wrote.
-/

namespace MarkdownPreview

/-- The reserved characters of HTML. -/
inductive Entity
  | ampersand
  | less
  | greater
  | quote
  | apostrophe
  deriving DecidableEq, Repr

namespace Entity

/-- The character an entity stands for. -/
def char : Entity → Char
  | .ampersand => '&'
  | .less => '<'
  | .greater => '>'
  | .quote => '"'
  | .apostrophe => '\''

/-- How an entity is written. -/
def text : Entity → Text
  | .ampersand => "&amp;".toList
  | .less => "&lt;".toList
  | .greater => "&gt;".toList
  | .quote => "&quot;".toList
  | .apostrophe => "&#039;".toList

/-- All entities. -/
def all : List Entity := [.ampersand, .less, .greater, .quote, .apostrophe]

/-- The entity of a reserved character. -/
def ofChar? (c : Char) : Option Entity := all.find? fun e => e.char = c

theorem ofChar?_char (e : Entity) : ofChar? e.char = some e := by cases e <;> decide

theorem char_of_ofChar? {c : Char} {e : Entity} (h : ofChar? c = some e) : e.char = c := by
  simpa using List.find?_some h

/-- What a character is written as: its entity, or itself. -/
def ofChar (c : Char) : Text :=
  match ofChar? c with
  | some e => e.text
  | none => [c]

/-- Write every reserved character as its entity. -/
def encode (t : Text) : Text := t.flatMap ofChar

theorem encode_cons (c : Char) (t : Text) : encode (c :: t) = ofChar c ++ encode t := by
  simp [encode]

theorem encode_append (s t : Text) : encode (s ++ t) = encode s ++ encode t := by
  simp [encode]

/-- The entity a text starts with, replaced by its character. -/
def readAt? (t : Text) : Option (Text × Text) :=
  all.findSome? fun e => (e.text.isPrefixOf? t).map fun rest => ([e.char], rest)

theorem text_length_pos (e : Entity) : 0 < e.text.length := by cases e <;> decide

/-- Entities as spans of a text, each replaced by its character. -/
def pattern : Text.Pattern where
  spanAt? := readAt?
  length_lt h := by
    obtain ⟨e, _, he⟩ := List.exists_of_findSome?_eq_some h
    obtain ⟨r, hr, hp⟩ := Option.map_eq_some_iff.1 he
    simp only [Prod.mk.injEq] at hp
    have := Text.length_of_isPrefixOf? hr
    have := text_length_pos e
    rw [← hp.2]
    omega

/-- Replace the five entities by their characters, from left to right in one pass. -/
def decode (t : Text) : Text := pattern.replace t

end Entity

end MarkdownPreview

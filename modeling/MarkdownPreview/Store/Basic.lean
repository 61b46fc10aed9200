import MarkdownPreview.Text.Basic
/-!
# The store of files

A store holds files and directories by their location, the list of names that leads to them from the
root. A location holds one entry at most, and `put` and `erase` change what is found at one location
only (`find?_put`, `find?_erase`). The root is always a directory.
-/

namespace MarkdownPreview

/-- What a file holds: a text, or bytes that are no text in UTF-8. -/
inductive Content
  | text (text : Text)
  | binary (bytes : List UInt8)
  deriving DecidableEq, Repr

/-- What a location holds. -/
inductive Entry
  | file (content : Content)
  | directory
  deriving DecidableEq, Repr

/-- The names that lead to a file or a directory from the root. -/
abbrev Location := List Text

/-- Files and directories, and the directory that relative paths start from. -/
structure Store where
  entries : List (Location × Entry)
  here : Location
  deriving Repr

namespace Store

/-- What is at a location. -/
def find? (s : Store) (l : Location) : Option Entry :=
  if l = [] then some .directory else s.entries.lookup l

/-- The store with an entry put at a location, in place of what was there. -/
def put (s : Store) (l : Location) (e : Entry) : Store :=
  { s with entries := (l, e) :: s.entries.filter (·.1 ≠ l) }

/-- The store with nothing at a location. -/
def erase (s : Store) (l : Location) : Store :=
  { s with entries := s.entries.filter (·.1 ≠ l) }

theorem here_put (s : Store) (l : Location) (e : Entry) : (s.put l e).here = s.here := rfl

theorem here_erase (s : Store) (l : Location) : (s.erase l).here = s.here := rfl

theorem lookup_filter_ne {entries : List (Location × Entry)} {l k : Location} (h : k ≠ l) :
    (entries.filter (·.1 ≠ l)).lookup k = entries.lookup k := by
  induction entries with
  | nil => rfl
  | cons e es ih =>
    obtain ⟨m, e⟩ := e
    by_cases hm : m = l
    · subst hm
      have hk : (k == m) = false := by simpa using h
      simpa [List.lookup_cons, hk] using ih
    · simp only [List.filter_cons, List.lookup_cons, ne_eq, hm, not_false_eq_true, decide_true,
        if_true]
      simp only [ne_eq] at ih
      rw [ih]

theorem lookup_filter_self {entries : List (Location × Entry)} {l : Location} :
    (entries.filter (·.1 ≠ l)).lookup l = none := by
  rw [List.lookup_eq_none_iff]
  intro e he
  have hl : e.1 ≠ l := by simpa using (List.mem_filter.1 he).2
  exact bne_iff_ne.2 hl.symm

/-- An entry that is put is found at its location, and what is elsewhere stays. -/
theorem find?_put {s : Store} {l k : Location} {e : Entry} (h : l ≠ []) :
    (s.put l e).find? k = if k = l then some e else s.find? k := by
  by_cases hk : k = l
  · subst hk
    simp [find?, put, h]
  · have hb : (k == l) = false := by simpa using hk
    simp only [find?, put, hk, if_false, List.lookup_cons, hb]
    rw [lookup_filter_ne hk]

/-- Nothing is found at a location that is erased, and what is elsewhere stays. -/
theorem find?_erase {s : Store} {l k : Location} (h : l ≠ []) :
    (s.erase l).find? k = if k = l then none else s.find? k := by
  by_cases hk : k = l
  · subst hk
    simp only [find?, erase, h, if_false, if_true]
    exact lookup_filter_self
  · simp only [find?, erase, hk, if_false]
    rw [lookup_filter_ne hk]

/-- The files below a directory, by the names that lead to them from there. -/
def filesBelow (s : Store) (l : Location) : List (Location × Content) :=
  s.entries.filterMap fun (k, e) =>
    match e, l.isPrefixOf? k with
    | .file c, some names => some (names, c)
    | _, _ => none

end Store

end MarkdownPreview

import MarkdownPreview.Text.Basic
/-!
# Paths

A path is a text of names between slashes. It is read as steps: an empty name and a `.` inside it
are no step, so different texts can take the same steps. What a path says about a file's name, its
parent and its extension depends on the steps alone, and the parent is the shortest beginning of the
path that takes all steps but the last (`length_parent?_lt`).
-/

namespace MarkdownPreview.Path

/-- A step of a path. -/
inductive Step
  | root
  | current
  | up
  | name (name : Text)
  deriving DecidableEq, Repr

/-- The step a name stands for, away from the start of a relative path. -/
def Step.ofName? (n : Text) : Option Step :=
  if n = [] ∨ n = ['.'] then none
  else if n = ['.', '.'] then some .up
  else some (.name n)

/-- The steps of a path; a `.` counts only where a relative path starts with it. -/
def steps (path : Text) : List Step :=
  match path.splitOn '/' with
  | [] => []
  | first :: names =>
    if path.head? = some '/' then .root :: names.filterMap Step.ofName?
    else if first = ['.'] then .current :: names.filterMap Step.ofName?
    else (first :: names).filterMap Step.ofName?

/-- The name of the file a path leads to, if its last step is a name. -/
def fileName? (path : Text) : Option Text :=
  match (steps path).getLast? with
  | some (.name n) => some n
  | _ => none

/-- The beginnings of a text, the shortest first. -/
def beginnings (path : Text) : List Text :=
  (List.range (path.length + 1)).map fun n => path.take n

/-- The path without its last step; the root and the empty path have no parent. -/
def parent? (path : Text) : Option Text :=
  if (steps path).getLast?.isNone ∨ (steps path).getLast? = some .root then none
  else (beginnings path).find? fun p => steps p = (steps path).dropLast

/-- The parent of a path is shorter. -/
theorem length_parent?_lt {path parent : Text} (h : parent? path = some parent) :
    parent.length < path.length := by
  simp only [parent?] at h
  split at h
  · simp at h
  · next hn =>
    have hs : steps parent = (steps path).dropLast := by simpa using List.find?_some h
    obtain ⟨n, _, rfl⟩ := List.mem_map.1 (List.mem_of_find?_eq_some h)
    rw [List.length_take]
    refine Nat.lt_of_not_le fun hle => hn (.inl ?_)
    rw [List.take_of_length_le (by omega)] at hs
    have hl := congrArg List.length hs
    rw [List.length_dropLast] at hl
    rw [List.eq_nil_of_length_eq_zero (by omega : (steps path).length = 0)]
    rfl

/-- What follows the last point of a file's name, unless nothing stands before that point. -/
def extension? (path : Text) : Option Text :=
  (fileName? path).bind fun name =>
    match (name.splitOn '.').reverse with
    | extension :: stem => if stem = [] ∨ stem = [[]] then none else some extension
    | [] => none

/-- A relative path, taken from a folder. -/
def join (folder path : Text) : Text :=
  if folder = [] ∨ folder.getLast? = some '/' then folder ++ path else folder ++ '/' :: path

/-! ## Markdown files -/

/-- The extensions of markdown files. -/
def markdownExtensions : List Text :=
  ["md".toList, "markdown".toList, "mdown".toList, "mkd".toList, "mdx".toList]

/-- The file is a markdown file by its extension, ASCII letters in either case. -/
def isMarkdown (path : Text) : Bool :=
  match extension? path with
  | some extension => markdownExtensions.contains (extension.map Char.toLower)
  | none => false

end MarkdownPreview.Path

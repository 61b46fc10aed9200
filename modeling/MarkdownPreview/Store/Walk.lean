import MarkdownPreview.Store.Basic
import MarkdownPreview.Store.Fault
/-!
# Walking a path

A path is walked name by name from the root or from the store's own directory. Every name but the
last has to lead to a directory, `.` stays, `..` goes up and stays at the root. A walk reads the
store and changes nothing; whether its end exists is up to the operation (`locate`, `target`).
-/

namespace MarkdownPreview.Store

/-- The longest name, in bytes. -/
def maxNameLength : Nat := 255

/-- The longest path, in bytes. -/
def maxPathLength : Nat := 4095

/-- The names of a path. -/
def names (path : Text) : List Text := (path.splitOn '/').filter (· ≠ [])

/-- Where a path starts from. -/
def origin (s : Store) (path : Text) : Location := if path.head? = some '/' then [] else s.here

/-- The path ends with a slash, so what it leads to has to be a directory. -/
def endsWithSlash (path : Text) : Bool := path.getLast? == some '/'

/-- Refuse a path that no file can have. -/
def checkPath (path : Text) : Except Fault Unit :=
  if '\x00' ∈ path then .error .nulInName
  else if path = [] then .error .notFound
  else if maxPathLength < Text.utf8Length path then .error .nameTooLong
  else .ok ()

/-- Refuse a location that is no directory. -/
def checkDirectory (s : Store) (l : Location) : Except Fault Unit :=
  match s.find? l with
  | none => .error .notFound
  | some (.file _) => .error .notADirectory
  | some .directory => .ok ()

/-- Where a name leads from a directory. -/
def enter (l : Location) (name : Text) : Except Fault Location :=
  if name = ['.'] then .ok l
  else if name = ['.', '.'] then .ok l.dropLast
  else if maxNameLength < Text.utf8Length name then .error .nameTooLong
  else .ok (l ++ [name])

/-- Where names lead, one after the other. -/
def walk (s : Store) : Location → List Text → Except Fault Location
  | l, [] => .ok l
  | l, name :: names => do
    s.checkDirectory l
    s.walk (← enter l name) names

/-- The location a path leads to, which holds something. -/
def locate (s : Store) (path : Text) : Except Fault Location := do
  checkPath path
  let l ← s.walk (s.origin path) (names path)
  match s.find? l with
  | none => .error .notFound
  | some (.file _) => if endsWithSlash path then .error .notADirectory else .ok l
  | some .directory => .ok l

/-- The directory that the last name of a path is looked up in, and that name; a path of the root
alone has none. -/
def parentAndName (s : Store) (path : Text) : Except Fault (Location × Option Text) := do
  checkPath path
  let l ← s.walk (s.origin path) (names path).dropLast
  s.checkDirectory l
  .ok (l, (names path).getLast?)

/-- The last name of a path names an entry of its own, and does not lead back. -/
def isOwnName (name : Text) : Bool := name ≠ ['.'] && name ≠ ['.', '.']

end MarkdownPreview.Store

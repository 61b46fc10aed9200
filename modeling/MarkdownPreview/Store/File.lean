import MarkdownPreview.Path
import MarkdownPreview.Store.Walk
/-!
# Files and directories by path

Reading, writing, making and removing what a path leads to. An operation that fails leaves the store
alone, with one exception: `createDirectories` keeps the directories it made on its way to a fault.
-/

namespace MarkdownPreview.Store

/-! ## Looking -/

/-- What a path leads to. -/
def entry (s : Store) (path : Text) : Except Fault Entry := do
  match s.find? (← s.locate path) with
  | some e => .ok e
  | none => .error .notFound

/-- The path leads to a file or a directory. -/
def pathExists (s : Store) (path : Text) : Bool := (s.entry path).isOk

/-- The path leads to a directory. -/
def isDirectory (s : Store) (path : Text) : Bool :=
  match s.entry path with
  | .ok .directory => true
  | _ => false

/-! ## Reading and writing files -/

/-- What the file at a path holds. -/
def contentOf (s : Store) (path : Text) : Except Fault Content := do
  match ← s.entry path with
  | .directory => .error .isADirectory
  | .file c => .ok c

/-- The text of the file at a path. -/
def readText (s : Store) (path : Text) : Except Fault Text := do
  match ← s.contentOf path with
  | .binary _ => .error .notText
  | .text t => .ok t

/-- Where a file with this path is written, whether there is one yet or not. -/
def fileLocation (s : Store) (path : Text) : Except Fault Location := do
  match ← s.parentAndName path with
  | (_, none) => .error .isADirectory
  | (l, some name) =>
    if endsWithSlash path || !isOwnName name then .error .isADirectory
    else
      let target ← enter l name
      if s.find? target = some .directory then .error .isADirectory else .ok target

/-- Write a file, in place of what it held. -/
def write (s : Store) (path : Text) (content : Content) : Except Fault Store := do
  let l ← s.fileLocation path
  .ok (s.put l (.file content))

/-- Remove a file. -/
def remove (s : Store) (path : Text) : Except Fault Store := do
  let l ← s.locate path
  if s.find? l = some .directory then .error .isADirectory else .ok (s.erase l)

/-! ## Making directories -/

/-- Make a directory in one that exists. -/
def createDirectory (s : Store) (path : Text) : Except Fault Store := do
  match ← s.parentAndName path with
  | (_, none) => .error .alreadyExists
  | (l, some name) =>
    if isOwnName name then
      let target ← enter l name
      if (s.find? target).isSome then .error .alreadyExists else .ok (s.put target .directory)
    else .error .alreadyExists

/-- Make a directory, or be content with one that is there. -/
def ensureDirectory (s : Store) (path : Text) : Except Fault Store :=
  match s.createDirectory path with
  | .ok s => .ok s
  | .error f => if s.isDirectory path then .ok s else .error f

/-- Make a directory and the directories above it; those that are made stay, whatever happens. -/
def createDirectories (s : Store) (path : Text) : Except Fault Unit × Store :=
  if path = [] then (.ok (), s)
  else
    match s.ensureDirectory path with
    | .ok s => (.ok (), s)
    | .error .notFound =>
      match _h : Path.parent? path with
      | none => (.error .notFound, s)
      | some parent =>
        match s.createDirectories parent with
        | (.error f, s) => (.error f, s)
        | (.ok (), s) =>
          match s.ensureDirectory path with
          | .ok s => (.ok (), s)
          | .error f => (.error f, s)
    | .error f => (.error f, s)
termination_by path.length
decreasing_by exact Path.length_parent?_lt ‹_›

end MarkdownPreview.Store

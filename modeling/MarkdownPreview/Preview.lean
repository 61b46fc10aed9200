import MarkdownPreview.EventLog
import MarkdownPreview.Guide
import MarkdownPreview.Page
/-!
# Previews

A preview renders one source to HTML and writes it to one output. The source is a file, standard
input, or the built-in guide; the output is a file or standard output, and is only touched once the
rendering is done. An output that does not take the whole of the HTML keeps the beginning of it, and
the preview fails. Watching needs a file, and a directory that can be watched for its changes.
-/

namespace MarkdownPreview

/-- Where the markdown comes from. -/
inductive Source
  | file (path : Text)
  | input
  | guide
  deriving DecidableEq, Repr

namespace Source

/-- The source a command line names: none is the guide, `-` is standard input. -/
def ofArgument : Option Text → Source
  | none => .guide
  | some path => if path = ['-'] then .input else .file path

/-- The source in the event log. -/
def shown : Source → Text
  | .file path => "File(".toList ++ Text.quote path ++ [')']
  | .input => "Stdin".toList
  | .guide => "Example".toList

/-- The markdown of the source. -/
def read : Source → Action Text
  | .file path => .ofStore (.readFile path) (·.readText path)
  | .input => do
    let s ← get
    set { s with input := .text [] }
    match s.input with
    | .text t => pure t
    | .binary _ => throw (.readInput .notText)
  | .guide => pure MarkdownPreview.guide

end Source

/-- What is rendered, where to, and how. -/
structure Preview where
  source : Source
  output : Option Text := none
  watch : Bool := false
  standalone : Bool := false
  title : Option Text := none
  deriving DecidableEq, Repr

namespace Preview

/-- How long a change has to settle before it is rendered, in milliseconds. -/
def debounce : Nat := 200

/-- The title of the page: the one that is set, or the name of the file. -/
def pageTitle (p : Preview) : Text :=
  match p.title, p.source with
  | some title, _ => title
  | none, .file path => (Path.fileName? path).getD Page.defaultTitle
  | none, _ => Page.defaultTitle

/-- An HTML fragment as it is wanted: alone, or on a page of its own. -/
def page (p : Preview) (fragment : Text) : Text :=
  if p.standalone then Page.wrap p.pageTitle fragment else fragment

/-- Render the source, without writing the result. -/
def renderOnce (p : Preview) : Action Text :=
  timed do
    let markdown ← p.source.read
    let fragment ← modifyGet (·.renderText markdown)
    pure (p.page fragment)
where
  /-- An action whose end goes to the log, also when it fails. -/
  timed (a : Action Text) : Action Text := ExceptT.mk do
    let result ← a.run
    modify (·.recordScope "preview.render".toList)
    pure result

/-- Refuse a file that does not exist, and watching anything but a file. -/
def checkSource (p : Preview) : Action Unit := do
  match p.source with
  | .file path => if !(← get).store.pathExists path then throw (.fileMissing path)
  | .input | .guide => if p.watch then throw .nothingToWatch

/-- A fault of the output, as a failure. -/
def outputFailure (p : Preview) : Fault → Failure :=
  match p.output with
  | some path => .writeFile path
  | none => .print

/-- Write HTML to the output. A file is emptied first. What the output takes of the HTML stays there,
also when that is not the whole of it. -/
def writeOutput (p : Preview) (html : Text) : Action Unit := do
  let s ← get
  match p.output with
  | some path => .changeStore p.outputFailure (·.write path (.text (s.taken html)))
  | none => set (s.print html)
  if let some fault := s.refusal? html then throw (p.outputFailure fault)

/-- Render the source once and write the result. -/
def run (p : Preview) : Action Unit := do
  p.checkSource
  p.writeOutput (← p.renderOnce)
  modify (·.record ⟨"preview.rendered".toList, p.source.shown⟩)

/-- The directory that is watched for changes of a file. -/
def watchRoot (path : Text) : Text :=
  match Path.parent? path with
  | none | some [] => ['.']
  | some parent => parent

/-- Begin to watch the source: a file that exists, or one whose directory does. -/
def startWatching (p : Preview) : Action Unit := do
  match p.source with
  | .file path =>
    let store := (← get).store
    if !(store.pathExists path || store.pathExists (watchRoot path)) then throw (.watch path)
  | .input | .guide => throw .nothingToWatch

/-- Render the source again after a change. A source that cannot be read leaves the last result in
place. -/
def renderAgain (p : Preview) : Action Unit := do
  let result ← ExceptT.lift p.renderOnce.run
  match result with
  | .ok html =>
    p.writeOutput html
    let size := Text.decimal (Text.utf8Length html)
    modify (·.record ⟨"preview.rerendered".toList, "bytes=".toList ++ size⟩)
  | .error f => modify (·.record ⟨"preview.error".toList, f.message⟩)

end Preview

end MarkdownPreview

import MarkdownPreview.Markup.Pass
import MarkdownPreview.Session
import MarkdownPreview.Text.Quoted
/-!
# The event log

A session may write its events to a file: one header line when the log is opened, then a line for
each event, in order. Opening a log closes the one before it and empties the file, and a log that
cannot be opened leaves none open. Events of a session without an open log are lost.

A text is rendered pass by pass (`Session.renderPasses`), and what each pass did is written to the
log before the next one begins.
-/

namespace MarkdownPreview

/-- Something that happens while a preview runs: its name, and what there is to say about it. -/
structure Event where
  name : Text
  detail : Text
  deriving DecidableEq, Repr

namespace Event

/-- The line of an event in the log. -/
def line (e : Event) : Text := e.name ++ ": ".toList ++ e.detail ++ ['\n']

/-- A pass took a text to another, both told by their sizes in bytes. -/
def ofPass (p : Pass) (input output : Text) : Event where
  name := "render.pass".toList
  detail := "pass=".toList ++ p.name ++ " in=".toList ++ Text.decimal (Text.utf8Length input) ++
    " out=".toList ++ Text.decimal (Text.utf8Length output)

/-- The end of a part of the work whose time is taken. -/
def scope (name : Text) : Event := ⟨"perf.scope".toList, name⟩

end Event

namespace Session

/-- The first line of an event log. -/
def logHeader : Text := "livemark render debug log start\n".toList

/-- Close the log. -/
def closeLog (s : Session) : Session := { s with log := none }

/-- Close the log and open one at a path, with its header line. -/
def openLog (s : Session) (path : Text) : Except Fault Unit × Session :=
  match s.store.fileLocation path with
  | .ok l => (.ok (), { s with store := s.store.put l (.file (.text logHeader)), log := some l })
  | .error f => (.error f, s.closeLog)

/-- Open a log at a path if there is one, or else close the log. -/
def setLog (s : Session) : Option Text → Except Fault Unit × Session
  | some path => s.openLog path
  | none => (.ok (), s.closeLog)

/-- The store with a text added to the end of a file. -/
def appendTo (store : Store) (l : Location) (added : Text) : Store :=
  match store.find? l with
  | some (.file (.text t)) => store.put l (.file (.text (t ++ added)))
  | _ => store

/-- Write an event to the log, if one is open. -/
def record (s : Session) (e : Event) : Session :=
  match s.log with
  | some l => { s with store := appendTo s.store l e.line }
  | none => s

/-- Write the end of a timed part of the work to the log, if render times are wanted. -/
def recordScope (s : Session) (name : Text) : Session :=
  if s.timing then s.record (.scope name) else s

/-! ## Rendering -/

/-- Do some passes over a text, each reading what the one before it left. While the log is open, an
event is written for each. -/
def renderPasses : List Pass → Text → Session → Text × Session
  | [], html, s => (html, s)
  | p :: ps, html, s =>
    let next := p.apply html
    renderPasses ps next (if s.log.isSome then s.record (.ofPass p html next) else s)

/-- Render a text: its HTML, and the session with the events of the rendering. The empty text needs
no pass and has no event. -/
def renderText (s : Session) (t : Text) : Text × Session :=
  if t = [] then ([], s)
  else
    let (html, s) := renderPasses Pass.all t s
    (html, s.recordScope "document.parse".toList)

/-- The session after a text is rendered. -/
def recordRender (s : Session) (t : Text) : Session := (s.renderText t).2

end Session

end MarkdownPreview

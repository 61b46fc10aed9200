import MarkdownPreview.Failure
import MarkdownPreview.Store.File
/-!
# Sessions

A session is what a running preview can see and change: the files, its standard input, what it has
printed, how much more its output takes, the event log that is open, and whether render times are
wanted. An `Action` may fail, and keeps what it changed until then.
-/

namespace MarkdownPreview

/-- An output that takes only so many characters more, and tells a fault from then on: the reader of
a pipe goes away, or a disk is full. -/
structure Limit where
  room : Nat
  fault : Fault
  deriving DecidableEq, Repr

/-- The state of a running preview. -/
structure Session where
  store : Store
  /-- What is left to read from standard input. -/
  input : Content := .text []
  /-- What was written to standard output. -/
  printed : Text := []
  /-- Where the output ends, if it does not take all that is written to it. -/
  limit : Option Limit := none
  /-- The file the event log goes to, if it is open. -/
  log : Option Location := none
  /-- Render times are wanted. -/
  timing : Bool := false
  deriving Repr

namespace Session

/-- What the output takes of a text. -/
def taken (s : Session) (t : Text) : Text :=
  match s.limit with
  | some limit => t.take limit.room
  | none => t

/-- The fault the output tells when it does not take the whole of a text. -/
def refusal? (s : Session) (t : Text) : Option Fault :=
  match s.limit with
  | some limit => if t.length ≤ limit.room then none else some limit.fault
  | none => none

/-- Print a text, or as much of it as the output takes. -/
def print (s : Session) (t : Text) : Session :=
  { s with
    printed := s.printed ++ s.taken t
    limit := s.limit.map fun limit => { limit with room := limit.room - t.length } }

end Session

/-- A computation in a session that may fail and keeps the state it reached. -/
abbrev Action := ExceptT Failure (StateM Session)

namespace Action

/-- Run an action from a session to its result and the session it leaves. -/
def runIn {α : Type} (a : Action α) (s : Session) : Except Failure α × Session := a.run s

/-- The result of an operation on the session's store, a fault told as a failure. -/
def ofStore {α : Type} (failure : Fault → Failure) (op : Store → Except Fault α) : Action α := do
  match op (← get).store with
  | .ok a => pure a
  | .error f => throw (failure f)

/-- Change the session's store, or leave it alone and tell the fault as a failure. -/
def changeStore (failure : Fault → Failure) (op : Store → Except Fault Store) : Action Unit := do
  let store ← ofStore failure op
  modify ({ · with store })

/-- Tell a failure of an action as another one. -/
def mapFailure {α : Type} (f : Failure → Failure) (a : Action α) : Action α := a.adapt f

end Action

end MarkdownPreview

import MarkdownPreview.CommandLine.Run
/-!
# The program

The outer layer. It takes the files a command line may look at into a store, runs the command line
on that store, prints what it prints, and writes what changed back to the disk. A preview that is
watched is rendered again whenever its file has changed and has settled.
-/

namespace MarkdownPreview.Program

/-! ## The disk -/

/-- The bytes of a file as content: a text, if they are one. -/
def contentOfBytes (bytes : ByteArray) : Content :=
  match String.fromUTF8? bytes with
  | some s => .text s.toList
  | none => .binary bytes.toList

/-- The bytes of some content. -/
def bytesOfContent : Content → ByteArray
  | .text t => (String.ofList t).toUTF8
  | .binary bytes => ⟨bytes.toArray⟩

/-- What the disk holds at a path. -/
def probe (path : String) : IO (Option Entry) := do
  try
    return some (.file (contentOfBytes (← IO.FS.readBinFile path)))
  catch
    | .inappropriateType .. => return some .directory
    | _ => return none

/-- The absolute path of a location. -/
def pathOf (l : Location) : String := String.ofList ('/' :: ['/'].intercalate l)

/-- The locations on the way of a path, its end included. -/
def locationsOf (here : Location) (path : Text) : List Location :=
  let start := if path.head? = some '/' then [] else here
  let visit := fun (visited : List Location × Location) (name : Text) =>
    let next := (Store.enter visited.2 name).toOption.getD visited.2
    (next :: visited.1, next)
  ((Store.names path).foldl visit ([], start)).1.reverse

/-- Take what the disk holds on the way of some paths into a store. -/
def snapshot (paths : List Text) : IO Store := do
  let here := Store.names (← IO.currentDir).toString.toList
  let mut store : Store := ⟨[], here⟩
  for l in locationsOf [] ('/' :: ['/'].intercalate here) do
    store := store.put l .directory
  for path in paths do
    for l in locationsOf here path do
      if (store.find? l).isNone then
        if let some e ← probe (pathOf l) then store := store.put l e
  return store

/-- Write what changed from one store to another to the disk. -/
def commit (before after : Store) : IO Unit := do
  for (l, _) in before.entries do
    if (after.find? l).isNone then IO.FS.removeFile (pathOf l)
  for (l, e) in after.entries.reverse do
    if before.find? l != some e then
      match e with
      | .directory => IO.FS.createDirAll (pathOf l)
      | .file c => IO.FS.writeBinFile (pathOf l) (bytesOfContent c)

/-! ## Running -/

/-- All that is left on a stream. -/
partial def readAll (stream : IO.FS.Stream) (read : ByteArray := .empty) : IO ByteArray := do
  let bytes ← stream.read 65536
  if bytes.isEmpty then return read else readAll stream (read ++ bytes)

/-- The paths a run may look at. -/
def pathsOf (env : CommandLine.Environment) (arguments : List Text) : List Text :=
  let named := match CommandLine.parse arguments with
    | .ok i => i.file.toList ++ i.output.toList
    | .error _ => []
  let config := [env.globalPath, Defaults.localPath]
  named ++ config ++ env.debugLog.toList ++ (env.flags arguments).debugLog.toList

/-- The event logs that the config files name. -/
def savedLogs (env : CommandLine.Environment) (store : Store) : List Text :=
  [env.globalPath, Defaults.localPath].filterMap fun path =>
    match store.readText path with
    | .ok t => (Flags.decode t).debugLog
    | .error _ => none

/-- Print a text to standard output, up to the fault that stops it if there is one. -/
def putText (t : Text) : IO (Option Fault) := do
  let out ← IO.getStdout
  try
    out.putStr (String.ofList t)
    out.flush
    return none
  catch
    | .resourceVanished .. => return some .brokenPipe
    | .resourceExhausted .. => return some .noSpace
    | _ => return some .inputOutput

/-- Run something in a session and print what it prints. If standard output does not take that, the
run is the one in which it takes no more. -/
def printing {α : Type} (run : Session → α × Session) (s : Session) : IO (α × Session) := do
  let (result, after) := run s
  match ← putText after.printed with
  | none => return (result, after)
  | some fault => return run { s with limit := some ⟨0, fault⟩ }

/-- The bytes of the file that a preview is watched for. -/
def watched (p : Preview) : IO (Option Entry) :=
  match p.source with
  | .file path => probe (String.ofList path)
  | .input | .guide => return none

/-- Render a preview again each time its file has changed and has been quiet since. -/
partial def watch (p : Preview) (paths : List Text) (last : Session) (seen : Option Entry) :
    IO Unit := do
  IO.sleep 250
  let now ← watched p
  if now == seen then watch p paths last seen
  else
    IO.sleep Preview.debounce.toUInt32
    if (← watched p) == now then
      let store ← snapshot paths
      let (result, s) ← printing p.renderAgain.runIn { last with store, printed := [] }
      commit store s.store
      match result with
      | .ok () => watch p paths s now
      | .error f => throw (IO.userError (String.ofList f.message))
    else watch p paths last seen

/-- The text of an environment variable. -/
def environmentVariable (name : String) : IO (Option Text) :=
  return (← IO.getEnv name).map String.toList

/-- Run the program with its arguments. -/
def run (arguments : List Text) : IO UInt32 := do
  let env : CommandLine.Environment :=
    { configHome := ← environmentVariable "XDG_CONFIG_HOME"
      home := ← environmentVariable "HOME"
      debugLog := ← environmentVariable "LIVEMARK_RENDER_DEBUG_LOG" }
  let paths := pathsOf env arguments
  let paths := paths ++ savedLogs env (← snapshot paths)
  let store ← snapshot paths
  let readsInput : Bool := match CommandLine.parse arguments with
    | .ok i => Source.ofArgument i.file == .input
    | .error _ => false
  let input ← if readsInput then readAll (← IO.getStdin) else pure .empty
  let start ← IO.monoMsNow
  let (outcome, s) ←
    printing (CommandLine.run env arguments) { store, input := contentOfBytes input }
  commit store s.store
  (← IO.getStderr).putStr (String.ofList outcome.report)
  if s.timing then
    IO.eprintln s!"[perf] preview.render: {(← IO.monoMsNow) - start} ms"
  match outcome with
  | .rendered p => if p.watch then watch p paths s (← watched p)
  | _ => pure ()
  return outcome.status.toUInt32

end MarkdownPreview.Program

/-- The command line. -/
def main (arguments : List String) : IO UInt32 :=
  MarkdownPreview.Program.run (arguments.map String.toList)

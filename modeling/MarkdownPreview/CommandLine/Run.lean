import MarkdownPreview.CommandLine.Grammar
import MarkdownPreview.Defaults
import MarkdownPreview.Preview
/-!
# Running a command line

A command line that is accepted is run in this order: saved defaults are cleared, then the flags of
this run are saved, then the defaults are loaded, and then the preview is rendered with the flags of
this run over the folder's and the folder's over the user's. Clearing also keeps this run from
loading any. The flags of this run are those `Flags.ofTokens` finds among all its tokens, the
program's name included. A log that cannot be opened does not stop the run.
-/

namespace MarkdownPreview.CommandLine

/-- What a run is told besides its arguments. -/
structure Environment where
  /-- How the program is called. -/
  program : Text := "livemark".toList
  /-- The user's folder for config files. -/
  configHome : Option Text := none
  /-- The user's home folder. -/
  home : Option Text := none
  /-- The event log of a run whose flags name none. -/
  debugLog : Option Text := none
  deriving DecidableEq, Repr

/-- The user's config file. -/
def Environment.globalPath (env : Environment) : Text :=
  Defaults.globalPath env.configHome env.home

/-- The flags among the tokens of a command line. -/
def Environment.flags (env : Environment) (arguments : List Text) : Flags :=
  Flags.ofTokens (env.program :: arguments)

/-- Clear and save the defaults, as a command line asks. -/
def updateDefaults (env : Environment) (i : Invocation) (flags : Flags) : Action Unit := do
  if i.clear then Defaults.clear env.globalPath
  if i.save then Defaults.save env.globalPath flags

/-- The defaults of a run: the folder's over the user's, or none if they are cleared. -/
def loadDefaults (env : Environment) (i : Invocation) : Action Flags := do
  if i.clear then return {}
  else
    let userFlags ← Defaults.load env.globalPath
    let folderFlags ← Defaults.load Defaults.localPath
    return userFlags.merge folderFlags

/-- What a command line renders, with the flags that are in effect. -/
def preview (i : Invocation) (flags : Flags) : Preview where
  source := Source.ofArgument i.file
  output := i.output
  watch := flags.watch
  standalone := flags.standalone
  title := flags.title

/-- Set up the session's times and its event log. -/
def setUp (env : Environment) (flags : Flags) : Action Unit :=
  modify fun s => ({ s with timing := flags.perf }.setLog (flags.debugLog.or env.debugLog)).2

/-- Run a command line that is accepted, to the preview it has rendered. -/
def runInvocation (env : Environment) (i : Invocation) (flags : Flags) : Action Preview := do
  updateDefaults env i flags
  let defaults ← loadDefaults env i
  let effective := defaults.merge flags
  setUp env effective
  let p := preview i effective
  Action.mapFailure .preview p.run
  return p

/-! ## Outcomes -/

/-- How a run ends. -/
inductive Outcome
  /-- The preview is rendered; it goes on if it is watched. -/
  | rendered (preview : Preview)
  | failed (failure : Failure)
  | help
  | version
  | refused (error : UsageError)
  deriving DecidableEq, Repr

/-- The exit status of a run. -/
def Outcome.status : Outcome → Nat
  | .rendered _ | .help | .version => 0
  | .failed _ => 1
  | .refused _ => 2

/-- What the version option prints. -/
def versionText : Text := "livemark 0.1.0\n".toList

/-- What the help option prints. -/
def helpText : Text := Text.joinLines <| List.map String.toList
  ["Render markdown to HTML for live preview",
   "",
   "Usage: livemark [OPTIONS] [FILE]",
   "",
   "Arguments:",
   "  [FILE]  Markdown file to render, `-` for stdin, or nothing for the syntax guide",
   "",
   "Options:",
   "  -o, --output <PATH>            Write HTML to this file instead of stdout",
   "  -w, --watch                    Re-render whenever the file changes",
   "  -s, --standalone               Emit a complete HTML page instead of a fragment",
   "      --title <TITLE>            Page title for --standalone (defaults to the file name)",
   "      --perf                     Print render timings to stderr",
   "      --render-debug-log <PATH>  Write detailed render/watch debug events to a file",
   "      --save                     Save current command-line flags as defaults",
   "      --clear                    Clear saved defaults",
   "  -h, --help                     Print help",
   "  -V, --version                  Print version",
   ""]

/-- What is wrong with a command line, in words. -/
def UsageError.message : UsageError → Text
  | .unknown token => "unexpected argument '".toList ++ token ++ "' found".toList
  | .repeated name => "the argument '".toList ++ name ++ "' cannot be used multiple times".toList
  | .missingValue name =>
    "a value is required for '".toList ++ name ++ "' but none was supplied".toList
  | .unexpectedValue name => "unexpected value for '".toList ++ name ++ "' found".toList

/-- What a run reports on standard error when it ends. -/
def Outcome.report : Outcome → Text
  | .failed f => f.report
  | .refused e =>
    "error: ".toList ++ e.message ++
      "\n\nUsage: livemark [OPTIONS] [FILE]\n\nFor more information, try '--help'.\n".toList
  | .rendered _ | .help | .version => []

/-- Run a command line in a session. A line that is refused changes nothing. -/
def run (env : Environment) (arguments : List Text) (s : Session) : Outcome × Session :=
  match parse arguments with
  | .error (.error e) => (.refused e, s)
  | .error .help => (.help, s.print helpText)
  | .error .version => (.version, s.print versionText)
  | .ok i =>
    match (runInvocation env i (env.flags arguments)).runIn s with
    | (.ok p, s) => (.rendered p, s)
    | (.error f, s) => (.failed f, s)

end MarkdownPreview.CommandLine

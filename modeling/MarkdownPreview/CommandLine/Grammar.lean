import MarkdownPreview.Text.Basic
/-!
# The command line

Options are written long or short. A long option takes its value after `=` or from the next token; a
short one takes the rest of its token, a leading `=` aside, or the next token; short switches can
share a token. A token that starts with `-` is no value, unless it is `-` alone. After `--` every
token is an operand, and there is one operand at most. Nothing may be given twice, and no path is
empty.

The line is read from left to right, and asking for help or for the version ends the reading there.
-/

namespace MarkdownPreview.CommandLine

/-! ## Options -/

/-- An option that takes a value. -/
inductive Valued
  | output
  | title
  | debugLog
  deriving DecidableEq, Repr

/-- An option that is given or not. -/
inductive Switch
  | watch
  | standalone
  | perf
  | save
  | clear
  deriving DecidableEq, Repr

/-- What an option does. -/
inductive Flag
  | valued (option : Valued)
  | switch (option : Switch)
  | help
  | version
  deriving DecidableEq, Repr

/-- The option of a long name. -/
def Flag.ofLong? (name : Text) : Option Flag :=
  [("output".toList, Flag.valued .output), ("watch".toList, .switch .watch),
    ("standalone".toList, .switch .standalone), ("title".toList, .valued .title),
    ("perf".toList, .switch .perf), ("render-debug-log".toList, .valued .debugLog),
    ("save".toList, .switch .save), ("clear".toList, .switch .clear), ("help".toList, .help),
    ("version".toList, .version)].lookup name

/-- The option of a letter. -/
def Flag.ofShort? : Char → Option Flag
  | 'o' => some (.valued .output)
  | 'w' => some (.switch .watch)
  | 's' => some (.switch .standalone)
  | 'h' => some .help
  | 'V' => some .version
  | _ => none

/-! ## What a command line says -/

/-- What a command line asks for. -/
structure Invocation where
  file : Option Text := none
  output : Option Text := none
  title : Option Text := none
  debugLog : Option Text := none
  watch : Bool := false
  standalone : Bool := false
  perf : Bool := false
  save : Bool := false
  clear : Bool := false
  deriving DecidableEq, Repr

/-- What is wrong with a command line. -/
inductive UsageError
  | unknown (token : Text)
  | repeated (name : Text)
  | missingValue (name : Text)
  | unexpectedValue (name : Text)
  deriving DecidableEq, Repr

/-- Why a command line asks for no preview. -/
inductive Stop
  | error (e : UsageError)
  | help
  | version
  deriving DecidableEq, Repr

/-- The long name of an option with a value. -/
def Valued.long : Valued → Text
  | .output => "--output".toList
  | .title => "--title".toList
  | .debugLog => "--render-debug-log".toList

/-- The long name of a switch. -/
def Switch.long : Switch → Text
  | .watch => "--watch".toList
  | .standalone => "--standalone".toList
  | .perf => "--perf".toList
  | .save => "--save".toList
  | .clear => "--clear".toList

namespace Invocation

/-- The value that is given to an option so far. -/
def value? (i : Invocation) : Valued → Option Text
  | .output => i.output
  | .title => i.title
  | .debugLog => i.debugLog

/-- Give an option its value. -/
def setValue (i : Invocation) (v : Text) : Valued → Invocation
  | .output => { i with output := some v }
  | .title => { i with title := some v }
  | .debugLog => { i with debugLog := some v }

/-- The switch is given already. -/
def isOn (i : Invocation) : Switch → Bool
  | .watch => i.watch
  | .standalone => i.standalone
  | .perf => i.perf
  | .save => i.save
  | .clear => i.clear

/-- Turn a switch on. -/
def turnOn (i : Invocation) : Switch → Invocation
  | .watch => { i with watch := true }
  | .standalone => { i with standalone := true }
  | .perf => { i with perf := true }
  | .save => { i with save := true }
  | .clear => { i with clear := true }

/-- Give an option its value, once; only a title may be empty. -/
def give (i : Invocation) (o : Valued) (v : Text) : Except Stop Invocation :=
  if (i.value? o).isSome then .error (.error (.repeated o.long))
  else if v = [] ∧ o ≠ .title then .error (.error (.missingValue o.long))
  else .ok (i.setValue v o)

/-- Turn a switch on, once. -/
def switchOn (i : Invocation) (s : Switch) : Except Stop Invocation :=
  if i.isOn s then .error (.error (.repeated s.long)) else .ok (i.turnOn s)

/-- Name the file, once. -/
def operand (i : Invocation) (token : Text) : Except Stop Invocation :=
  if i.file.isSome then .error (.error (.unknown token))
  else if token = [] then .error (.error (.missingValue "[FILE]".toList))
  else .ok { i with file := some token }

end Invocation

/-! ## Reading -/

/-- What is read so far, and the option that waits for its value. -/
structure Reading where
  invocation : Invocation := {}
  waiting : Option Valued := none
  deriving DecidableEq, Repr

/-- The token can be the value of the option before it. -/
def isValue (token : Text) : Bool := token.head? != some '-' || token == ['-']

/-- Read the letters of a token of short options. -/
def readShort (i : Invocation) : Text → Except Stop Reading
  | [] => .ok { invocation := i }
  | c :: rest =>
    match Flag.ofShort? c with
    | none => .error (.error (.unknown ['-', c]))
    | some .help => .error .help
    | some .version => .error .version
    | some (.switch s) => do readShort (← i.switchOn s) rest
    | some (.valued o) =>
      if rest = [] then .ok { invocation := i, waiting := some o }
      else do
        let i ← i.give o ((['='].isPrefixOf? rest).getD rest)
        .ok { invocation := i }

/-- Read a long option: its name, and its value if the token holds one. -/
def readLong (i : Invocation) (name : Text) (value : Option Text) : Except Stop Reading :=
  match Flag.ofLong? name, value with
  | none, _ => .error (.error (.unknown ('-' :: '-' :: name)))
  | some (.valued o), none => .ok { invocation := i, waiting := some o }
  | some (.valued o), some v => do .ok { invocation := ← i.give o v }
  | some (.switch s), none => do .ok { invocation := ← i.switchOn s }
  | some .help, none => .error .help
  | some .version, none => .error .version
  | some _, some _ => .error (.error (.unexpectedValue ('-' :: '-' :: name)))

/-- Read a token that is neither a value nor `--`. -/
def readToken (i : Invocation) (token : Text) : Except Stop Reading :=
  match token with
  | '-' :: '-' :: long =>
    readLong i (long.takeWhile (· != '=')) (['='].isPrefixOf? (long.dropWhile (· != '=')))
  | '-' :: c :: short => readShort i (c :: short)
  | token => do .ok { invocation := ← i.operand token }

/-- Read tokens, given what is read so far. -/
def readTokens (r : Reading) : List Text → Except Stop Invocation
  | [] =>
    match r.waiting with
    | some o => .error (.error (.missingValue o.long))
    | none => .ok r.invocation
  | token :: tokens =>
    match r.waiting with
    | some o =>
      if isValue token then do
        readTokens { invocation := ← r.invocation.give o token } tokens
      else .error (.error (.missingValue o.long))
    | none =>
      if token = ['-', '-'] then tokens.foldlM Invocation.operand r.invocation
      else do readTokens (← readToken r.invocation token) tokens

/-- What the arguments of the program ask for. -/
def parse (arguments : List Text) : Except Stop Invocation := readTokens {} arguments

end MarkdownPreview.CommandLine

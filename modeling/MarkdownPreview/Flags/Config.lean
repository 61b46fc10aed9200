import MarkdownPreview.Flags.Token
import MarkdownPreview.Text.Blank
/-!
# Config files

A config file holds flag tokens, any number on a line; empty lines and lines that start with `#` are
skipped. A line that starts with an option keeps all that follows as the option's value, so titles
and paths may hold blanks. `encode` writes one flag to a line in that form.
-/

namespace MarkdownPreview.Flags

/-! ## Reading -/

/-- The options whose value is the rest of their line. -/
def lineOptions : List Text := ["--title".toList, "--render-debug-log".toList]

/-- The value a line gives to the option it starts with, after a `=` or a blank. -/
def lineValue? (option line : Text) : Option Text :=
  (option.isPrefixOf? line).bind fun rest =>
    match rest with
    | c :: value => if c = '=' ∨ Text.isBlank c = true then some (Text.trim value) else none
    | [] => none

/-- The tokens of a line that is trimmed. -/
def lineTokens (line : Text) : List Text :=
  match lineOptions.findSome? fun option => (lineValue? option line).map fun v => [option, v] with
  | some tokens => tokens
  | none => Text.words line

/-- The lines of a config file that say something, trimmed. -/
def configLines (content : Text) : List Text :=
  ((Text.lines content).map Text.trim).filter fun line => line ≠ [] && line.head? != some '#'

/-- The tokens of a config file. -/
def configTokens (content : Text) : List Text := (configLines content).flatMap lineTokens

/-- The flags a config file sets. -/
def decode (content : Text) : Flags := ofTokens (configTokens content)

/-! ## Writing -/

/-- The first line of a saved config file. -/
def configHeader : Text := "# livemark defaults (saved with --save)".toList

/-- The lines that set some flags. -/
def flagLines (f : Flags) : List Text :=
  (if f.watch then ["--watch".toList] else []) ++
    (if f.standalone then ["--standalone".toList] else []) ++
    (if f.perf then ["--perf".toList] else []) ++
    (f.title.map ("--title=".toList ++ ·)).toList ++
    (f.debugLog.map ("--render-debug-log ".toList ++ ·)).toList

/-- The config file that saves some flags. -/
def encode (f : Flags) : Text := Text.joinLines (configHeader :: flagLines f) ++ ['\n']

end MarkdownPreview.Flags

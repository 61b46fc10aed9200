import MarkdownPreview.Flags.Basic
/-!
# Flags from tokens

Tokens are scanned from left to right for the flags they set. An option takes its value from the
same token after `=` or else from the next token, whatever that is; an option with no token after
it, and every token that is not known, sets nothing.
-/

namespace MarkdownPreview.Setting

/-- The switch a token is. -/
def switch? (token : Text) : Option Setting :=
  if token = "--watch".toList ∨ token = "-w".toList then some .watch
  else if token = "--standalone".toList ∨ token = "-s".toList then some .standalone
  else if token = "--perf".toList then some .perf
  else none

/-- The option a token is, to be given its value. -/
def option? (token : Text) : Option (Text → Setting) :=
  if token = "--title".toList then some .title
  else if token = "--render-debug-log".toList then some .debugLog
  else none

/-- The option a token sets with a value of its own. -/
def assignment? (token : Text) : Option Setting :=
  (("--title=".toList.isPrefixOf? token).map .title).or
    (("--render-debug-log=".toList.isPrefixOf? token).map .debugLog)

/-- The settings in a list of tokens. -/
def ofTokens : List Text → List Setting
  | [] => []
  | [token] => (switch? token).toList ++ (assignment? token).toList
  | token :: next :: tokens =>
    match option? token with
    | some option => option next :: ofTokens tokens
    | none => (switch? token).toList ++ (assignment? token).toList ++ ofTokens (next :: tokens)

end MarkdownPreview.Setting

namespace MarkdownPreview.Flags

/-- The flags a list of tokens sets. -/
def ofTokens (tokens : List Text) : Flags := ofSettings (Setting.ofTokens tokens)

end MarkdownPreview.Flags

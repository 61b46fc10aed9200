import MarkdownPreview.Store.Fault
/-!
# Failures

A failure is told as a chain of messages, the outermost first: what could not be done, and below it
the fault that was in the way.
-/

namespace MarkdownPreview

/-- Why a preview, or the reading and saving of defaults, failed. -/
inductive Failure
  | readConfig (path : Text) (fault : Fault)
  | createConfigDirectory (path : Text) (fault : Fault)
  | writeConfig (path : Text) (fault : Fault)
  | removeConfig (path : Text) (fault : Fault)
  | fileMissing (path : Text)
  | nothingToWatch
  | readFile (path : Text) (fault : Fault)
  | readInput (fault : Fault)
  | writeFile (path : Text) (fault : Fault)
  | print (fault : Fault)
  | watch (path : Text)
  | preview (failure : Failure)
  deriving DecidableEq, Repr

namespace Failure

/-- The messages of a failure, the outermost first. -/
def chain : Failure → List Text
  | .readConfig path f => ["Failed to read config ".toList ++ path, f.message]
  | .createConfigDirectory path f => ["Failed to create config dir ".toList ++ path, f.message]
  | .writeConfig path f => ["Failed to write config ".toList ++ path, f.message]
  | .removeConfig path f => ["Failed to remove ".toList ++ path, f.message]
  | .fileMissing path => ["File not found: ".toList ++ path]
  | .nothingToWatch => ["--watch needs a file to watch".toList]
  | .readFile path f => ["Failed to read ".toList ++ path, f.message]
  | .readInput f => ["Failed to read standard input".toList, f.message]
  | .writeFile path f => ["Failed to write ".toList ++ path, f.message]
  | .print f => ["Failed to write standard output".toList, f.message]
  | .watch path => ["Failed to watch ".toList ++ path]
  | .preview failure => "Preview error".toList :: failure.chain

/-- The messages on one line. -/
def message (f : Failure) : Text := (": ".toList).intercalate f.chain

/-- A message with its lines but the first moved in. -/
def indented (width : Nat) (message : Text) : Text :=
  ('\n' :: List.replicate width ' ').intercalate (Text.lines message)

/-- The causes of a failure, one below the other; more than one are numbered. -/
def causes : List Text → List Text
  | [cause] => ["    ".toList ++ indented 4 cause]
  | causes => causes.zipIdx.map fun (cause, n) =>
      "    ".toList ++ Text.decimal n ++ ": ".toList ++ indented 7 cause

/-- What a program that ends with the failure reports. -/
def report (f : Failure) : Text :=
  match f.chain with
  | [] => []
  | [message] => "Error: ".toList ++ message ++ ['\n']
  | message :: rest =>
    "Error: ".toList ++ message ++ "\n\nCaused by:\n".toList ++
      Text.joinLines (causes rest) ++ ['\n']

end Failure

end MarkdownPreview

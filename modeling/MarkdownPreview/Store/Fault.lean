import MarkdownPreview.Text.Basic
/-!
# Faults

What can be wrong with a path, with the file it leads to or with what is written, and the text that
says so.
-/

namespace MarkdownPreview

/-- Why something cannot be read or written. -/
inductive Fault
  | notFound
  | alreadyExists
  | notADirectory
  | isADirectory
  | nameTooLong
  | nulInName
  | notText
  | brokenPipe
  | noSpace
  | inputOutput
  deriving DecidableEq, Repr

/-- The text of a fault. -/
def Fault.message : Fault → Text
  | .notFound => "No such file or directory (os error 2)".toList
  | .alreadyExists => "File exists (os error 17)".toList
  | .notADirectory => "Not a directory (os error 20)".toList
  | .isADirectory => "Is a directory (os error 21)".toList
  | .nameTooLong => "File name too long (os error 36)".toList
  | .nulInName => "file name contained an unexpected NUL byte".toList
  | .notText => "stream did not contain valid UTF-8".toList
  | .brokenPipe => "Broken pipe (os error 32)".toList
  | .noSpace => "No space left on device (os error 28)".toList
  | .inputOutput => "Input/output error (os error 5)".toList

end MarkdownPreview

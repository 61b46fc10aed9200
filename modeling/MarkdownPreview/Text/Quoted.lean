import MarkdownPreview.Text.Printable
/-!
# Quoted texts

A text is shown between double quotes. A character that could be misread is escaped: the usual six
by a letter or themselves after a backslash, and one that is not printable by its code point.
-/

namespace MarkdownPreview.Text

/-- A code point in lower-case hexadecimal, between braces. -/
def escapeCodePoint (c : Char) : Text :=
  "\\u\x7b".toList ++ Nat.toDigits 16 c.toNat ++ "\x7d".toList

/-- A character inside quotes. -/
def escape (c : Char) : Text :=
  match c with
  | '\x00' => "\\0".toList
  | '\t' => "\\t".toList
  | '\r' => "\\r".toList
  | '\n' => "\\n".toList
  | '\\' => "\\\\".toList
  | '"' => "\\\"".toList
  | '\'' => "\\'".toList
  | c => if isPrintable c then [c] else escapeCodePoint c

/-- A text between quotes. -/
def quote (t : Text) : Text := '"' :: t.flatMap escape ++ ['"']

end MarkdownPreview.Text

import MarkdownPreview.Text.Basic
/-!
# Lines with their breaks

Headings and rules look at lines that end at `"\r\n"`, at `'\n'` or at a lone `'\r'`, and leave the
break itself alone. `Line.ofText` cuts a text into such lines and `Line.print` writes them back,
so `mapLines` can only change what stands between the breaks (`print_ofText`, `mapLines_id`).
-/

namespace MarkdownPreview.Text

/-- What ends a line. -/
inductive LineBreak
  | lf
  | cr
  | crlf
  deriving DecidableEq, Repr

/-- The characters of a line break. -/
def LineBreak.text : LineBreak → Text
  | .lf => ['\n']
  | .cr => ['\r']
  | .crlf => ['\r', '\n']

/-- A line and the break that ends it; only the last line of a text has none. -/
structure Line where
  body : Text
  ending : Option LineBreak
  deriving DecidableEq, Repr

namespace Line

/-- The characters that end the line. -/
def endingText (l : Line) : Text :=
  match l.ending with
  | some b => b.text
  | none => []

/-- Put a character in front of the first line. -/
def consFirst (c : Char) : List Line → List Line
  | [] => [⟨[c], none⟩]
  | l :: ls => ⟨c :: l.body, l.ending⟩ :: ls

/-- The lines of a text, `"\r\n"` being one break. -/
def ofText : Text → List Line
  | [] => [⟨[], none⟩]
  | '\r' :: '\n' :: t => ⟨[], some .crlf⟩ :: ofText t
  | c :: t =>
    if c = '\n' then ⟨[], some .lf⟩ :: ofText t
    else if c = '\r' then ⟨[], some .cr⟩ :: ofText t
    else consFirst c (ofText t)

/-- Each line followed by its break. -/
def print (ls : List Line) : Text := ls.flatMap fun l => l.body ++ l.endingText

theorem print_consFirst (c : Char) (ls : List Line) : print (consFirst c ls) = c :: print ls := by
  cases ls <;> simp [consFirst, print, endingText]

/-- Cutting a text into lines loses nothing. -/
theorem print_ofText (t : Text) : print (ofText t) = t := by
  fun_induction ofText t with
  | case1 => rfl
  | case2 t ih => simpa [print, endingText, LineBreak.text] using ih
  | case3 t _ ih => simpa [print, endingText, LineBreak.text] using ih
  | case4 t _ _ ih => simpa [print, endingText, LineBreak.text] using ih
  | case5 c t _ _ _ ih => rw [print_consFirst, ih]

end Line

/-- Change every line of a text and keep the breaks between them. -/
def mapLines (f : Text → Text) (t : Text) : Text :=
  Line.print ((Line.ofText t).map fun l => { l with body := f l.body })

/-- Lines that are left alone give back the text. -/
theorem mapLines_id (t : Text) : mapLines id t = t := by simp [mapLines, Line.print_ofText]

end MarkdownPreview.Text

import MarkdownPreview.Text.Basic
/-!
# Tags

An element without attributes is its body between an opening and a closing tag of one name.
-/

namespace MarkdownPreview

/-- The opening tag `<name>`. -/
def openTag (name : Text) : Text := '<' :: name ++ ['>']

/-- The closing tag `</name>`. -/
def closeTag (name : Text) : Text := '<' :: '/' :: name ++ ['>']

/-- A body between the two tags of its element. -/
def element (name body : Text) : Text := openTag name ++ body ++ closeTag name

end MarkdownPreview

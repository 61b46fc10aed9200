import MarkdownPreview.Markup.Delimited
import MarkdownPreview.Markup.Fence
import MarkdownPreview.Markup.Heading
import MarkdownPreview.Markup.Image
import MarkdownPreview.Markup.Link
import MarkdownPreview.Markup.Listing
import MarkdownPreview.Markup.Quote
import MarkdownPreview.Markup.Rule
import MarkdownPreview.Markup.Table
/-!
# Passes

Rendering is a row of passes, each over the whole text that the pass before it left. No document
tree is built. Code blocks come first, so their content is encoded before anything else looks at it;
images come before links because an image contains the shape of a link; links come last, so their
text is formatted already. Rendering is total: what no pass recognises stays as it is. The last of
the states between the passes is the rendered text (`getLastD_states`).
-/

namespace MarkdownPreview

/-- One pass over the whole text. -/
inductive Pass
  | codeBlocks
  | horizontalRules
  | tables
  | blockquotes
  | lists
  | headings
  | images
  | inlineFormats
  | links
  deriving DecidableEq, Repr

namespace Pass

/-- Every pass, in the order of rendering. -/
def all : List Pass :=
  [.codeBlocks, .horizontalRules, .tables, .blockquotes, .lists, .headings, .images,
    .inlineFormats, .links]

/-- The name of a pass in the event log. -/
def name : Pass → Text
  | .codeBlocks => "code_blocks".toList
  | .horizontalRules => "horizontal_rules".toList
  | .tables => "tables".toList
  | .blockquotes => "blockquotes".toList
  | .lists => "lists".toList
  | .headings => "headings".toList
  | .images => "images".toList
  | .inlineFormats => "inline_formats".toList
  | .links => "links".toList

/-- The pass of a name. -/
def ofName? (n : Text) : Option Pass := all.find? fun p => p.name = n

theorem ofName?_name (p : Pass) : ofName? p.name = some p := by cases p <;> decide

/-- What a pass does to a text. -/
def apply : Pass → Text → Text
  | .codeBlocks => Fence.codeBlocks
  | .horizontalRules => Rule.horizontalRules
  | .tables => Table.tables
  | .blockquotes => QuoteLine.blockquotes
  | .lists => Listing.lists
  | .headings => Heading.headings
  | .images => Image.images
  | .inlineFormats => Delimited.inlineFormats
  | .links => Link.links

/-- The text after each of some passes, each reading what the one before it left. -/
def states : List Pass → Text → List Text
  | [], _ => []
  | p :: ps, t => p.apply t :: states ps (p.apply t)

/-- The text after some passes. -/
def applyAll (ps : List Pass) (t : Text) : Text := ps.foldl (fun t p => p.apply t) t

/-- The last state is the text after all the passes. -/
theorem getLastD_states (ps : List Pass) (t : Text) : (states ps t).getLastD t = applyAll ps t := by
  induction ps generalizing t with
  | nil => rfl
  | cons p ps ih => rw [states, List.getLastD_cons, ih, applyAll, applyAll, List.foldl_cons]

end Pass

/-- The HTML of a markdown text. -/
def render (t : Text) : Text := Pass.applyAll Pass.all t

end MarkdownPreview

import MarkdownPreview.Text.Basic
/-!
# The syntax guide

The document that is rendered when no other is named: one example of everything the renderer
recognises.
-/

namespace MarkdownPreview

/-- The lines of the guide, the empty one after the last line break included. -/
def guideLines : List String :=
  ["# Markdown syntax guide",
   "",
   "---",
   "",
   "## Headings",
   "",
   "# Heading level 1",
   "## Heading level 2",
   "### Heading level 3",
   "#### Heading level 4",
   "##### Heading level 5",
   "###### Heading level 6",
   "",
   "## Emphasis",
   "",
   "*This text is italic*",
   "_This text is italic too_",
   "",
   "**This text is bold**",
   "__This text is bold too__",
   "",
   "_You can **combine** them_",
   "",
   "## Lists",
   "",
   "### Unordered",
   "",
   "* Item 1",
   "* Item 2",
   "    * Item 2a",
   "    * Item 2b",
   "",
   "### Ordered",
   "",
   "1. Item 1",
   "2. Item 2",
   "3. Item 3",
   "    1. Item 3a",
   "    2. Item 3b",
   "",
   "## Images",
   "",
   "![Alt text](https://example.com/picture.webp \"Image title\")",
   "",
   "## Links",
   "",
   "Read the [Markdown guide](https://www.markdownguide.org/).",
   "",
   "## Blockquotes",
   "",
   "> Markdown is a lightweight markup language for formatting plain text.",
   ">> It is often used for README files and forum posts.",
   "",
   "## Tables",
   "",
   "| Left column | Centered column |",
   "| ----------- |:---------------:|",
   "| left text   | centered text   |",
   "| left text   | centered text   |",
   "",
   "## Code blocks",
   "",
   "```",
   "let message = \"Hello, world!\";",
   "println!(\"\x7bmessage\x7d\");",
   "```",
   "",
   "## Inline code",
   "",
   "This preview is rendered by `livemark`.",
   ""]

/-- The guide. -/
def guide : Text := Text.joinLines (guideLines.map String.toList)

end MarkdownPreview

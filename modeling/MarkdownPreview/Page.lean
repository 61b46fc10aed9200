import MarkdownPreview.Text.Entity
/-!
# Pages

A rendered fragment becomes a page of its own: it goes into the article of an HTML document, and
the title goes, encoded, into the head.
-/

namespace MarkdownPreview.Page

/-- The title of a page that has no other. -/
def defaultTitle : Text := "Preview".toList

/-- What stands before the title. -/
def beforeTitle : Text :=
  "<!DOCTYPE html>\n<html>\n<head>\n<meta charset=\"utf-8\">\n".toList ++
    "<meta name=\"viewport\" content=\"width=device-width, initial-scale=1\">\n<title>".toList

/-- What stands between the title and the fragment. -/
def beforeBody : Text := "</title>\n</head>\n<body>\n<article class=\"prose\">\n".toList

/-- What stands after the fragment. -/
def afterBody : Text := "\n</article>\n</body>\n</html>\n".toList

/-- The page with a title and a fragment. -/
def wrap (title body : Text) : Text :=
  beforeTitle ++ Entity.encode title ++ beforeBody ++ body ++ afterBody

end MarkdownPreview.Page

import MarkdownPreview.Markup.Piece
import MarkdownPreview.Markup.Tag
import MarkdownPreview.Text.Blank
import MarkdownPreview.Text.DecimalDigit
/-!
# Lists

An item line is an indent of blanks, a marker, one blank, and at least one more character. The
marker is one of `*`, `+`, `-` in an unordered list, decimal digits and a point in an ordered one.

The open lists form a stack, innermost first, each with the kind and the indent of the item that
opened it. An item closes the lists it cannot be in, the deeper ones and one of its own indent but
another kind, and opens a list of its own if the innermost list left is shallower. A line that is no
item closes every list.
-/

namespace MarkdownPreview.Listing

/-- The two kinds of list. -/
inductive Kind
  | unordered
  | ordered
  deriving DecidableEq, Repr

/-- The element of a kind of list. -/
def Kind.tag : Kind → Text
  | .unordered => "ul".toList
  | .ordered => "ol".toList

/-! ## Items -/

/-- A list item: its kind, how many blanks it is indented by, and what it says. -/
structure Item where
  kind : Kind
  indent : Nat
  content : Text
  deriving DecidableEq, Repr

/-- The markers of an unordered item. -/
def bullets : List Char := ['*', '+', '-']

/-- The kind of the marker a text starts with, and what follows it. -/
def marker? (t : Text) : Option (Kind × Text) :=
  match t with
  | [] => none
  | c :: rest =>
    if c ∈ bullets then some (.unordered, rest)
    else if Text.isDecimalDigit c then
      (['.'].isPrefixOf? (t.dropWhile Text.isDecimalDigit)).map fun rest => (.ordered, rest)
    else none

/-- The item a line is. -/
def item? (line : Text) : Option Item :=
  match marker? (line.dropWhile Text.isBlank) with
  | some (kind, b :: c :: rest) =>
    if Text.isBlank b then
      some ⟨kind, (line.takeWhile Text.isBlank).length, Text.trim (c :: rest)⟩
    else none
  | _ => none

/-! ## The open lists -/

/-- An open list: its kind, and the indent of its items. -/
structure Frame where
  kind : Kind
  indent : Nat
  deriving DecidableEq, Repr

/-- The list an item belongs to. -/
def Item.frame (i : Item) : Frame := ⟨i.kind, i.indent⟩

/-- An item ends a deeper list, and one of its own indent but another kind. -/
def Item.ends (i : Item) (f : Frame) : Bool :=
  i.indent < f.indent || (i.indent == f.indent && i.kind != f.kind)

/-- The lists that stay open when an item comes. -/
def Item.kept (i : Item) (stack : List Frame) : List Frame := stack.dropWhile i.ends

/-- The list an item opens, given the lists that stayed open. -/
def Item.opened (i : Item) : List Frame → List Frame
  | [] => [i.frame]
  | top :: _ => if top.indent < i.indent then [i.frame] else []

/-- The open lists after an item. -/
def Item.enter (i : Item) (stack : List Frame) : List Frame :=
  i.opened (i.kept stack) ++ i.kept stack

/-- What a text's lines are to its lists. -/
inductive Event
  /-- A list opens inside the open ones. -/
  | opens (list : Frame)
  /-- An item of the innermost list. -/
  | item (item : Item)
  /-- The innermost list ends. -/
  | closes (list : Frame)
  /-- A line outside the lists. -/
  | line (text : Text)
  deriving DecidableEq, Repr

/-- Read lines, given the open lists. -/
def events : List Frame → List Text → List Event
  | stack, [] => stack.map .closes
  | stack, l :: ls =>
    match item? l with
    | some i =>
      (stack.takeWhile i.ends).map .closes ++ (i.opened (i.kept stack)).map .opens ++
        .item i :: events (i.enter stack) ls
    | none => stack.map .closes ++ .line l :: events [] ls

/-! ## Writing -/

/-- What is written for an event. -/
def Event.piece : Event → Piece
  | .opens f => .markup (openTag f.kind.tag)
  | .item i => .markup (element "li".toList i.content)
  | .closes f => .markup (closeTag f.kind.tag)
  | .line l => .line l

/-- Write the lists of a text as elements. -/
def lists (t : Text) : Text := Piece.print ((events [] (Text.lines t)).map Event.piece)

end MarkdownPreview.Listing

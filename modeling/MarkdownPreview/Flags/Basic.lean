import MarkdownPreview.Text.Basic
/-!
# Flags

The flags that can be saved as defaults. They come from three places, of which a later one wins:
switches add up, and a value replaces an earlier one. Tokens are read as settings, and the flags of
some tokens are what their settings make of the default flags.
-/

namespace MarkdownPreview

/-- What can be set for a preview. -/
structure Flags where
  watch : Bool := false
  standalone : Bool := false
  perf : Bool := false
  title : Option Text := none
  debugLog : Option Text := none
  deriving DecidableEq, Repr

namespace Flags

/-- Later flags over earlier ones. -/
def merge (earlier later : Flags) : Flags where
  watch := earlier.watch || later.watch
  standalone := earlier.standalone || later.standalone
  perf := earlier.perf || later.perf
  title := later.title.or earlier.title
  debugLog := later.debugLog.or earlier.debugLog

theorem merge_default (f : Flags) : f.merge {} = f := by simp [merge]

theorem default_merge (f : Flags) : merge {} f = f := by simp [merge]

theorem merge_assoc (f g h : Flags) : (f.merge g).merge h = f.merge (g.merge h) := by
  simp [merge, Bool.or_assoc, Option.or_assoc]

/-- The flags after each of some flags is merged over the ones before it. -/
def mergeStates : Flags → List Flags → List Flags
  | _, [] => []
  | merged, f :: fs => merged.merge f :: mergeStates (merged.merge f) fs

end Flags

/-! ## Settings -/

/-- One flag that is set. -/
inductive Setting
  | watch
  | standalone
  | perf
  | title (title : Text)
  | debugLog (path : Text)
  deriving DecidableEq, Repr

/-- The flags with one setting alone. -/
def Setting.flags : Setting → Flags
  | .watch => { watch := true }
  | .standalone => { standalone := true }
  | .perf => { perf := true }
  | .title t => { title := some t }
  | .debugLog p => { debugLog := some p }

/-- The flags some settings make, a later value over an earlier one. -/
def Flags.ofSettings (settings : List Setting) : Flags :=
  settings.foldl (fun flags s => flags.merge s.flags) {}

end MarkdownPreview

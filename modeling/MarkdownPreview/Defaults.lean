import MarkdownPreview.Flags.Config
import MarkdownPreview.Session
/-!
# Saved defaults

Flags can be saved in a config file of the user, and a folder can have a config file of its own over
it. A config file that does not exist sets nothing.
-/

namespace MarkdownPreview.Defaults

/-! ## Where the config files are -/

/-- The config file of the folder the program runs in. -/
def localPath : Text := ".livemarkrc".toList

/-- The user's config file, in the folder for config files if one is set, else below the home
folder, else in the folder the program runs in. -/
def globalPath (configHome home : Option Text) : Text :=
  match configHome, home with
  | some folder, _ => Path.join folder "livemark/config".toList
  | none, some folder => Path.join folder ".config/livemark/config".toList
  | none, none => localPath

/-! ## Loading, saving and clearing -/

/-- The flags a config file sets. -/
def load (path : Text) : Action Flags := do
  if (← get).store.pathExists path then
    return Flags.decode (← .ofStore (.readConfig path) (·.readText path))
  else
    return {}

/-- Make the directories above a file. -/
def makeParents (path : Text) : Action Unit := do
  let parent := (Path.parent? path).getD []
  let (result, store) := (← get).store.createDirectories parent
  modify ({ · with store })
  match result with
  | .ok () => pure ()
  | .error f => throw (.createConfigDirectory parent f)

/-- Save flags in a config file, in place of what it held. -/
def save (path : Text) (flags : Flags) : Action Unit := do
  makeParents path
  .changeStore (.writeConfig path) (·.write path (.text flags.encode))

/-- Remove a config file, if it exists. -/
def clear (path : Text) : Action Unit := do
  if (← get).store.pathExists path then .changeStore (.removeConfig path) (·.remove path)

end MarkdownPreview.Defaults

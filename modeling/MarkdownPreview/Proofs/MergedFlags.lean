import MarkdownPreview.CommandLine.Run
import MarkdownPreview.Proofs.SavedFlags
import MarkdownPreview.Proofs.TokenPhrases
/-!
# Flags from three places

The flags of a run come from the user's config file, from the folder's and from the command line,
each read on its own and then merged. Behind an option that still waits for its value
(`Setting.endsInOption`), the value would be taken from the next place. If no place ends in one, the
settings of the places are the settings of all their tokens (`Setting.ofTokens_append`), and merging
flags puts settings in a row.

Main result `run_eq_one_scan`: if neither config file ends in a waiting option, a run has the flags
that one reading of all tokens finds, the files' before those of the command line.
-/

namespace MarkdownPreview

/-! ## Tokens of config files -/

namespace Defaults

/-- The tokens of the config file at a path; one that does not exist has none. -/
def tokens (store : Store) (path : Text) : Except Fault (List Text) :=
  if store.pathExists path then (store.readText path).map Flags.configTokens else .ok []

/-- Loading reads the tokens of the file. -/
theorem runIn_load_of_tokens {path : Text} {ts : List Text} {s : Session}
    (h : tokens s.store path = .ok ts) : (load path).runIn s = (.ok (Flags.ofTokens ts), s) := by
  have hrun : (load path).runIn s = (if s.store.pathExists path then do
      return Flags.decode (← .ofStore (.readConfig path) (·.readText path))
    else return {} : Action Flags).runIn s := rfl
  rw [hrun]
  unfold tokens at h
  split at h
  · next hexists =>
    rw [if_pos hexists]
    cases hread : s.store.readText path with
    | error f => simp [hread, Except.map] at h
    | ok content =>
      have hts : Flags.configTokens content = ts := by simpa [hread, Except.map] using h
      rw [Action.runIn_bind, Action.runIn_ofStore, hread, ← hts]
      rfl
  · next hexists =>
    rw [if_neg hexists, ← Except.ok.inj h]
    rfl

end Defaults

/-! ## Runs -/

namespace CommandLine

variable {env : Environment} {i : Invocation} {arguments userTokens folderTokens : List Text}
  {s s' : Session}

/-- What is left of a run once its flags are known. -/
def runWith (env : Environment) (i : Invocation) (effective : Flags) : Action Preview := do
  setUp env effective
  let p := preview i effective
  Action.mapFailure .preview p.run
  return p

/-- How a run ends with the preview or the failure it has come to. -/
def ended : Except Failure Preview × Session → Outcome × Session
  | (.ok p, s) => (.rendered p, s)
  | (.error f, s) => (.failed f, s)

theorem run_of_parse (h : parse arguments = .ok i) :
    run env arguments s = ended ((runInvocation env i (env.flags arguments)).runIn s) := by
  rw [run, h]
  dsimp only
  split
  · next hrun => rw [hrun, ended]
  · next hrun => rw [hrun, ended]

theorem runInvocation_eq (flags : Flags) : runInvocation env i flags = (do
    updateDefaults env i flags
    let defaults ← loadDefaults env i
    runWith env i (defaults.merge flags)) := rfl

/-- Without clearing, the defaults of a run are the folder's over the user's. -/
theorem runIn_loadDefaults {user folder : Flags} (hclear : i.clear = false)
    (huser : (Defaults.load env.globalPath).runIn s = (.ok user, s))
    (hfolder : (Defaults.load Defaults.localPath).runIn s = (.ok folder, s)) :
    (loadDefaults env i).runIn s = (.ok (user.merge folder), s) := by
  have hload : loadDefaults env i = (do
      let userFlags ← Defaults.load env.globalPath
      let folderFlags ← Defaults.load Defaults.localPath
      return userFlags.merge folderFlags) := by
    simp [loadDefaults, hclear]
  rw [hload, Action.runIn_bind, huser]
  change (_ >>= _ : Action Flags).runIn s = _
  rw [Action.runIn_bind, hfolder]
  rfl

/-- **Merging is one reading.** A run that does not clear the defaults, after what it saves is
saved, loads the two config files, and its flags over those of the files are the flags of all
tokens in a row, unless a file ends in an option that waits for its value. The run goes on with
them. -/
theorem run_eq_one_scan (hparse : parse arguments = .ok i) (hclear : i.clear = false)
    (hupdate : (updateDefaults env i (env.flags arguments)).runIn s = (.ok (), s'))
    (huser : Defaults.tokens s'.store env.globalPath = .ok userTokens)
    (hfolder : Defaults.tokens s'.store Defaults.localPath = .ok folderTokens)
    (huserEnd : Setting.endsInOption userTokens = false)
    (hfolderEnd : Setting.endsInOption folderTokens = false) :
    (∃ user folder, (Defaults.load env.globalPath).runIn s' = (.ok user, s') ∧
      (Defaults.load Defaults.localPath).runIn s' = (.ok folder, s') ∧
      (user.merge folder).merge (env.flags arguments) =
        Flags.ofTokens (userTokens ++ folderTokens ++ env.program :: arguments)) ∧
    run env arguments s = ended ((runWith env i
      (Flags.ofTokens (userTokens ++ folderTokens ++ env.program :: arguments))).runIn s') := by
  have hloadUser := Defaults.runIn_load_of_tokens huser
  have hloadFolder := Defaults.runIn_load_of_tokens hfolder
  have hmerge : ((Flags.ofTokens userTokens).merge (Flags.ofTokens folderTokens)).merge
      (env.flags arguments) =
        Flags.ofTokens (userTokens ++ folderTokens ++ env.program :: arguments) := by
    have hfiles := Setting.endsInOption_append huserEnd hfolderEnd
    rw [Flags.ofTokens_append hfiles, Flags.ofTokens_append huserEnd]
    rfl
  refine ⟨⟨_, _, hloadUser, hloadFolder, hmerge⟩, ?_⟩
  have hdefaults := runIn_loadDefaults hclear hloadUser hloadFolder
  rw [run_of_parse hparse, runInvocation_eq, Action.runIn_bind, hupdate]
  change ended ((_ >>= _ : Action Preview).runIn s') = _
  rw [Action.runIn_bind, hdefaults, ← hmerge]
  rfl

/-- A user's config file and one of the folder, which sets another title. -/
def twoFiles : Session := Defaults.folder
  [(["c".toList], .directory), (["c".toList, "livemark".toList], .directory),
    (["c".toList, "livemark".toList, "config".toList],
      .file (.text "--title=My notes\n--watch".toList)),
    ([".livemarkrc".toList], .file (.text "# here\n-s --title --perf".toList))]

/-- The last title wins although it looks like an option, and what any place switches on is on. -/
theorem run_twoFiles :
    let env : Environment := { configHome := some "c".toList }
    let i : Invocation := { perf := true, output := some "o".toList }
    let arguments := ["--perf".toList, "-o".toList, "o".toList]
    let userTokens := ["--title".toList, "My notes".toList, "--watch".toList]
    let folderTokens := ["-s".toList, "--title".toList, "--perf".toList]
    parse arguments = .ok i ∧ i.clear = false ∧
    (updateDefaults env i (env.flags arguments)).runIn twoFiles = (.ok (), twoFiles) ∧
    Defaults.tokens twoFiles.store env.globalPath = .ok userTokens ∧
    Defaults.tokens twoFiles.store Defaults.localPath = .ok folderTokens ∧
    Setting.endsInOption userTokens = false ∧ Setting.endsInOption folderTokens = false ∧
    run env arguments twoFiles = ended ((runWith env i
      { watch := true, standalone := true, perf := true, title := some "--perf".toList }).runIn
        twoFiles) := by
  intro env i arguments userTokens folderTokens
  have hparse : parse arguments = .ok i := rfl
  have hupdate : (updateDefaults env i (env.flags arguments)).runIn twoFiles = (.ok (), twoFiles) := rfl
  have huser : Defaults.tokens twoFiles.store env.globalPath = .ok userTokens := by rfl
  have hfolder : Defaults.tokens twoFiles.store Defaults.localPath = .ok folderTokens := by rfl
  have huserEnd : Setting.endsInOption userTokens = false := by decide
  have hfolderEnd : Setting.endsInOption folderTokens = false := by decide
  have hflags : Flags.ofTokens (userTokens ++ folderTokens ++ env.program :: arguments) =
      { watch := true, standalone := true, perf := true, title := some "--perf".toList } := by decide
  have hrun := (run_eq_one_scan hparse rfl hupdate huser hfolder huserEnd hfolderEnd).2
  rw [hflags] at hrun
  exact ⟨hparse, rfl, hupdate, huser, hfolder, huserEnd, hfolderEnd, hrun⟩

end CommandLine

end MarkdownPreview

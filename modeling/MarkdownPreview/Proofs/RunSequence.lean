import MarkdownPreview.Proofs.RunOutput
import MarkdownPreview.Proofs.Savable
/-!
# Sequences of runs

The user's config file is changed at the start of a run, before anything else can fail. So as long
as it can be saved, a run that asks for it does save it or clear it, however the run ends, and leaves
it such that it can be saved again (`Run.step`). After any sequence of runs it therefore holds what
the last run that changed it has asked for (`saved_defaults`).

A run that is watched counts here up to its first rendering; what follows writes to the output and
to the event log only.
-/

namespace MarkdownPreview

open Store (SameOn SameFiles)

/-! ## Clearing and saving where a file can be saved -/

namespace Defaults

variable {path : Text} {s : Session}

theorem runIn_clear_of_savable (h : s.store.Savable path) : ∃ store,
    (clear path).runIn s = (.ok (), { s with store }) ∧ store.Savable path ∧
      store.pathExists path = false := by
  rw [runIn_clear]
  split
  · next hexists =>
    obtain ⟨store, hremove, hgone, hsave⟩ := h.exists_remove hexists
    exact ⟨store, Action.runIn_changeStore_of_ok hremove, hsave, hgone⟩
  · next hexists => exact ⟨s.store, rfl, h, by simpa using hexists⟩

theorem runIn_save_of_savable (h : s.store.Savable path) (flags : Flags) : ∃ store,
    (save path flags).runIn s = (.ok (), { s with store }) ∧ store.Savable path ∧
      store.entry path = .ok (.file (.text flags.encode)) := by
  obtain ⟨made, l, hmade, hl⟩ := h
  have hwrite : made.write path (.text flags.encode) =
      .ok (made.put l (.file (.text flags.encode))) := by
    rw [Store.write, hl]
    rfl
  refine ⟨_, ?_, Store.savable_of_write hmade hwrite, Store.entry_write hwrite⟩
  rw [save, Action.runIn_bind_of_ok (runIn_makeParents hmade)]
  exact Action.runIn_changeStore_of_ok hwrite

end Defaults

namespace CommandLine

variable {env : Environment} {i : Invocation} {s : Session}

/-- What a command line leaves in the config file: the flags it saves, or no file if it only clears
it, or what was there. -/
def Invocation.Leaves (i : Invocation) (flags : Flags) (path : Text) (s t : Store) : Prop :=
  if i.save then t.entry path = .ok (.file (.text flags.encode))
  else if i.clear then t.pathExists path = false
  else t.entry path = s.entry path

namespace Invocation.Leaves

variable {flags : Flags} {path : Text} {s s' t u : Store}

theorem of_entry_eq (h : i.Leaves flags path s t) (hentry : u.entry path = t.entry path) :
    i.Leaves flags path s u := by
  unfold Leaves at h ⊢
  rwa [Store.pathExists, hentry]

theorem entry_eq_ok (h : i.Leaves flags path s t) (hsave : i.save = true) :
    t.entry path = .ok (.file (.text flags.encode)) := by
  unfold Leaves at h
  rwa [if_pos hsave] at h

theorem pathExists_eq (h : i.Leaves flags path s t) (hsave : ¬ i.save = true)
    (hon : i.changesDefaults = true) : t.pathExists path = false := by
  have hclear : i.clear = true := by simpa [changesDefaults, hsave] using hon
  unfold Leaves at h
  rwa [if_neg hsave, if_pos hclear] at h

/-- A command line that changes the defaults leaves the same whatever was there. -/
theorem of_changesDefaults (h : i.Leaves flags path s t) (hon : i.changesDefaults = true) :
    i.Leaves flags path s' t := by
  by_cases hsave : i.save = true
  · rw [Leaves, if_pos hsave]
    exact h.entry_eq_ok hsave
  · have hclear : i.clear = true := by simpa [changesDefaults, hsave] using hon
    rw [Leaves, if_neg hsave, if_pos hclear]
    exact h.pathExists_eq hsave hon

theorem entry_eq (h : i.Leaves flags path s t) (hoff : ¬ i.changesDefaults = true) :
    t.entry path = s.entry path := by
  unfold Leaves at h
  simp only [changesDefaults, Bool.or_eq_true, not_or] at hoff
  rwa [if_neg hoff.1, if_neg hoff.2] at h

end Invocation.Leaves

theorem updateDefaults_of_savable (h : s.store.Savable env.globalPath) (flags : Flags) : ∃ store,
    (updateDefaults env i flags).runIn s = (.ok (), { s with store }) ∧
      store.Savable env.globalPath ∧ i.Leaves flags env.globalPath s.store store := by
  rw [updateDefaults_eq]
  obtain ⟨cleared, hclear, hsave, hgone⟩ : ∃ store,
      (if i.clear then Defaults.clear env.globalPath else pure ()).runIn s =
        (.ok (), { s with store }) ∧ store.Savable env.globalPath ∧
      if i.clear then store.pathExists env.globalPath = false else store = s.store := by
    split
    · exact Defaults.runIn_clear_of_savable h
    · exact ⟨s.store, rfl, h, rfl⟩
  rw [Action.runIn_bind_of_ok hclear]
  unfold Invocation.Leaves
  split
  · exact Defaults.runIn_save_of_savable hsave flags
  · refine ⟨cleared, rfl, hsave, ?_⟩
    split
    · next hon => rwa [if_pos hon] at hgone
    · next hoff =>
      rw [if_neg hoff] at hgone
      rw [hgone]

/-! ## Runs -/

/-- A command line that is accepted, and what it runs with besides the files: what there is to read,
and how much the output takes. -/
structure Run where
  env : Environment
  arguments : List Text
  input : Content := .text []
  limit : Option Limit := none
  invocation : Invocation
  accepted : parse arguments = .ok invocation

namespace Run

/-- The flags of a run. -/
def flags (r : Run) : Flags := r.env.flags r.arguments

/-- The session a run starts in. -/
def start (r : Run) (s : Store) : Session := { store := s, input := r.input, limit := r.limit }

/-- The files after a run, however it ends. -/
def after (r : Run) (s : Store) : Store := (run r.env r.arguments (r.start s)).2.store

/-- The paths that a run may write to besides the config file. -/
def written (r : Run) (s : Store) : List Text :=
  (logPath? r.env r.invocation r.flags (r.start s)).toList ++ r.invocation.output.toList

variable {r : Run} {s : Store} {path : Text}

/-- What follows the change of the defaults in a run changes the event log and the output only. -/
theorem sameOn_after {result : Except Failure Unit} {updated : Store}
    (hupdate : (updateDefaults r.env r.invocation r.flags).runIn (r.start s) =
      (result, { r.start s with store := updated })) (hhere : updated.here = s.here) :
    SameOn (· ∉ (r.written s).map s.place) updated (r.after s) := by
  unfold after
  rcases run_cases r.accepted hupdate with ⟨e, -, hrun⟩ | ⟨f, hflags, hrun⟩
  · rw [hrun]
    exact .refl _
  · have hsame := sameOn_runWith r.env r.invocation f { r.start s with store := updated }
    dsimp only at hsame
    rw [show updated.place = s.place from funext (Store.place_of_here hhere)] at hsame
    rw [hrun, snd_ended, written, logPath?, flags, hflags]
    exact hsame

/-- The files after some runs, one after the other. -/
def afterAll (s : Store) (runs : List Run) : Store := runs.foldl (fun s r => r.after s) s

/-- No run writes its output or its event log to one of some locations. -/
def Spare (W : List Location) : Store → List Run → Prop
  | _, [] => True
  | s, r :: runs => (∀ l ∈ W, l ∉ (r.written s).map s.place) ∧ Spare W (r.after s) runs

/-- **One run.** Where the config file can be saved, a run leaves in it what its command line asks
for, however the run ends, and the file can be saved again. -/
theorem step (hpath : r.env.globalPath = path) (hsave : s.Savable path)
    (hspare : ∀ l ∈ s.way path, l ∉ (r.written s).map s.place) :
    (r.after s).here = s.here ∧ (r.after s).Savable path ∧
      r.invocation.Leaves r.flags path s (r.after s) := by
  subst hpath
  obtain ⟨updated, hupdate, hsave', hleaves⟩ :=
    updateDefaults_of_savable (i := r.invocation) (s := r.start s) hsave r.flags
  have hhere : updated.here = s.here := by
    obtain ⟨result, store, hrun, hsame⟩ :=
      runIn_updateDefaults_eq r.env r.invocation r.flags (r.start s)
    rw [hupdate] at hrun
    have hstore : updated = store := congrArg (·.2.store) hrun
    exact hstore ▸ hsame.here
  have hway : updated.way r.env.globalPath = s.way r.env.globalPath :=
    Store.way_of_here hhere _
  have hsame : SameOn (· ∈ s.way r.env.globalPath) updated (r.after s) :=
    (sameOn_after hupdate hhere).mono hspare
  have hentry : (r.after s).entry r.env.globalPath = updated.entry r.env.globalPath :=
    hsame.entry fun k hk => hway ▸ hk
  exact ⟨hsame.here.trans hhere, hsave'.of_sameOn hsame fun k hk => hway ▸ hk,
    hleaves.of_entry_eq hentry⟩

/-- The last of some runs that saves or clears the defaults. -/
def lastChange (runs : List Run) : Option Run :=
  (runs.filter (·.invocation.changesDefaults)).getLast?

theorem changesDefaults_of_lastChange {runs : List Run} (h : lastChange runs = some r) :
    r.invocation.changesDefaults = true :=
  (List.mem_filter.1 (List.mem_of_getLast? h)).2

theorem lastChange_cons (r : Run) (runs : List Run) : lastChange (r :: runs) =
    (lastChange runs).or (if r.invocation.changesDefaults then some r else none) := by
  unfold lastChange
  rw [List.filter_cons]
  split
  · rw [List.getLast?_cons]
    cases (runs.filter (·.invocation.changesDefaults)).getLast? <;> rfl
  · rw [Option.or_none]

theorem afterAll_cons (r : Run) (s : Store) (runs : List Run) :
    afterAll s (r :: runs) = afterAll (r.after s) runs := rfl

/-- What the last run that changes the defaults leaves is left by all runs together: by induction on
the runs, the config file staying one that can be saved. -/
theorem leaves_afterAll {runs : List Run} (hpath : ∀ r ∈ runs, r.env.globalPath = path)
    (hsave : s.Savable path) (hspare : Spare (s.way path) s runs) :
    match lastChange runs with
    | none => (afterAll s runs).entry path = s.entry path
    | some r => r.invocation.Leaves r.flags path s (afterAll s runs) := by
  induction runs generalizing s with
  | nil => rfl
  | cons r runs ih =>
    obtain ⟨hhere, hsave', hleaves⟩ := step (hpath r List.mem_cons_self) hsave hspare.1
    have hrest := ih (fun r hr => hpath r (List.mem_cons_of_mem _ hr)) hsave'
      (Store.way_of_here hhere path ▸ hspare.2)
    rw [afterAll_cons, lastChange_cons]
    cases hlast : lastChange runs with
    | none =>
      rw [hlast] at hrest
      by_cases hon : r.invocation.changesDefaults = true
      · rw [if_pos hon]
        exact hleaves.of_entry_eq hrest
      · rw [if_neg hon]
        exact hrest.trans (hleaves.entry_eq hon)
    | some r' =>
      rw [hlast] at hrest
      exact hrest.of_changesDefaults (changesDefaults_of_lastChange hlast)

/-- **Saved defaults over any runs.** Let the user's config file be one that can be saved, and let
no run write its output or its event log there or to a directory on the way. After all runs, whether
they have failed or not, the config file holds the flags of the last run that has saved or cleared
it, or is gone if that run has cleared it only; without such a run it is as it was. Neither saving
nor clearing ever changes the config file of the folder, if that is another file. -/
theorem saved_defaults {runs : List Run} (hpath : ∀ r ∈ runs, r.env.globalPath = path)
    (hsave : s.Savable path) (hspare : Spare (s.way path) s runs) :
    (match lastChange runs with
      | none => (afterAll s runs).entry path = s.entry path
      | some r =>
        if r.invocation.save then
          (afterAll s runs).entry path = .ok (.file (.text (r.env.flags r.arguments).encode))
        else (afterAll s runs).pathExists path = false) ∧
    ∀ r ∈ runs, ∀ u : Session, u.store.place Defaults.localPath ≠ u.store.place path →
      ((updateDefaults r.env r.invocation r.flags).runIn u).2.store.file?
        (u.store.place Defaults.localPath) = u.store.file? (u.store.place Defaults.localPath) := by
  refine ⟨?_, fun r hr u hother => ?_⟩
  · have hleaves := leaves_afterAll hpath hsave hspare
    cases hlast : lastChange runs with
    | none => rwa [hlast] at hleaves
    | some r =>
      have hon := changesDefaults_of_lastChange hlast
      rw [hlast] at hleaves
      dsimp only
      split
      · next hsaves => exact hleaves.entry_eq_ok hsaves
      · next hsaves => exact hleaves.pathExists_eq hsaves hon
  · obtain ⟨result, store, hrun, hsame⟩ := runIn_updateDefaults_eq r.env r.invocation r.flags u
    rw [hrun]
    exact hsame.file? _ fun _ => hpath r hr ▸ hother

/-- A run that clears and saves, and then fails because its file is missing. -/
def failing : Run where
  env := { configHome := some "c".toList }
  arguments := ["--save", "--clear", "-s", "missing.md"].map String.toList
  invocation := {
    file := some "missing.md".toList, standalone := true, save := true, clear := true }
  accepted := rfl

/-- A run that changes no defaults, and writes a file and a log. -/
def writing : Run where
  env := { configHome := some "c".toList, debugLog := some "log".toList }
  arguments := ["-o", "out", "a.md"].map String.toList
  invocation := { file := some "a.md".toList, output := some "out".toList }
  accepted := rfl

/-- The run that fails has made the directory of the config file and has saved its flags before, and
they stay. -/
theorem saved_defaults_failing :
    let s := (Defaults.folder
      [(["a.md".toList], .file (.text "x".toList)), (["c".toList], .directory)]).store
    let path := "c/livemark/config".toList
    let runs := [writing, failing, writing]
    (∀ r ∈ runs, r.env.globalPath = path) ∧ s.Savable path ∧ Spare (s.way path) s runs ∧
      (afterAll s runs).entry path =
        .ok (.file (.text "# livemark defaults (saved with --save)\n--standalone\n".toList)) := by
  intro s path runs
  have hpath : ∀ r ∈ runs, r.env.globalPath = path := by decide
  have hsave : s.Savable path := by
    have hparent : (Path.parent? path).getD [] = "c/livemark".toList := by decide +kernel
    have hmade : s.createDirectories "c/livemark".toList =
        (.ok (), s.put ["c".toList, "livemark".toList] .directory) := by
      rw [Store.createDirectories_eq (by decide)]
      rfl
    exact ⟨_, ["c", "livemark", "config"].map String.toList, hparent ▸ hmade, by decide +kernel⟩
  have hspare : Spare (s.way path) s runs :=
    ⟨by decide +kernel, by decide +kernel, by decide +kernel, trivial⟩
  have hlast : lastChange runs = some failing := rfl
  have hleft := (saved_defaults hpath hsave hspare).1
  rw [hlast] at hleft
  exact ⟨hpath, hsave, hspare, hleft⟩

end Run

end CommandLine

end MarkdownPreview

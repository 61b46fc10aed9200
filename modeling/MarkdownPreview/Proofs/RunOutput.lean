import MarkdownPreview.Proofs.RunSteps
/-!
# What a run leaves behind

The output is touched last: nothing can fail after it is written, and whatever fails before leaves
it alone. So the exit status of a run tells what is in the output, unless it is the output that does
not take all it is given. Before that, a run writes to the config file if it is asked to, and to the
event log, and to no other file (`run_output`). A run that is watched counts here up to its first
rendering.
-/

namespace MarkdownPreview

open Store (SameFiles SameOn)

namespace Source

/-- The path of the file a source is. -/
def path? : Source → Option Text
  | .file path => some path
  | .input | .guide => none

/-- What is at the place of a source is a text. -/
def HasText (s : Session) (t : Text) : Source → Prop
  | .file path => s.store.file? (s.store.place path) = some (.text t)
  | .input => s.input = .text t
  | .guide => t = MarkdownPreview.guide

/-- A text that is read from a source was there before, if its file has not changed. -/
theorem HasText.of_holds {source : Source} {s u : Session} {t : Text} {W : Location → Prop}
    (h : source.Holds u t) (hinput : u.input = s.input) (hsame : SameFiles W s.store u.store)
    (hpath : ∀ path ∈ source.path?, W (s.store.place path)) : source.HasText s t := by
  cases source with
  | file path =>
    have hfile := Store.file?_place_of_readText h
    rw [Store.place_of_here hsame.here, hsame.file? _ (hpath path rfl)] at hfile
    exact hfile
  | input => exact hinput.symm.trans h
  | guide => exact h

end Source

namespace CommandLine

variable {env : Environment} {i : Invocation} {arguments : List Text} {s' : Session}

/-- The paths of the files that a run may change before it writes the output. -/
def earlyPaths (env : Environment) (i : Invocation) (log? : Option Text) : List Text :=
  (if i.changesDefaults then [env.globalPath] else []) ++ log?.toList

theorem place_not_mem_earlyPaths {store : Store} {log? : Option Text} {b : Text}
    (h : ∀ a ∈ env.globalPath :: log?.toList, store.place a ≠ store.place b) :
    store.place b ∉ (earlyPaths env i log?).map store.place := by
  intro hmem
  obtain ⟨a, ha, hplace⟩ := List.mem_map.1 hmem
  refine h a ?_ hplace
  unfold earlyPaths at ha
  split at ha
  · simpa using ha
  · exact List.mem_cons_of_mem _ (by simpa using ha)

/-- The HTML a command line wants of a text, on a page of its own if the flags say so: under the
title that is set, or else the name of the file. -/
def Invocation.html (i : Invocation) (f : Flags) (t : Text) : Text :=
  if f.standalone then
    let fileName := (Source.ofArgument i.file).path?.bind Path.fileName?
    Page.wrap ((f.title.or fileName).getD "Preview".toList) (render t)
  else render t

theorem html_preview (i : Invocation) (f : Flags) (t : Text) :
    (preview i f).html t = i.html f t := by
  have htitle : (preview i f).pageTitle =
      (f.title.or ((Source.ofArgument i.file).path?.bind Path.fileName?)).getD
        "Preview".toList := by
    unfold Preview.pageTitle preview
    cases f.title <;> cases Source.ofArgument i.file <;> rfl
  rw [Preview.html, Preview.page, htitle]
  rfl

/-- Nothing is printed from one session to another, and the output file is the same. -/
def Invocation.SparesOutput (i : Invocation) (s s' : Session) : Prop :=
  s'.printed = s.printed ∧ ∀ path ∈ i.output,
    s'.store.file? (s.store.place path) = s.store.file? (s.store.place path)

/-- A text is put into the output from one session to another: it is what the output file holds, or
it is printed, and nothing else is. -/
def Invocation.FillsOutput (i : Invocation) (s s' : Session) (t : Text) : Prop :=
  match i.output with
  | some path => s'.store.file? (s.store.place path) = some (.text t) ∧ s'.printed = s.printed
  | none => s'.printed = s.printed ++ t

/-- How a run ends whose HTML is written, as far as the output takes it. -/
def outcomeOf (p : Preview) (s : Session) (html : Text) : Outcome :=
  match s.refusal? html with
  | some fault => .failed (.preview (p.outputFailure fault))
  | none => .rendered p

theorem ended_told (p : Preview) (s : Session) (html : Text) :
    ended (((p.told s html).map fun _ => p).mapError .preview, s') =
      (outcomeOf p s html, s') := by
  unfold Preview.told outcomeOf
  cases s.refusal? html <;> rfl

/-- A run fails with the output untouched, or it reads a text from the source and writes its HTML, as
far as the output takes it; either way it changes no other files than the early ones. -/
theorem run_ends (env : Environment) (hparse : parse arguments = .ok i) (s : Session) :
    let flags := env.flags arguments
    let W := (· ∉ (earlyPaths env i (logPath? env i flags s)).map s.store.place)
    (∃ e s', run env arguments s = (.failed e, s') ∧ s'.printed = s.printed ∧
      SameFiles W s.store s'.store) ∨
    ∃ f t u s', ((effectiveFlags env i flags).runIn s).1 = .ok f ∧
      run env arguments s = (outcomeOf (preview i f) s (i.html f t), s') ∧
      (Source.ofArgument i.file).Holds u t ∧ u.input = s.input ∧ SameFiles W s.store u.store ∧
      ((∀ path ∈ i.output, W (s.store.place path)) → i.FillsOutput s s' (s.taken (i.html f t))) ∧
      SameFiles (fun l => W l ∧ l ∉ i.output.toList.map s.store.place) s.store s'.store := by
  intro flags W
  obtain ⟨result, updated, hupdate, hupdated⟩ := runIn_updateDefaults_eq env i flags s
  have hearly : ∀ l, W l → i.changesDefaults = true → l ≠ s.store.place env.globalPath := by
    rintro l hl hon rfl
    exact hl (List.mem_map_of_mem (by simp [earlyPaths, hon]))
  have hupdated' : SameFiles W s.store updated := hupdated.mono hearly
  rcases run_cases hparse hupdate with ⟨e, -, hrun⟩ | ⟨f, hflags, hrun⟩
  · exact .inl ⟨e, _, hrun, rfl, hupdated'⟩
  · obtain ⟨opened, timing, log, result, s', hopened, hran, hrunWith⟩ :=
      ran_runWith env i f { s with store := updated }
    rw [hrunWith] at hrun
    have hplace : updated.place = s.store.place := funext (Store.place_of_here hupdated.here)
    have hlog : ∀ l, W l → l ∉ (f.debugLog.or env.debugLog).toList.map updated.place := by
      intro l hl hmem
      refine hl ?_
      rw [earlyPaths, logPath?, hflags, List.map_append, List.mem_append, ← hplace]
      exact .inr hmem
    have hopened' : SameFiles W s.store opened := hupdated'.trans (hopened.mono hlog).sameFiles
    have hran' : SameFiles (fun l => W l ∧ l ∉ i.output.toList.map s.store.place) opened s'.store := by
      refine (hran.sameOn.mono fun l hl => ⟨hlog l hl.1, ?_⟩).sameFiles
      rw [show opened.place = s.store.place from funext (Store.place_of_here hopened'.here)]
      exact hl.2
    have hafter := (hopened'.mono fun _ => And.left).trans hran'
    cases hran with
    | failed e input store hsame =>
      exact .inl ⟨_, _, hrun, rfl, hopened'.trans (hsame.mono hlog).sameFiles⟩
    | printed t input store hholds houtput hsame =>
      rw [ended_told, html_preview] at hrun
      refine .inr ⟨f, t, _, _, congrArg Prod.fst hflags, hrun, hholds, rfl, hopened', ?_, hafter⟩
      intro _
      rw [Invocation.FillsOutput, show i.output = none from houtput]
      rfl
    | wrote t path input rendered written store hholds houtput hrendered hwritten hsame =>
      rw [ended_told, html_preview] at hrun
      refine .inr ⟨f, t, _, _, congrArg Prod.fst hflags, hrun, hholds, rfl, hopened', ?_, hafter⟩
      intro hpath
      have houtput' : i.output = some path := houtput
      have hhere := (hopened'.trans (hrendered.mono hlog).sameFiles).here
      have hfile := Store.file?_of_write hwritten
      rw [Store.place_of_here hhere, html_preview] at hfile
      have hkept := (hsame.mono hlog).sameFiles.file? _ (hpath path houtput')
      rw [Invocation.FillsOutput, houtput']
      exact ⟨hkept.trans hfile, rfl⟩

/-- A run changes no other files than the early ones and the output, however it ends. -/
theorem sameFiles_run (env : Environment) (hparse : parse arguments = .ok i) (s : Session) :
    SameFiles
      (· ∉ (earlyPaths env i (logPath? env i (env.flags arguments) s) ++ i.output.toList).map
        s.store.place)
      s.store (run env arguments s).2.store := by
  rcases run_ends env hparse s with ⟨e, s', hrun, -, hsame⟩ |
      ⟨f, t, u, s', -, hrun, -, -, -, -, hsame⟩
  · rw [hrun]
    exact hsame.mono fun l hl hmem => hl (List.map_append ▸ List.mem_append_left _ hmem)
  · rw [hrun]
    refine hsame.mono fun l hl => ?_
    rwa [List.map_append, List.mem_append, not_or] at hl

/-- **A run and its output.** If neither the config file of the user nor the event log is also the
output or the source, then a run that fails prints nothing and leaves the output as it was, and a
run that goes through puts the HTML of the source's text there, and prints nothing else. An output
that takes only so many characters can itself make a run fail, once everything else is done: then
the beginning of the HTML is there, and the failure names the output. No other file is changed, and
the config file only if it is saved or cleared. -/
theorem run_output (hparse : parse arguments = .ok i) (s : Session)
    (hfiles : ∀ a ∈ env.globalPath :: (logPath? env i (env.flags arguments) s).toList,
      ∀ b ∈ i.output.toList ++ (Source.ofArgument i.file).path?.toList,
        s.store.place a ≠ s.store.place b) :
    let flags := env.flags arguments
    let (outcome, s') := run env arguments s
    (outcome.status = 0 ∨ outcome.status = 1) ∧
    (outcome.status = 1 → s.limit = none → i.SparesOutput s s') ∧
    (outcome.status = 1 → ∀ limit ∈ s.limit, i.SparesOutput s s' ∨
      ∃ f t, ((effectiveFlags env i flags).runIn s).1 = .ok f ∧
        (Source.ofArgument i.file).HasText s t ∧ limit.room < (i.html f t).length ∧
        outcome = .failed (.preview (match i.output with
          | some path => .writeFile path limit.fault
          | none => .print limit.fault)) ∧
        i.FillsOutput s s' ((i.html f t).take limit.room)) ∧
    (outcome.status = 0 → ∃ f t, ((effectiveFlags env i flags).runIn s).1 = .ok f ∧
      (Source.ofArgument i.file).HasText s t ∧ i.FillsOutput s s' (i.html f t)) ∧
    ∀ l ∉ (earlyPaths env i (logPath? env i flags s) ++ i.output.toList).map s.store.place,
      s'.store.file? l = s.store.file? l := by
  intro flags
  have hoff : ∀ path ∈ i.output.toList ++ (Source.ofArgument i.file).path?.toList,
      s.store.place path ∉ (earlyPaths env i (logPath? env i flags s)).map s.store.place :=
    fun path hpath => place_not_mem_earlyPaths fun a ha => hfiles a ha path hpath
  have houtput : ∀ path ∈ i.output,
      s.store.place path ∉ (earlyPaths env i (logPath? env i flags s)).map s.store.place :=
    fun path hpath => hoff path (List.mem_append_left _ (Option.mem_toList.2 hpath))
  have hothers := (sameFiles_run env hparse s).file?
  rcases run_ends env hparse s with ⟨e, s', hrun, hprinted, hsame⟩ |
      ⟨f, t, u, s', hflags, hrun, hholds, hinput, hsource, hfills, -⟩
  · rw [hrun] at hothers ⊢
    have hspares : i.SparesOutput s s' :=
      ⟨hprinted, fun path hpath => hsame.file? _ (houtput path hpath)⟩
    exact ⟨.inr rfl, fun _ _ => hspares, fun _ _ _ => .inl hspares, fun h => (nomatch h), hothers⟩
  · have htext : (Source.ofArgument i.file).HasText s t :=
      .of_holds hholds hinput hsource fun path hpath =>
        hoff path (List.mem_append_right _ (Option.mem_toList.2 hpath))
    have hfills := hfills houtput
    rcases s.taken_cases (i.html f t) with ⟨hall, htaken⟩ | ⟨limit, hlimit, hroom, hcut, htaken⟩
    · rw [outcomeOf, hall] at hrun
      rw [hrun] at hothers ⊢
      rw [htaken] at hfills
      exact ⟨.inl rfl, fun h => (nomatch h), fun h => (nomatch h),
        fun _ => ⟨f, t, hflags, htext, hfills⟩, hothers⟩
    · rw [outcomeOf, hcut] at hrun
      rw [hrun] at hothers ⊢
      rw [htaken] at hfills
      refine ⟨.inr rfl, fun _ hnone => by simp [hnone] at hlimit, fun _ other hother => .inr ?_,
        fun h => (nomatch h), hothers⟩
      obtain rfl : limit = other := Option.some.inj (hlimit.symm.trans hother)
      refine ⟨f, t, hflags, htext, hroom, ?_, hfills⟩
      rw [Preview.outputFailure, preview]
      cases i.output <;> rfl

/-- A folder whose config file wants a page with a title and an event log. -/
def notes : Session := Defaults.folder
  [([".livemarkrc".toList],
      .file (.text "-s --perf\n--title My notes\n--render-debug-log log".toList)),
    (["a.md".toList], .file (.text "x".toList)), (["o".toList], .file (.text "before".toList))]

/-- The output gets a page with the title of the folder's config file; the flags of the run are
saved, and the log is written. -/
theorem run_output_notes :
    let env : Environment := { configHome := some "c".toList }
    let i : Invocation := { file := some "a.md".toList, output := some "o".toList, save := true }
    let arguments := ["--save", "-o", "o", "a.md"].map String.toList
    parse arguments = .ok i ∧
    (∀ a ∈ env.globalPath :: (logPath? env i (env.flags arguments) notes).toList,
      ∀ b ∈ i.output.toList ++ (Source.ofArgument i.file).path?.toList,
        notes.store.place a ≠ notes.store.place b) ∧
    (run env arguments notes).2.store.file? ["o".toList] =
      some (.text (Page.wrap "My notes".toList (render "x".toList))) ∧
    (run env arguments notes).2.printed = [] := by
  intro env i arguments
  have hparse : parse arguments = .ok i := rfl
  have hfiles : ∀ a ∈ env.globalPath :: (logPath? env i (env.flags arguments) notes).toList,
      ∀ b ∈ i.output.toList ++ (Source.ofArgument i.file).path?.toList,
        notes.store.place a ≠ notes.store.place b := by
    decide +kernel
  let f : Flags := {
    standalone := true, perf := true, title := some "My notes".toList,
    debugLog := some "log".toList }
  have hflags : ((effectiveFlags env i (env.flags arguments)).runIn notes).1 = .ok f := by
    decide +kernel
  have hstatus : (run env arguments notes).1.status = 0 := by decide +kernel
  obtain ⟨-, -, -, hran, -⟩ := run_output hparse notes hfiles
  obtain ⟨f', t, hf, htext, hhtml, hprinted⟩ := hran hstatus
  obtain rfl : f = f' := Except.ok.inj (hflags.symm.trans hf)
  have hx : some (Content.text "x".toList) = some (.text t) := htext
  obtain rfl : "x".toList = t := by simpa using hx
  exact ⟨hparse, hfiles, hhtml, hprinted⟩

/-- The reader of the output goes away early: what it has read is the beginning of the page. -/
example :
    let ran := run {} (["-s", "a.md"].map String.toList)
      { notes with limit := some ⟨15, .brokenPipe⟩ }
    ran.1.report = Text.joinLines (List.map String.toList
      ["Error: Preview error", "", "Caused by:", "    0: Failed to write standard output",
        "    1: Broken pipe (os error 32)", ""]) ∧
    ran.2.printed = "<!DOCTYPE html>".toList := by
  decide +kernel

end CommandLine

end MarkdownPreview

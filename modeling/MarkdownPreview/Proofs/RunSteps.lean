import MarkdownPreview.Proofs.LogSession
import MarkdownPreview.Proofs.MergedFlags
import MarkdownPreview.Proofs.StoreChanges
/-!
# The steps of a run

A run first finds the flags that are in effect (`effectiveFlags`), which changes the user's config
file at most, and then renders with them (`runWith`), which changes the event log and the output at
most. Of every step is said what it does to the session, whether it goes through or not, so that a
run can be followed without looking at its steps again.
-/

namespace MarkdownPreview

open Store (SameOn SameFiles)

variable {s s' : Session} {l : Location} {path t : Text} {W : Location → Prop}

/-! ## Actions -/

namespace Action

variable {α β : Type} {a : Action α} {f : α → Action β}

theorem runIn_bind_of_ok {x : α} (h : a.runIn s = (.ok x, s')) :
    (a >>= f).runIn s = (f x).runIn s' := by
  rw [runIn_bind, h]
  rfl

theorem runIn_bind_of_error {e : Failure} (h : a.runIn s = (.error e, s')) :
    (a >>= f).runIn s = (.error e, s') := by
  rw [runIn_bind, h]
  rfl

theorem runIn_get (s : Session) : (get : Action Session).runIn s = (.ok s, s) := rfl

theorem runIn_mapFailure {result : Except Failure α} (g : Failure → Failure)
    (h : a.runIn s = (result, s')) : (mapFailure g a).runIn s = (result.mapError g, s') := by
  have hadapt : (mapFailure g a).runIn s = ((a.runIn s).1.mapError g, (a.runIn s).2) := rfl
  rw [hadapt, h]

theorem runIn_changeStore_of_ok {failure : Fault → Failure} {op : Store → Except Fault Store}
    {store : Store} (h : op s.store = .ok store) :
    (changeStore failure op).runIn s = (.ok (), { s with store }) := by
  have hop : (ofStore failure op).runIn s = (.ok store, s) := by
    rw [runIn_ofStore, h]
    rfl
  rw [changeStore, runIn_bind_of_ok hop]
  rfl

theorem runIn_changeStore_of_error {failure : Fault → Failure} {op : Store → Except Fault Store}
    {f : Fault} (h : op s.store = .error f) :
    (changeStore failure op).runIn s = (.error (failure f), s) := by
  have hop : (ofStore failure op).runIn s = (.error (failure f), s) := by
    rw [runIn_ofStore, h]
    rfl
  rw [changeStore, runIn_bind_of_error hop]

end Action

/-! ## The event log -/

namespace Session

theorem here_appendTo (store : Store) (l : Location) (added : Text) :
    (appendTo store l added).here = store.here := by
  unfold appendTo
  split <;> rfl

/-- An event changes the log at most, and nothing in a session but its files. -/
theorem record_eq (hlog : ∀ l, s.log = some l → ¬ W l) (e : Event) :
    ∃ store, s.record e = { s with store } ∧ SameOn W s.store store := by
  obtain ⟨store, input, printed, limit, log, timing⟩ := s
  cases log with
  | none => exact ⟨store, rfl, .refl _⟩
  | some k =>
    refine ⟨appendTo store k e.line, rfl, here_appendTo _ _ _, fun l hl => ?_⟩
    refine find?_appendTo_of_ne ?_ _
    rintro rfl
    exact hlog l rfl hl

theorem recordAll_eq (hlog : ∀ l, s.log = some l → ¬ W l) (es : List Event) :
    ∃ store, s.recordAll es = { s with store } ∧ SameOn W s.store store := by
  induction es generalizing s with
  | nil => exact ⟨s.store, rfl, .refl _⟩
  | cons e es ih =>
    obtain ⟨store, hrecord, hsame⟩ := record_eq hlog e
    obtain ⟨store', hrest, hsame'⟩ := ih (s := { s with store }) hlog
    refine ⟨store', ?_, hsame.trans hsame'⟩
    change (s.record e).recordAll es = _
    rw [hrecord, hrest]

theorem recordScope_eq (s : Session) (name : Text) :
    ∃ es, s.recordScope name = s.recordAll es := by
  unfold recordScope
  split
  · exact ⟨[.scope name], rfl⟩
  · exact ⟨[], rfl⟩

/-- Setting the log changes the file it is opened in at most. -/
theorem setLog_eq (s : Session) (log? : Option Text) :
    ∃ store log, (s.setLog log?).2 = { s with store, log } ∧
      SameOn (· ∉ log?.toList.map s.store.place) s.store store ∧
      ∀ l, log = some l → l ∈ log?.toList.map s.store.place := by
  cases log? with
  | none => exact ⟨s.store, none, rfl, .refl _, by simp⟩
  | some path =>
    cases h : s.store.fileLocation path with
    | error f =>
      refine ⟨s.store, none, ?_, .refl _, by simp⟩
      rw [setLog, openLog_of_error h, closeLog]
    | ok l =>
      have hl := (Store.place_ne_nil_of_fileLocation h).1
      obtain rfl := Store.eq_place_of_fileLocation h
      have hoff : ¬ (s.store.place path ∉ (some path).toList.map s.store.place) := by simp
      refine ⟨_, some (s.store.place path), ?_, SameOn.of_put hl hoff (.file (.text logHeader)), ?_⟩
      · rw [setLog, openLog_of_ok h]
      · simp

end Session

/-! ## The output -/

namespace Session

/-- What is printed in two parts is printed as one text. -/
theorem print_print (s : Session) (t u : Text) : (s.print t).print u = s.print (t ++ u) := by
  obtain ⟨store, input, printed, limit, log, timing⟩ := s
  cases limit with
  | none => simp [print, taken]
  | some limit => simp [print, taken, List.take_append, Nat.sub_sub]

/-- The output takes the whole of a text, or the beginning of it up to its fault. -/
theorem taken_cases (s : Session) (t : Text) : (s.refusal? t = none ∧ s.taken t = t) ∨
    ∃ limit, s.limit = some limit ∧ limit.room < t.length ∧ s.refusal? t = some limit.fault ∧
      s.taken t = t.take limit.room := by
  unfold refusal? taken
  cases s.limit with
  | none => exact .inl ⟨rfl, rfl⟩
  | some limit =>
    by_cases h : t.length ≤ limit.room
    · exact .inl ⟨if_pos h, List.take_of_length_le h⟩
    · exact .inr ⟨limit, rfl, Nat.lt_of_not_le h, if_neg h, rfl⟩

end Session

/-! ## The preview -/

/-- A source that is a text in a session. -/
def Source.Holds (s : Session) (t : Text) : Source → Prop
  | .file path => s.store.readText path = .ok t
  | .input => s.input = .text t
  | .guide => t = MarkdownPreview.guide

/-- Reading finds the text of a source, and takes what is left of standard input at most. -/
theorem Source.runIn_read (source : Source) (s : Session) : ∃ result input,
    source.read.runIn s = (result, { s with input }) ∧ ∀ t, result = .ok t → source.Holds s t := by
  cases source with
  | file path =>
    refine ⟨_, s.input, Action.runIn_ofStore (.readFile path) (·.readText path) s, fun t ht => ?_⟩
    cases hread : s.store.readText path with
    | error f => simp [hread, Except.mapError] at ht
    | ok u =>
      rw [hread] at ht
      exact hread.trans (congrArg Except.ok (Except.ok.inj ht))
  | input =>
    cases hinput : s.input with
    | text u =>
      have hholds : ∀ t, (Except.ok u : Except Failure Text) = .ok t → s.input = .text t :=
        fun t ht => hinput.trans (congrArg Content.text (Except.ok.inj ht))
      refine ⟨.ok u, .text [], ?_, hholds⟩
      obtain ⟨store, input, printed, limit, log, timing⟩ := s
      obtain rfl : input = .text u := hinput
      rfl
    | binary bytes =>
      refine ⟨.error (.readInput .notText), .text [], ?_, by simp⟩
      obtain ⟨store, input, printed, limit, log, timing⟩ := s
      obtain rfl : input = .binary bytes := hinput
      rfl
  | guide => exact ⟨.ok MarkdownPreview.guide, s.input, rfl, fun t ht => (Except.ok.inj ht).symm⟩

namespace Preview

variable {p : Preview}

/-- The HTML of a markdown text, as it is wanted. -/
def html (p : Preview) (markdown : Text) : Text := p.page (render markdown)

theorem runIn_timed (a : Action Text) (s : Session) : (renderOnce.timed a).runIn s =
    ((a.runIn s).1, (a.runIn s).2.recordScope "preview.render".toList) := rfl

/-- Rendering finds the HTML of the source's text, and changes no file but the log. -/
theorem runIn_renderOnce (hlog : ∀ l, s.log = some l → ¬ W l) : ∃ result input store,
    p.renderOnce.runIn s = (result, { s with input, store }) ∧ SameOn W s.store store ∧
      ∀ html, result = .ok html → ∃ t, p.source.Holds s t ∧ html = p.html t := by
  obtain ⟨result, input, hread, hholds⟩ := p.source.runIn_read s
  obtain ⟨result', es, hrun, hresult⟩ : ∃ result' es,
      p.renderOnce.runIn s = (result', { s with input }.recordAll es) ∧
        ∀ html, result' = .ok html → ∃ t, p.source.Holds s t ∧ html = p.html t := by
    cases result with
    | error f =>
      obtain ⟨es, hes⟩ := { s with input }.recordScope_eq "preview.render".toList
      refine ⟨.error f, es, ?_, by simp⟩
      rw [renderOnce, runIn_timed, Action.runIn_bind_of_error hread, hes]
    | ok t =>
      obtain ⟨es, hes⟩ := ({ s with input }.recordRender t).recordScope_eq "preview.render".toList
      refine ⟨.ok (p.html t), Session.renderEvents s.timing t ++ es, ?_, ?_⟩
      · have hrun : p.renderOnce.runIn s = (.ok (p.page ({ s with input }.renderText t).1),
            ({ s with input }.recordRender t).recordScope "preview.render".toList) := by
          rw [renderOnce, runIn_timed, Action.runIn_bind_of_ok hread]
          rfl
        rw [hrun, hes, Session.renderText_eq, Session.recordRender_eq, ← Session.recordAll_append]
        rfl
      · intro html hhtml
        exact ⟨t, hholds t rfl, (Except.ok.inj hhtml).symm⟩
  obtain ⟨store, hstore, hsame⟩ := Session.recordAll_eq (s := { s with input }) hlog es
  exact ⟨result', input, store, by rw [hrun, hstore], hsame, hresult⟩

theorem runIn_checkSource (p : Preview) (s : Session) :
    p.checkSource.runIn s = (.ok (), s) ∨ ∃ f, p.checkSource.runIn s = (.error f, s) := by
  unfold checkSource
  cases p.source with
  | file path =>
    dsimp only
    rw [Action.runIn_bind_of_ok (Action.runIn_get s)]
    split
    · exact .inr ⟨_, rfl⟩
    · exact .inl rfl
  | input | guide =>
    dsimp only
    split
    · exact .inr ⟨_, rfl⟩
    · exact .inl rfl

/-- What a preview tells once its HTML is written, as far as the output takes it. -/
def told (p : Preview) (s : Session) (html : Text) : Except Failure Unit :=
  match s.refusal? html with
  | some fault => .error (p.outputFailure fault)
  | none => .ok ()

/-- What writing HTML to the output can come to: nothing is written, or what the output takes of it
is, behind what was printed or in place of a file. -/
theorem runIn_writeOutput (p : Preview) (html : Text) (s : Session) :
    (∃ f, (p.writeOutput html).runIn s = (.error f, s)) ∨
    (p.output = none ∧ (p.writeOutput html).runIn s = (p.told s html, s.print html)) ∨
    ∃ path store, p.output = some path ∧ s.store.write path (.text (s.taken html)) = .ok store ∧
      (p.writeOutput html).runIn s = (p.told s html, { s with store }) := by
  unfold writeOutput told
  rw [Action.runIn_bind_of_ok (Action.runIn_get s)]
  cases houtput : p.output with
  | none =>
    have hset : (set (s.print html) : Action Unit).runIn s = (.ok (), s.print html) := rfl
    refine .inr (.inl ⟨rfl, ?_⟩)
    dsimp only
    rw [Action.runIn_bind_of_ok hset]
    cases s.refusal? html <;> rfl
  | some path =>
    dsimp only
    cases hwrite : s.store.write path (.text (s.taken html)) with
    | error f =>
      exact .inl ⟨_, Action.runIn_bind_of_error (Action.runIn_changeStore_of_error hwrite)⟩
    | ok store =>
      refine .inr (.inr ⟨path, store, rfl, hwrite, ?_⟩)
      rw [Action.runIn_bind_of_ok (Action.runIn_changeStore_of_ok hwrite)]
      cases s.refusal? html <;> rfl

/-- What running a preview in a session can come to, where no event changes some locations. The
output is touched last, once everything else has gone through. -/
inductive Ran (W : Location → Prop) (p : Preview) (s : Session) :
    Except Failure Unit × Session → Prop
  | failed (f : Failure) (input : Content) (store : Store) (hsame : SameOn W s.store store) :
    Ran W p s (.error f, { s with input, store })
  | printed (t : Text) (input : Content) (store : Store) (hholds : p.source.Holds s t)
    (houtput : p.output = none) (hsame : SameOn W s.store store) :
    Ran W p s (p.told s (p.html t), { s.print (p.html t) with input, store })
  | wrote (t path : Text) (input : Content) (rendered written store : Store)
    (hholds : p.source.Holds s t) (houtput : p.output = some path)
    (hrendered : SameOn W s.store rendered)
    (hwritten : rendered.write path (.text (s.taken (p.html t))) = .ok written)
    (hsame : SameOn W written store) :
    Ran W p s (p.told s (p.html t), { s with input, store })

/-- Running a preview changes the output at most, besides the locations that events may go to. -/
theorem Ran.sameOn {result : Except Failure Unit} (h : Ran W p s (result, s')) :
    SameOn (fun l => W l ∧ l ∉ p.output.toList.map s.store.place) s.store s'.store := by
  cases h with
  | failed f input store hsame => exact hsame.mono fun _ => And.left
  | printed t input store hholds houtput hsame => exact hsame.mono fun _ => And.left
  | wrote t path input rendered written store hholds houtput hrendered hwritten hsame =>
    have hoff := Store.sameOn_of_write hwritten
    rw [Store.place_of_here hrendered.here] at hoff
    have hwritten' : SameOn (fun l => W l ∧ l ∉ p.output.toList.map s.store.place)
        rendered written := by
      refine hoff.mono ?_
      rintro l ⟨-, hl⟩ rfl
      exact hl (by simp [houtput])
    exact ((hrendered.mono fun _ => And.left).trans hwritten').trans (hsame.mono fun _ => And.left)

/-- The event that the output was written is recorded once it was. -/
theorem runIn_rendered (source : Source) {result : Except Failure Unit} {a : Action Unit}
    (ha : a.runIn s = (result, s')) (hlog : ∀ l, s'.log = some l → ¬ W l) :
    ∃ store, (a >>= fun _ =>
      modify (·.record ⟨"preview.rendered".toList, source.shown⟩)).runIn s =
        (result, { s' with store }) ∧ SameOn W s'.store store := by
  cases result with
  | error f => exact ⟨s'.store, Action.runIn_bind_of_error ha, .refl _⟩
  | ok a =>
    obtain ⟨store, hrecord, hsame⟩ :=
      Session.record_eq hlog ⟨"preview.rendered".toList, source.shown⟩
    refine ⟨store, ?_, hsame⟩
    rw [Action.runIn_bind_of_ok ha, ← hrecord]
    rfl

theorem ran_run (p : Preview) (hlog : ∀ l, s.log = some l → ¬ W l) : Ran W p s (p.run.runIn s) := by
  unfold run
  rcases p.runIn_checkSource s with hcheck | ⟨f, hcheck⟩
  · rw [Action.runIn_bind_of_ok hcheck]
    obtain ⟨result, input, rendered, honce, hrendered, hhtml⟩ := runIn_renderOnce (p := p) hlog
    cases result with
    | error f =>
      rw [Action.runIn_bind_of_error honce]
      exact .failed f input rendered hrendered
    | ok html =>
      obtain ⟨t, hholds, rfl⟩ := hhtml html rfl
      rw [Action.runIn_bind_of_ok honce]
      rcases p.runIn_writeOutput (p.html t) { s with input, store := rendered } with
        ⟨f, hwrite⟩ | ⟨houtput, hwrite⟩ | ⟨path, written, houtput, hwritten, hwrite⟩
      · rw [Action.runIn_bind_of_error hwrite]
        exact .failed f input rendered hrendered
      · obtain ⟨store, hrun, hsame⟩ := runIn_rendered p.source hwrite hlog
        rw [hrun]
        exact .printed t input store hholds houtput (hrendered.trans hsame)
      · obtain ⟨store, hrun, hsame⟩ := runIn_rendered p.source hwrite hlog
        rw [hrun]
        exact .wrote t path input rendered written store hholds houtput hrendered hwritten hsame
  · rw [Action.runIn_bind_of_error hcheck]
    exact .failed f s.input s.store (.refl _)

end Preview

/-! ## The defaults -/

namespace Defaults

/-- Loading flags changes nothing. -/
theorem runIn_load_eq (path : Text) (s : Session) :
    ∃ result, (load path).runIn s = (result, s) := by
  unfold load
  rw [Action.runIn_bind_of_ok (Action.runIn_get s)]
  split
  · have hread := Action.runIn_ofStore (.readConfig path) (·.readText path) s
    cases h : (s.store.readText path).mapError (Failure.readConfig path) with
    | error e => exact ⟨_, Action.runIn_bind_of_error (h ▸ hread)⟩
    | ok content => exact ⟨_, Action.runIn_bind_of_ok (h ▸ hread)⟩
  · exact ⟨_, rfl⟩

theorem runIn_clear (path : Text) (s : Session) : (clear path).runIn s =
    if s.store.pathExists path then
      (Action.changeStore (.removeConfig path) (·.remove path)).runIn s
    else (.ok (), s) := by
  unfold clear
  rw [Action.runIn_bind_of_ok (Action.runIn_get s)]
  split
  · rfl
  · rfl

theorem runIn_makeParents {result : Except Fault Unit} {made : Store}
    (h : s.store.createDirectories ((Path.parent? path).getD []) = (result, made)) :
    (makeParents path).runIn s =
      (result.mapError (.createConfigDirectory ((Path.parent? path).getD [])),
        { s with store := made }) := by
  unfold makeParents
  rw [Action.runIn_bind_of_ok (Action.runIn_get s), h]
  cases result <;> rfl

/-- Changing the file at a path, whether it goes through or not, changes no other one. -/
theorem runIn_changeStore_eq (failure : Fault → Failure) (op : Store → Except Fault Store)
    (hop : ∀ store, op s.store = .ok store → SameFiles (· ≠ s.store.place path) s.store store) :
    ∃ result store, (Action.changeStore failure op).runIn s = (result, { s with store }) ∧
      SameFiles (· ≠ s.store.place path) s.store store := by
  cases h : op s.store with
  | error f => exact ⟨_, s.store, Action.runIn_changeStore_of_error h, .refl _⟩
  | ok store => exact ⟨_, store, Action.runIn_changeStore_of_ok h, hop store h⟩

theorem runIn_clear_eq (path : Text) (s : Session) : ∃ result store,
    (clear path).runIn s = (result, { s with store }) ∧
      SameFiles (· ≠ s.store.place path) s.store store := by
  rw [runIn_clear]
  split
  · exact runIn_changeStore_eq _ _ fun _ h => (Store.sameOn_of_remove h).sameFiles
  · exact ⟨_, s.store, rfl, .refl _⟩

theorem runIn_save_eq (path : Text) (flags : Flags) (s : Session) : ∃ result store,
    (save path flags).runIn s = (result, { s with store }) ∧
      SameFiles (· ≠ s.store.place path) s.store store := by
  have hmade := Store.sameFiles_createDirectories (W := (· ≠ s.store.place path)) s.store
    ((Path.parent? path).getD [])
  unfold save
  rcases h : s.store.createDirectories ((Path.parent? path).getD []) with ⟨result, made⟩
  rw [h] at hmade
  have hplace : made.place path = s.store.place path := Store.place_of_here hmade.here path
  cases result with
  | error f => exact ⟨_, made, Action.runIn_bind_of_error (runIn_makeParents h), hmade⟩
  | ok a =>
    rw [Action.runIn_bind_of_ok (runIn_makeParents h), ← hplace]
    obtain ⟨result, store, hwrite, hsame⟩ := runIn_changeStore_eq (s := { s with store := made })
      (.writeConfig path) (·.write path (.text flags.encode))
      fun _ h => (Store.sameOn_of_write h).sameFiles
    exact ⟨result, store, hwrite, (hplace ▸ hmade).trans hsame⟩

end Defaults

/-! ## Runs -/

namespace CommandLine

variable {env : Environment} {i : Invocation} {flags : Flags}

theorem snd_ended (result : Except Failure Preview × Session) : (ended result).2 = result.2 := by
  obtain ⟨_ | _, s'⟩ := result <;> rfl

/-- Clear and save the defaults as a command line asks, and find the flags that are in effect. -/
def effectiveFlags (env : Environment) (i : Invocation) (flags : Flags) : Action Flags := do
  updateDefaults env i flags
  return (← loadDefaults env i).merge flags

theorem runInvocation_eq_bind (env : Environment) (i : Invocation) (flags : Flags) :
    runInvocation env i flags = effectiveFlags env i flags >>= runWith env i := by
  simp only [runInvocation_eq, effectiveFlags, bind_assoc, pure_bind]

/-- The command line asks to change the defaults. -/
def Invocation.changesDefaults (i : Invocation) : Bool := i.save || i.clear

theorem updateDefaults_eq (env : Environment) (i : Invocation) (flags : Flags) :
    updateDefaults env i flags = (if i.clear then Defaults.clear env.globalPath else pure ()) >>=
      fun _ => if i.save then Defaults.save env.globalPath flags else pure () := by
  unfold updateDefaults
  cases i.clear <;> rfl

/-- Clearing and saving, whether they go through or not, change no file but the config file. -/
theorem runIn_updateDefaults_eq (env : Environment) (i : Invocation) (flags : Flags) (s : Session) :
    ∃ result store, (updateDefaults env i flags).runIn s = (result, { s with store }) ∧
      SameFiles (fun l => i.changesDefaults = true → l ≠ s.store.place env.globalPath)
        s.store store := by
  rw [updateDefaults_eq]
  obtain ⟨result, cleared, hclear, hcleared⟩ : ∃ result store,
      (if i.clear then Defaults.clear env.globalPath else pure ()).runIn s =
        (result, { s with store }) ∧
      SameFiles (fun l => i.changesDefaults = true → l ≠ s.store.place env.globalPath)
        s.store store := by
    split
    · next hon =>
      obtain ⟨result, store, hrun, hsame⟩ := Defaults.runIn_clear_eq env.globalPath s
      have hchanges : i.changesDefaults = true := by simp [Invocation.changesDefaults, hon]
      exact ⟨result, store, hrun, hsame.mono fun l hl => hl hchanges⟩
    · exact ⟨_, s.store, rfl, .refl _⟩
  cases result with
  | error f => exact ⟨_, cleared, Action.runIn_bind_of_error hclear, hcleared⟩
  | ok a =>
    rw [Action.runIn_bind_of_ok hclear]
    split
    · next hon =>
      obtain ⟨result, store, hrun, hsame⟩ :=
        Defaults.runIn_save_eq env.globalPath flags { s with store := cleared }
      rw [Store.place_of_here hcleared.here] at hsame
      have hchanges : i.changesDefaults = true := by simp [Invocation.changesDefaults, hon]
      exact ⟨result, store, hrun, hcleared.trans (hsame.mono fun l hl => hl hchanges)⟩
    · exact ⟨_, cleared, rfl, hcleared⟩

theorem runIn_loadDefaults_eq (env : Environment) (i : Invocation) (s : Session) :
    ∃ result, (loadDefaults env i).runIn s = (result, s) := by
  unfold loadDefaults
  split
  · exact ⟨_, rfl⟩
  · obtain ⟨user, huser⟩ := Defaults.runIn_load_eq env.globalPath s
    obtain ⟨folder, hfolder⟩ := Defaults.runIn_load_eq Defaults.localPath s
    cases user with
    | error f => exact ⟨_, Action.runIn_bind_of_error huser⟩
    | ok user =>
      rw [Action.runIn_bind_of_ok huser]
      cases folder with
      | error f => exact ⟨_, Action.runIn_bind_of_error hfolder⟩
      | ok folder => exact ⟨_, Action.runIn_bind_of_ok hfolder⟩

/-- Finding the flags leaves the session that changing the defaults leaves. -/
theorem runIn_effectiveFlags_eq (env : Environment) (i : Invocation) (flags : Flags) (s : Session) :
    ∃ result, (effectiveFlags env i flags).runIn s =
      (result, ((updateDefaults env i flags).runIn s).2) := by
  unfold effectiveFlags
  rcases hupdate : (updateDefaults env i flags).runIn s with ⟨result, s'⟩
  cases result with
  | error f => exact ⟨_, Action.runIn_bind_of_error hupdate⟩
  | ok a =>
    rw [Action.runIn_bind_of_ok hupdate]
    obtain ⟨result, hload⟩ := runIn_loadDefaults_eq env i s'
    cases result with
    | error f => exact ⟨_, Action.runIn_bind_of_error hload⟩
    | ok defaults => exact ⟨_, Action.runIn_bind_of_ok hload⟩

/-- A run with its flags opens the log and then runs the preview, in a session that is the same but
for the log and its file. -/
theorem ran_runWith (env : Environment) (i : Invocation) (f : Flags) (s : Session) :
    let logs := (f.debugLog.or env.debugLog).toList.map s.store.place
    ∃ store timing log result t, SameOn (· ∉ logs) s.store store ∧
      Preview.Ran (· ∉ logs) (preview i f) { s with store, timing, log } (result, t) ∧
      (runWith env i f).runIn s = ((result.map fun _ => preview i f).mapError .preview, t) := by
  intro logs
  obtain ⟨store, log, hset, hsame, hlog⟩ :=
    { s with timing := f.perf }.setLog_eq (f.debugLog.or env.debugLog)
  have hran := (preview i f).ran_run (W := (· ∉ logs))
    (s := { s with store, timing := f.perf, log }) fun l hl => not_not.2 (hlog l hl)
  have hsetUp : (setUp env f).runIn s = (.ok (), { s with store, timing := f.perf, log }) :=
    congrArg (Prod.mk _) hset
  rcases hrun : (preview i f).run.runIn { s with store, timing := f.perf, log } with ⟨result, t⟩
  rw [hrun] at hran
  refine ⟨store, f.perf, log, result, t, hsame, hran, ?_⟩
  have htold := Action.runIn_mapFailure .preview hrun
  rw [runWith, Action.runIn_bind_of_ok hsetUp]
  cases result with
  | error e => exact Action.runIn_bind_of_error htold
  | ok a => exact Action.runIn_bind_of_ok htold

/-- Such a run changes the event log and the output at most. -/
theorem sameOn_runWith (env : Environment) (i : Invocation) (f : Flags) (s : Session) :
    SameOn (· ∉ ((f.debugLog.or env.debugLog).toList ++ i.output.toList).map s.store.place)
      s.store ((runWith env i f).runIn s).2.store := by
  obtain ⟨opened, timing, log, result, s', hopened, hran, hrunWith⟩ := ran_runWith env i f s
  have hsame := hran.sameOn
  rw [hrunWith]
  rw [show opened.place = s.store.place from funext (Store.place_of_here hopened.here)] at hsame
  rw [List.map_append]
  refine (hopened.mono fun l hl => ?_).trans (hsame.mono fun l hl => ?_)
  · exact fun hmem => hl (List.mem_append_left _ hmem)
  · exact ⟨fun hmem => hl (List.mem_append_left _ hmem),
      fun hmem => hl (List.mem_append_right _ hmem)⟩

/-- The path of the event log of a run that gets as far as opening one. -/
def logPath? (env : Environment) (i : Invocation) (flags : Flags) (s : Session) : Option Text :=
  match ((effectiveFlags env i flags).runIn s).1 with
  | .ok f => f.debugLog.or env.debugLog
  | .error _ => none

/-- What running a command line that is accepted can come to: it fails before its flags are known,
or it goes on with them in a session in which the config file has changed at most. -/
theorem run_cases {arguments : List Text} {result : Except Failure Unit}
    (hparse : parse arguments = .ok i)
    (hupdate : (updateDefaults env i (env.flags arguments)).runIn s = (result, s')) :
    (∃ e, (effectiveFlags env i (env.flags arguments)).runIn s = (.error e, s') ∧
      run env arguments s = (.failed e, s')) ∨
    ∃ f, (effectiveFlags env i (env.flags arguments)).runIn s = (.ok f, s') ∧
      run env arguments s = ended ((runWith env i f).runIn s') := by
  rw [run_of_parse hparse, runInvocation_eq_bind]
  obtain ⟨result, hflags⟩ := runIn_effectiveFlags_eq env i (env.flags arguments) s
  rw [hupdate] at hflags
  cases result with
  | error e => exact .inl ⟨e, hflags, by rw [Action.runIn_bind_of_error hflags, ended]⟩
  | ok f => exact .inr ⟨f, hflags, by rw [Action.runIn_bind_of_ok hflags]⟩

end CommandLine

end MarkdownPreview

import MarkdownPreview.Proofs.SavedFlags
import MarkdownPreview.EventLog
/-!
# Sessions with an event log

What is done to a session is a row of steps: the log is opened or closed, timing is switched, an
event is recorded, a text is rendered. Between two steps that open or close the log, the others add
their events to the file that is open (`find?_after_of_log`), and nothing else changes a file
(`find?_after_of_not_opens`): so the last successful opening of a file decides what the file holds.

A text is rendered by a loop that writes to the log as it goes; `renderText_eq` tells what comes of
it without the loop: the HTML, which no log has a part in, and the events, which are those of the
text.

Main result `log_session`: which log is open after any steps, what each log file holds, which events
a rendering has, and that its HTML depends on the text alone.
-/

namespace MarkdownPreview

/-! ## Steps -/

namespace Session

/-- What can be done in a session that has to do with its event log. -/
inductive Step
  | openLog (path : Text)
  | closeLog
  | setTiming (on : Bool)
  | event (e : Event)
  | render (text : Text)
  deriving DecidableEq, Repr

/-- What is told about a step. -/
inductive Answer
  | done
  | opened (result : Except Fault Unit)
  | html (html : Text)

/-- Do a step. -/
def perform (s : Session) : Step → Answer × Session
  | .openLog path => (.opened (s.openLog path).1, (s.openLog path).2)
  | .closeLog => (.done, s.closeLog)
  | .setTiming on => (.done, { s with timing := on })
  | .event e => (.done, s.record e)
  | .render t => (.html (s.renderText t).1, s.recordRender t)

/-- The session after some steps. -/
def after (s : Session) (steps : List Step) : Session := steps.foldl (fun s st => (s.perform st).2) s

/-- What is told about each of some steps. -/
def answers : Session → List Step → List Answer
  | _, [] => []
  | s, st :: steps => (s.perform st).1 :: answers (s.perform st).2 steps

/-- The step opens or closes the log, or tries to. -/
def Step.switchesLog : Step → Bool
  | .openLog _ | .closeLog => true
  | .setTiming _ | .event _ | .render _ => false

/-- Opening the log at a path goes through, and the log is the file at a location. -/
def OpensAt (s : Session) (path : Text) (l : Location) : Prop :=
  (s.openLog path).1 = .ok () ∧ (s.openLog path).2.log = some l

/-- One of some steps opens the log in the file at a location. -/
def Opens (s : Session) (l : Location) (steps : List Step) : Prop :=
  ∃ before path later, steps = before ++ .openLog path :: later ∧ (s.after before).OpensAt path l

/-! ## Events -/

/-- The names of the passes, in the order of rendering. -/
def passNames : List Text := List.map String.toList
  ["code_blocks", "horizontal_rules", "tables", "blockquotes", "lists", "headings", "images",
    "inline_formats", "links"]

/-- A pass took a text of some bytes to a text of so many. -/
def passEvent (name : Text) (input output : Nat) : Event where
  name := "render.pass".toList
  detail := "pass=".toList ++ name ++ " in=".toList ++ Nat.toDigits 10 input ++
    " out=".toList ++ Nat.toDigits 10 output

/-- How many bytes a text has before, between and after some passes. -/
def byteSizes (ps : List Pass) (t : Text) : List Nat :=
  (t :: Pass.states ps t).map fun t => (String.ofList t).utf8ByteSize

/-- The events of rendering a text: one for each pass, then the time of all if it is wanted. -/
def renderEvents (timing : Bool) (t : Text) : List Event :=
  if t = [] then []
  else
    ((passNames.zip ((byteSizes Pass.all t).zip (byteSizes Pass.all t).tail)).map
      fun (name, input, output) => passEvent name input output) ++
      if timing then [⟨"perf.scope".toList, "document.parse".toList⟩] else []

/-- The events of some steps until the log is opened or closed. -/
def issued (timing : Bool) : List Step → List Event
  | [] => []
  | .openLog _ :: _ | .closeLog :: _ => []
  | .setTiming on :: steps => issued on steps
  | .event e :: steps => e :: issued timing steps
  | .render t :: steps => renderEvents timing t ++ issued timing steps

/-- What a log file holds: the header and a line for each event. -/
def logOf (es : List Event) : Content :=
  .text ("livemark render debug log start\n".toList ++
    es.flatMap fun e => e.name ++ ": ".toList ++ e.detail ++ ['\n'])

theorem logOf_eq (es : List Event) : logOf es = .text (logHeader ++ es.flatMap Event.line) := rfl

variable {s : Session} {l : Location} {path t : Text} {e : Event} {es : List Event}

/-! ## Recording events -/

/-- Write events to the log, in order. -/
def recordAll (s : Session) (es : List Event) : Session := es.foldl record s

theorem recordAll_append (s : Session) (es later : List Event) :
    s.recordAll (es ++ later) = (s.recordAll es).recordAll later := List.foldl_append

theorem find?_appendTo_of_ne {store : Store} {k : Location} (h : k ≠ l) (added : Text) :
    (appendTo store l added).find? k = store.find? k := by
  unfold appendTo
  split
  · next t ht =>
    have hl : l ≠ [] := by
      rintro rfl
      simp [Store.find?] at ht
    rw [Store.find?_put hl, if_neg h]
  · rfl

theorem find?_appendTo {store : Store} (h : store.find? l = some (.file (.text t))) (added : Text) :
    (appendTo store l added).find? l = some (.file (.text (t ++ added))) := by
  have hl : l ≠ [] := by
    rintro rfl
    simp [Store.find?] at h
  simp [appendTo, h, Store.find?_put hl]

@[simp] theorem log_record (s : Session) (e : Event) : (s.record e).log = s.log := by
  unfold record
  split <;> simp_all

@[simp] theorem timing_record (s : Session) (e : Event) : (s.record e).timing = s.timing := by
  unfold record
  split <;> rfl

@[simp] theorem log_recordAll (s : Session) (es : List Event) : (s.recordAll es).log = s.log := by
  induction es generalizing s with
  | nil => rfl
  | cons e es ih => exact (ih (s.record e)).trans (log_record s e)

@[simp] theorem timing_recordAll (s : Session) (es : List Event) :
    (s.recordAll es).timing = s.timing := by
  induction es generalizing s with
  | nil => rfl
  | cons e es ih => exact (ih (s.record e)).trans (timing_record s e)

theorem find?_record_of_ne (h : s.log ≠ some l) (e : Event) :
    (s.record e).store.find? l = s.store.find? l := by
  unfold record
  split
  · next k hk =>
    have hne : l ≠ k := by
      rintro rfl
      exact h hk
    exact find?_appendTo_of_ne hne _
  · rfl

/-- Events leave every file alone but the one that is the log. -/
theorem find?_recordAll_of_ne (h : s.log ≠ some l) (es : List Event) :
    (s.recordAll es).store.find? l = s.store.find? l := by
  induction es generalizing s with
  | nil => rfl
  | cons e es ih =>
    have hrest := ih (s := s.record e) (by rwa [log_record])
    exact hrest.trans (find?_record_of_ne h e)

/-- Events are added to the end of the log, a line for each. -/
theorem find?_recordAll (hlog : s.log = some l) (hfile : s.store.find? l = some (.file (.text t)))
    (es : List Event) :
    (s.recordAll es).store.find? l = some (.file (.text (t ++ es.flatMap Event.line))) := by
  induction es generalizing s t with
  | nil => simpa [recordAll] using hfile
  | cons e es ih =>
    have hrecord : (s.record e).store.find? l = some (.file (.text (t ++ e.line))) := by
      rw [record, hlog]
      exact find?_appendTo hfile e.line
    have hrest := ih (by rwa [log_record]) hrecord
    rw [List.flatMap_cons, ← List.append_assoc]
    exact hrest

/-! ## Rendering -/

theorem utf8Length_eq (t : Text) : Text.utf8Length t = (String.ofList t).utf8ByteSize := by
  induction t with
  | nil => rfl
  | cons c t ih =>
    rw [Text.utf8Length, ih, String.ofList_cons, String.utf8ByteSize_append,
      String.utf8ByteSize_singleton]

theorem ofPass_eq (p : Pass) (input output : Text) : Event.ofPass p input output =
    passEvent p.name (String.ofList input).utf8ByteSize (String.ofList output).utf8ByteSize := by
  rw [← utf8Length_eq, ← utf8Length_eq]
  rfl

theorem length_states (ps : List Pass) (t : Text) : (Pass.states ps t).length = ps.length := by
  induction ps generalizing t with
  | nil => rfl
  | cons p ps ih => rw [Pass.states, List.length_cons, ih, List.length_cons]

/-- Whether the log is open need not be asked before an event is written. -/
theorem record_of_isSome (s : Session) (e : Event) :
    (if s.log.isSome then s.record e else s) = s.record e := by
  split
  · rfl
  · next hlog =>
    have hnone : s.log = none := by simpa using hlog
    rw [record, hnone]

/-- The passes and their events, without the loop: by induction on the passes, for any text they
begin with and any session. -/
theorem renderPasses_eq (ps : List Pass) (t : Text) (s : Session) : renderPasses ps t s =
    (Pass.applyAll ps t,
      s.recordAll (((ps.map Pass.name).zip ((byteSizes ps t).zip (byteSizes ps t).tail)).map
        fun (name, input, output) => passEvent name input output)) := by
  induction ps generalizing t s with
  | nil => rfl
  | cons p ps ih =>
    rw [renderPasses, record_of_isSome, ih, ofPass_eq]
    rfl

/-- Rendering a text tells its HTML, and writes its events to the log. -/
theorem renderText_eq (s : Session) (t : Text) :
    s.renderText t = (MarkdownPreview.render t, s.recordAll (renderEvents s.timing t)) := by
  by_cases ht : t = []
  · subst ht
    have hempty : MarkdownPreview.render [] = [] := by decide +kernel
    rw [hempty]
    rfl
  · have hnames : Pass.all.map Pass.name = passNames := rfl
    rw [renderText, if_neg ht, renderPasses_eq, renderEvents, if_neg ht, hnames]
    dsimp only
    rw [recordScope, timing_recordAll, recordAll_append, MarkdownPreview.render]
    cases s.timing <;> rfl

theorem recordRender_eq (s : Session) (t : Text) :
    s.recordRender t = s.recordAll (renderEvents s.timing t) :=
  congrArg Prod.snd (renderText_eq s t)

/-! ## Opening the log -/

theorem openLog_of_ok (h : s.store.fileLocation path = .ok l) : s.openLog path =
    (.ok (), { s with store := s.store.put l (.file (.text logHeader)), log := some l }) := by
  simp only [openLog, h]

theorem openLog_of_error {f : Fault} (h : s.store.fileLocation path = .error f) :
    s.openLog path = (.error f, s.closeLog) := by
  simp only [openLog, h]

/-- A log is opened in the file that the path leads to. -/
theorem opensAt_iff : s.OpensAt path l ↔ s.store.fileLocation path = .ok l := by
  unfold OpensAt
  cases h : s.store.fileLocation path with
  | error f => simp [openLog_of_error h]
  | ok k => simp [openLog_of_ok h]

theorem log_openLog : (s.openLog path).2.log = some l ↔ s.OpensAt path l := by
  rw [opensAt_iff]
  cases h : s.store.fileLocation path with
  | error f => simp [openLog_of_error h, closeLog]
  | ok k => simp [openLog_of_ok h]

theorem find?_openLog (h : s.OpensAt path l) :
    (s.openLog path).2.store.find? l = some (.file (.text logHeader)) := by
  have hlocation := opensAt_iff.1 h
  obtain ⟨-, -, -, -, -, -, -, -, hl, -⟩ := Store.fileLocation_eq_ok hlocation
  rw [openLog_of_ok hlocation, Store.find?_put hl, if_pos rfl]

theorem find?_openLog_of_ne (h : ¬ s.OpensAt path l) :
    (s.openLog path).2.store.find? l = s.store.find? l := by
  rw [opensAt_iff] at h
  cases hlocation : s.store.fileLocation path with
  | error f => rw [openLog_of_error hlocation, closeLog]
  | ok k =>
    obtain ⟨-, -, -, -, -, -, -, -, hk, -⟩ := Store.fileLocation_eq_ok hlocation
    have hne : l ≠ k := by
      rintro rfl
      exact h hlocation
    rw [openLog_of_ok hlocation, Store.find?_put hk, if_neg hne]

theorem timing_openLog (s : Session) (path : Text) : (s.openLog path).2.timing = s.timing := by
  cases h : s.store.fileLocation path with
  | error f => rw [openLog_of_error h, closeLog]
  | ok k => rw [openLog_of_ok h]

/-! ## Steps in a row -/

variable {st : Step} {steps : List Step}

theorem after_cons (s : Session) (st : Step) (steps : List Step) :
    s.after (st :: steps) = (s.perform st).2.after steps := rfl

theorem after_append (s : Session) (steps later : List Step) :
    s.after (steps ++ later) = (s.after steps).after later := List.foldl_append

theorem opens_nil : ¬ s.Opens l [] := by
  rintro ⟨before, path, later, hcut, -⟩
  simp at hcut

theorem opens_cons : s.Opens l (st :: steps) ↔
    (∃ path, st = .openLog path ∧ s.OpensAt path l) ∨ (s.perform st).2.Opens l steps := by
  constructor
  · rintro ⟨before, path, later, hcut, hat⟩
    cases before with
    | nil =>
      obtain ⟨rfl, rfl⟩ := List.cons.inj hcut
      exact .inl ⟨path, rfl, hat⟩
    | cons st' before =>
      obtain ⟨rfl, rfl⟩ := List.cons.inj hcut
      exact .inr ⟨before, path, later, rfl, hat⟩
  · rintro (⟨path, rfl, hat⟩ | ⟨before, path, later, rfl, hat⟩)
    · exact ⟨[], path, steps, rfl, hat⟩
    · exact ⟨st :: before, path, later, rfl, hat⟩

/-- The log that is open after a step is the one it opened, or the one it found and did not close. -/
theorem log_perform : (s.perform st).2.log = some l ↔
    (∃ path, st = .openLog path ∧ s.OpensAt path l) ∨ (st.switchesLog = false ∧ s.log = some l) := by
  cases st with
  | openLog path => simp [perform, Step.switchesLog, log_openLog]
  | closeLog => simp [perform, Step.switchesLog, closeLog]
  | setTiming on => simp [perform, Step.switchesLog]
  | event e => simp [perform, Step.switchesLog]
  | render t => simp [perform, Step.switchesLog, recordRender_eq]

/-- The log that is open after some steps is the one that the last step to open or close a log has
opened, or the one that was open if there is no such step. -/
theorem log_after : (s.after steps).log = some l ↔
    (∃ before path later, steps = before ++ .openLog path :: later ∧
      (s.after before).OpensAt path l ∧ ∀ st ∈ later, st.switchesLog = false) ∨
    ((∀ st ∈ steps, st.switchesLog = false) ∧ s.log = some l) := by
  induction steps generalizing s with
  | nil => simp [after]
  | cons st steps ih =>
    rw [after_cons, ih, log_perform]
    constructor
    · rintro (⟨before, path, later, rfl, hat, hlater⟩ | ⟨hsteps, ⟨path, rfl, hat⟩ | ⟨hst, hlog⟩⟩)
      · exact .inl ⟨st :: before, path, later, rfl, hat, hlater⟩
      · exact .inl ⟨[], path, steps, rfl, hat, hsteps⟩
      · exact .inr ⟨List.forall_mem_cons.2 ⟨hst, hsteps⟩, hlog⟩
    · rintro (⟨before, path, later, hcut, hat, hlater⟩ | ⟨hsteps, hlog⟩)
      · cases before with
        | nil =>
          obtain ⟨rfl, rfl⟩ := List.cons.inj hcut
          exact .inr ⟨hlater, .inl ⟨path, rfl, hat⟩⟩
        | cons st' before =>
          obtain ⟨rfl, rfl⟩ := List.cons.inj hcut
          exact .inl ⟨before, path, later, rfl, hat, hlater⟩
      · obtain ⟨hst, hsteps⟩ := List.forall_mem_cons.1 hsteps
        exact .inr ⟨hsteps, .inr ⟨hst, hlog⟩⟩

/-- A file that is not the log stays as it is until the log is opened there. -/
theorem find?_after_of_not_opens (hlog : s.log ≠ some l) (h : ¬ s.Opens l steps) :
    (s.after steps).store.find? l = s.store.find? l := by
  induction steps generalizing s with
  | nil => rfl
  | cons st steps ih =>
    obtain ⟨hnone, hrest⟩ := not_or.1 (mt opens_cons.2 h)
    have hstep : (s.perform st).2.log ≠ some l ∧
        (s.perform st).2.store.find? l = s.store.find? l := by
      cases st with
      | openLog path =>
        have hat : ¬ s.OpensAt path l := fun hat => hnone ⟨path, rfl, hat⟩
        exact ⟨fun hl => hat (log_openLog.1 hl), find?_openLog_of_ne hat⟩
      | closeLog => exact ⟨by simp [perform, closeLog], rfl⟩
      | setTiming on => exact ⟨hlog, rfl⟩
      | event e => exact ⟨by rwa [perform, log_record], find?_record_of_ne hlog e⟩
      | render t =>
        rw [perform, recordRender_eq]
        exact ⟨by rwa [log_recordAll], find?_recordAll_of_ne hlog _⟩
    exact (ih hstep.1 hrest).trans hstep.2

/-- The log gets the events of the steps up to the one that opens or closes a log, and keeps what
it has then until it is opened again: by induction on the steps, with what the log holds so far. -/
theorem find?_after_of_log (hlog : s.log = some l) (hfile : s.store.find? l = some (.file (.text t)))
    (h : ¬ s.Opens l steps) : (s.after steps).store.find? l =
      some (.file (.text (t ++ (issued s.timing steps).flatMap Event.line))) := by
  induction steps generalizing s t with
  | nil => simpa [after, issued] using hfile
  | cons st steps ih =>
    obtain ⟨hnone, hrest⟩ := not_or.1 (mt opens_cons.2 h)
    cases st with
    | openLog path =>
      have hat : ¬ s.OpensAt path l := fun hat => hnone ⟨path, rfl, hat⟩
      have hother : (s.openLog path).2.log ≠ some l := fun hl => hat (log_openLog.1 hl)
      have hkept := (find?_after_of_not_opens hother hrest).trans (find?_openLog_of_ne hat)
      simpa [issued, after_cons, perform] using hkept.trans hfile
    | closeLog =>
      have hkept := find?_after_of_not_opens (s := s.closeLog) (by simp [closeLog]) hrest
      simpa [issued, after_cons, perform] using hkept.trans hfile
    | setTiming on => exact ih (s := { s with timing := on }) hlog hfile hrest
    | event e =>
      have hnext := find?_recordAll hlog hfile [e]
      have hafter := ih (s := s.record e) (by rwa [log_record]) hnext hrest
      rw [timing_record] at hafter
      simpa [issued, after_cons, perform] using hafter
    | render text =>
      have hnext := find?_recordAll hlog hfile (renderEvents s.timing text)
      rw [← recordRender_eq] at hnext
      have hlog' : (s.recordRender text).log = some l := by rwa [recordRender_eq, log_recordAll]
      have hafter := ih hlog' hnext hrest
      rw [recordRender_eq, timing_recordAll, ← recordRender_eq] at hafter
      simpa [issued, after_cons, perform] using hafter

/-! ## Sessions -/

/-- The answer to a rendering is the HTML of its text, in any session. -/
theorem answers_render (n : Nat) (h : steps[n]? = some (.render t)) :
    (s.answers steps)[n]? = some (.html (MarkdownPreview.render t)) := by
  induction steps generalizing s n with
  | nil => simp at h
  | cons st steps ih =>
    cases n with
    | zero =>
      obtain rfl : st = .render t := by simpa using h
      rw [answers, perform, renderText_eq]
      rfl
    | succ n => exact ih n h

/-- **A session with an event log**, from a session without one and without timing. The log is open,
in a file, exactly if the last step that opens or closes a log has opened it there. A file in which
the log is opened for the last time holds the header and the events that follow, up to the next step
that opens or closes a log; a file in which it is never opened stays as it is. A rendering has no
event for the empty text; for any other text it has one for each pass, in order, whose sizes are a
chain from the text to its HTML, and one more if timing is on. The HTML depends on the text alone. -/
theorem log_session (store : Store) (steps : List Step) :
    let start : Session := { store }
    (∀ l, (start.after steps).log = some l ↔ ∃ before path later,
      steps = before ++ .openLog path :: later ∧ (start.after before).OpensAt path l ∧
        ∀ st ∈ later, st.switchesLog = false) ∧
    (∀ before path later l, steps = before ++ .openLog path :: later →
      (start.after before).OpensAt path l →
      ¬ (start.after (before ++ [.openLog path])).Opens l later →
      (start.after steps).store.find? l =
        some (.file (logOf (issued (start.after before).timing later)))) ∧
    (∀ l, ¬ start.Opens l steps → (start.after steps).store.find? l = store.find? l) ∧
    (∀ timing, renderEvents timing [] = []) ∧
    (∀ timing t, t ≠ [] → ∃ sizes : List Nat, sizes.length = passNames.length + 1 ∧
      sizes.head? = some (String.ofList t).utf8ByteSize ∧
      sizes.getLast? = some (String.ofList (MarkdownPreview.render t)).utf8ByteSize ∧
      renderEvents timing t =
        ((passNames.zip (sizes.zip sizes.tail)).map fun (name, input, output) =>
          passEvent name input output) ++
          if timing then [⟨"perf.scope".toList, "document.parse".toList⟩] else []) ∧
    ∀ (s : Session) (n : Nat) (t : Text), steps[n]? = some (.render t) →
      (s.answers steps)[n]? = some (.html (MarkdownPreview.render t)) := by
  intro start
  refine ⟨fun l => ?_, ?_, fun l h => find?_after_of_not_opens (by simp [start]) h, fun _ => rfl, ?_,
    fun _ n _ h => answers_render n h⟩
  · simp [log_after, start]
  · rintro before path later l rfl hat hnot
    have hopened : start.after (before ++ [.openLog path]) =
        ((start.after before).openLog path).2 := by
      rw [after_append]
      rfl
    rw [hopened] at hnot
    have hfile := find?_after_of_log (log_openLog.2 hat) (find?_openLog hat) hnot
    rw [timing_openLog] at hfile
    rw [after_append, logOf_eq]
    exact hfile
  · intro timing t ht
    refine ⟨byteSizes Pass.all t, ?_, rfl, ?_, ?_⟩
    · rw [byteSizes, List.length_map, List.length_cons, length_states]
      rfl
    · rw [byteSizes, List.getLast?_map, List.getLast?_cons, ← List.getLastD_eq_getLast?,
        Pass.getLastD_states]
      rfl
    · rw [renderEvents, if_neg ht]

/-- A log that cannot be opened leaves none open, and the log that is opened again, by another
spelling of its path, is emptied. What happens while none is open is lost. -/
theorem log_session_reopened :
    let before : List Step := [.openLog "log".toList, .event ⟨"a".toList, []⟩,
      .openLog "no/log".toList, .event ⟨"a".toList, []⟩, .setTiming true]
    let path := "./log".toList
    let later : List Step :=
      [.render "# é".toList, .event ⟨"b".toList, "c".toList⟩, .closeLog, .event ⟨"c".toList, []⟩]
    let start : Session := { store := ⟨[], []⟩ }
    let l : Location := ["log".toList]
    (start.after before).OpensAt path l ∧
      ¬ (start.after (before ++ [.openLog path])).Opens l later ∧
      (start.after (before ++ .openLog path :: later)).store.find? l =
        some (.file (.text (List.flatMap (fun line => line.toList ++ ['\n'])
          ["livemark render debug log start",
           "render.pass: pass=code_blocks in=4 out=4",
           "render.pass: pass=horizontal_rules in=4 out=4",
           "render.pass: pass=tables in=4 out=4",
           "render.pass: pass=blockquotes in=4 out=4",
           "render.pass: pass=lists in=4 out=4",
           "render.pass: pass=headings in=4 out=11",
           "render.pass: pass=images in=11 out=11",
           "render.pass: pass=inline_formats in=11 out=11",
           "render.pass: pass=links in=11 out=11",
           "perf.scope: document.parse",
           "b: c"]))) := by
  intro before path later start l
  have hat : (start.after before).OpensAt path l := opensAt_iff.2 (by decide +kernel)
  have hnot : ¬ (start.after (before ++ [.openLog path])).Opens l later := by
    simp [later, opens_cons, opens_nil]
  have htiming : (start.after before).timing = true := rfl
  have hfile := (log_session ⟨[], []⟩ (before ++ .openLog path :: later)).2.1 before path later l rfl
    hat hnot
  rw [htiming] at hfile
  refine ⟨hat, hnot, ?_⟩
  rw [hfile]
  decide +kernel

end Session

end MarkdownPreview

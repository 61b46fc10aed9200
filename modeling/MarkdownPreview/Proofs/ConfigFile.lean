import MarkdownPreview.Flags.Config
import MarkdownPreview.Path
import MarkdownPreview.Proofs.LineShape
/-!
# What a config file keeps

A config file holds one flag to a line, and what is read back of a line is trimmed. So of flags whose
values stay on one line, `encode` writes and `decode` reads back the switches as they are, the title
without the blanks at its ends, and the path of the log in the same way, if anything is left of it
(`decode_encode`). No value that is read has a line break (`onOneLine_decode`), so flags come back as
they were exactly if they are `Storable` (`same_decode_encode_iff`), even if paths that take the same
steps count as equal.
-/

namespace MarkdownPreview

open Text

namespace Flags

/-! ## Writing and reading a line -/

/-- The values of the flags stay on one line. -/
def OnOneLine (f : Flags) : Prop :=
  (∀ t ∈ f.title, '\n' ∉ t) ∧ ∀ p ∈ f.debugLog, '\n' ∉ p

/-- What a config file keeps of a title is the title without the blanks at its ends, and of the path
of the log the same, if it is not empty. -/
def kept (f : Flags) : Flags :=
  { f with title := f.title.map trim, debugLog := (f.debugLog.map trim).filter (· ≠ []) }

theorem lineValue?_append (option : Text) {c : Char} (hc : c = '=' ∨ isBlank c = true) (t : Text) :
    lineValue? option (option ++ c :: trimEnd t) = some (trim t) := by
  rw [lineValue?, isPrefixOf?_append, Option.bind_some, ← trim_trimEnd t]
  exact if_pos hc

theorem lineTokens_title (t : Text) :
    lineTokens (trim ("--title=".toList ++ t)) = ["--title".toList, trim t] := by
  have htrim : trim ("--title=".toList ++ t) = "--title".toList ++ '=' :: trimEnd t := by
    rw [show "--title=".toList ++ t = '-' :: ("-title=".toList ++ t) from rfl,
      trim_of_not_blank (by decide), trimEnd_append]
    split
    · next h => rw [h]; decide
    · rfl
  rw [htrim, lineTokens, lineOptions, List.findSome?_cons,
    lineValue?_append "--title".toList (Or.inl rfl) t]
  rfl

theorem lineTokens_debugLog (p : Text) :
    lineTokens (trim ("--render-debug-log ".toList ++ p)) =
      "--render-debug-log".toList :: (if trim p = [] then [] else [trim p]) := by
  have htrim : trim ("--render-debug-log ".toList ++ p) =
      if trim p = [] then "--render-debug-log".toList
      else "--render-debug-log".toList ++ ' ' :: trimEnd p := by
    rw [show "--render-debug-log ".toList ++ p = '-' :: ("-render-debug-log ".toList ++ p) from rfl,
      trim_of_not_blank (by decide), trimEnd_append]
    simp only [trimEnd_eq_nil_iff]
    split
    · decide
    · rfl
  rw [htrim]
  split
  · decide
  · have hother : lineValue? "--title".toList ("--render-debug-log".toList ++ ' ' :: trimEnd p) =
        none := rfl
    rw [lineTokens, lineOptions, List.findSome?_cons, hother, List.findSome?_cons,
      lineValue?_append "--render-debug-log".toList (Or.inr (by decide)) p]
    rfl

/-! ## Writing and reading a file -/

/-- A line that sets a flag starts with a dash, and holds no break if its value holds none. -/
theorem exists_of_mem_flagLines {f : Flags} (h : f.OnOneLine) {l : Text} (hl : l ∈ flagLines f) :
    ∃ u, l = '-' :: u ∧ '\n' ∉ u := by
  simp only [flagLines, List.mem_append, List.mem_ite_nil_right, List.mem_singleton,
    Option.mem_toList, Option.map_eq_some_iff] at hl
  rcases hl with (((⟨-, rfl⟩ | ⟨-, rfl⟩) | ⟨-, rfl⟩) | ⟨t, ht, rfl⟩) | ⟨p, hp, rfl⟩
  · exact ⟨"-watch".toList, rfl, by decide⟩
  · exact ⟨"-standalone".toList, rfl, by decide⟩
  · exact ⟨"-perf".toList, rfl, by decide⟩
  · refine ⟨"-title=".toList ++ t, rfl, ?_⟩
    exact List.not_mem_append (by decide) (h.1 t ht)
  · refine ⟨"-render-debug-log ".toList ++ p, rfl, ?_⟩
    exact List.not_mem_append (by decide) (h.2 p hp)

theorem lines_encode {f : Flags} (h : f.OnOneLine) :
    lines (encode f) = configHeader :: flagLines f ++ [[]] := by
  have hline : ∀ l ∈ configHeader :: flagLines f, '\n' ∉ l := by
    intro l hl
    rcases List.mem_cons.1 hl with rfl | hl
    · decide
    · obtain ⟨u, rfl, hu⟩ := exists_of_mem_flagLines h hl
      simpa using hu
  rw [encode, lines_append_break, joinLines, lines, List.splitOn_intercalate _ hline (by simp)]
  rfl

/-- All that a config file says is in the lines of its flags. -/
theorem configLines_encode {f : Flags} (h : f.OnOneLine) :
    configLines (encode f) = (flagLines f).map trim := by
  have hkept : ∀ l ∈ (flagLines f).map trim, (l ≠ [] && l.head? != some '#') = true := by
    intro l hl
    obtain ⟨l', hl', rfl⟩ := List.mem_map.1 hl
    obtain ⟨u, rfl, -⟩ := exists_of_mem_flagLines h hl'
    rw [trim_of_not_blank (by decide)]
    simp
  have hheader : trim configHeader = configHeader := by decide
  rw [configLines, lines_encode h, List.map_append, List.map_cons, hheader, List.cons_append,
    List.filter_cons_of_neg (by decide), List.filter_append, List.filter_eq_self.2 hkept]
  exact List.append_nil _

/-- The tokens of a config file that saves some flags. -/
theorem configTokens_encode {f : Flags} (h : f.OnOneLine) :
    configTokens (encode f) =
      (if f.watch then ["--watch".toList] else []) ++
        (if f.standalone then ["--standalone".toList] else []) ++
        (if f.perf then ["--perf".toList] else []) ++
        f.title.elim [] (fun t => ["--title".toList, trim t]) ++
        f.debugLog.elim [] fun p =>
          "--render-debug-log".toList :: (if trim p = [] then [] else [trim p]) := by
  have hswitch : ∀ (b : Bool), ∀ switch ∈ ["--watch".toList, "--standalone".toList, "--perf".toList],
      (if b then [switch] else []).flatMap (fun l => lineTokens (trim l)) =
        if b then [switch] else [] := by decide
  rw [configTokens, configLines_encode h, List.flatMap_map]
  simp only [flagLines, List.flatMap_append]
  rw [hswitch _ _ (by simp), hswitch _ _ (by simp), hswitch _ _ (by simp)]
  congr 2
  · cases f.title with
    | none => rfl
    | some t => exact (List.append_nil _).trans (lineTokens_title t)
  · cases f.debugLog with
    | none => rfl
    | some p => exact (List.append_nil _).trans (lineTokens_debugLog p)

end Flags

/-! ## Tokens and settings -/

namespace Setting

theorem ofTokens_option {token : Text} (option : Text → Setting) (h : option? token = some option)
    (value : Text) (tokens : List Text) :
    ofTokens (token :: value :: tokens) = option value :: ofTokens tokens := by
  simp only [ofTokens, h]

/-- A token that is no option is read on its own. -/
theorem ofTokens_cons {token : Text} (h : option? token = none) (tokens : List Text) :
    ofTokens (token :: tokens) =
      (switch? token).toList ++ (assignment? token).toList ++ ofTokens tokens := by
  cases tokens with
  | nil => simp [ofTokens]
  | cons next tokens => simp only [ofTokens, h]

/-- The tokens of a switch that may be set, before others. -/
theorem ofTokens_switch {token : Text} (setting : Setting) (hoption : option? token = none)
    (hswitch : (switch? token).toList ++ (assignment? token).toList = [setting]) (b : Bool)
    (tokens : List Text) :
    ofTokens ((if b then [token] else []) ++ tokens) =
      (if b then [setting] else []) ++ ofTokens tokens := by
  cases b with
  | false => rfl
  | true =>
    have hcons := ofTokens_cons hoption tokens
    rw [hswitch] at hcons
    exact hcons

end Setting

namespace Flags

/-- The settings that make some flags. -/
def settings (f : Flags) : List Setting :=
  (if f.watch then [.watch] else []) ++ ((if f.standalone then [.standalone] else []) ++
    ((if f.perf then [.perf] else []) ++ ((f.title.map .title).toList ++
      (f.debugLog.map .debugLog).toList)))

theorem ofSettings_settings (f : Flags) : ofSettings f.settings = f := by
  obtain ⟨watch, standalone, perf, title, debugLog⟩ := f
  cases watch <;> cases standalone <;> cases perf <;> cases title <;> cases debugLog <;> rfl

/-- The tokens of the options that may be set. -/
theorem ofTokens_options (title debugLog : Option Text) :
    Setting.ofTokens (title.elim [] (fun t => ["--title".toList, trim t]) ++
      debugLog.elim [] fun p =>
        "--render-debug-log".toList :: (if trim p = [] then [] else [trim p])) =
      ((title.map trim).map .title).toList ++
        (((debugLog.map trim).filter (· ≠ [])).map .debugLog).toList := by
  have hlog : Setting.ofTokens (debugLog.elim [] fun p =>
      "--render-debug-log".toList :: (if trim p = [] then [] else [trim p])) =
        (((debugLog.map trim).filter (· ≠ [])).map .debugLog).toList := by
    cases debugLog with
    | none => rfl
    | some p =>
      by_cases hp : trim p = []
      · simp only [Option.elim_some, Option.map_some, hp, if_true]
        decide
      · simp only [Option.elim_some, Option.map_some, hp, if_false]
        rw [Setting.ofTokens_option .debugLog rfl]
        simp [Option.filter, hp, Setting.ofTokens]
  cases title with
  | none => exact hlog
  | some t =>
    simp only [Option.elim_some, Option.map_some, List.cons_append, List.nil_append]
    rw [Setting.ofTokens_option .title rfl, hlog]
    rfl

/-- **What a config file keeps is read back.** -/
theorem decode_encode {f : Flags} (h : f.OnOneLine) : decode (encode f) = f.kept := by
  rw [← ofSettings_settings f.kept, decode, ofTokens, configTokens_encode h]
  congr 1
  simp only [List.append_assoc]
  rw [Setting.ofTokens_switch .watch (by decide) (by decide),
    Setting.ofTokens_switch .standalone (by decide) (by decide),
    Setting.ofTokens_switch .perf (by decide) (by decide), ofTokens_options]
  rfl

/-! ## Values that are read -/

theorem break_not_mem_trim {t : Text} (h : '\n' ∉ t) : '\n' ∉ trim t := fun hm => h (mem_of_mem_trim hm)

theorem break_not_mem_lineTokens {l : Text} (hl : '\n' ∉ l) : ∀ token ∈ lineTokens l, '\n' ∉ token := by
  intro token htoken
  unfold lineTokens at htoken
  split at htoken
  · next tokens h =>
    obtain ⟨option, hoption, h⟩ := List.exists_of_findSome?_eq_some h
    obtain ⟨value, hvalue, rfl⟩ := Option.map_eq_some_iff.1 h
    obtain ⟨rest, hrest, hvalue⟩ := Option.bind_eq_some_iff.1 hvalue
    rw [eq_append_of_isPrefixOf? hrest] at hl
    split at hvalue
    · split at hvalue
      · rw [← Option.some.inj hvalue] at htoken
        simp only [List.mem_cons, List.not_mem_nil, or_false] at htoken
        rcases htoken with rfl | rfl
        · exact fun hm => hl (List.mem_append_left _ hm)
        · exact break_not_mem_trim fun hm => hl (by simp [hm])
      · simp at hvalue
    · simp at hvalue
  · exact fun hm => hl (mem_splitOnP (List.mem_filter.1 htoken).1 _ hm).2

theorem onOneLine_default : OnOneLine {} := ⟨by simp, by simp⟩

theorem OnOneLine.merge {f g : Flags} (hf : f.OnOneLine) (hg : g.OnOneLine) :
    (f.merge g).OnOneLine := by
  constructor
  · intro t ht
    rcases Option.or_eq_some_iff.1 ht with h | ⟨-, h⟩
    · exact hg.1 t h
    · exact hf.1 t h
  · intro p hp
    rcases Option.or_eq_some_iff.1 hp with h | ⟨-, h⟩
    · exact hg.2 p h
    · exact hf.2 p h

theorem onOneLine_ofSettings {settings : List Setting} (h : ∀ s ∈ settings, s.flags.OnOneLine) :
    (ofSettings settings).OnOneLine :=
  List.foldlRecOn settings _ onOneLine_default fun _ hf s hs => hf.merge (h s hs)

theorem onOneLine_title {t : Text} (h : '\n' ∉ t) : (Setting.title t).flags.OnOneLine :=
  ⟨fun _ ht => Option.some.inj ht ▸ h, by simp [Setting.flags]⟩

theorem onOneLine_debugLog {p : Text} (h : '\n' ∉ p) : (Setting.debugLog p).flags.OnOneLine :=
  ⟨by simp [Setting.flags], fun _ hp => Option.some.inj hp ▸ h⟩

theorem onOneLine_token {token : Text} (h : '\n' ∉ token) :
    ∀ s ∈ (Setting.switch? token).toList ++ (Setting.assignment? token).toList,
      s.flags.OnOneLine := by
  intro s hs
  rcases List.mem_append.1 hs with hs | hs
  · rw [Option.mem_toList, Setting.switch?] at hs
    split at hs
    · rw [← Option.some.inj hs]; exact ⟨by simp [Setting.flags], by simp [Setting.flags]⟩
    · split at hs
      · rw [← Option.some.inj hs]; exact ⟨by simp [Setting.flags], by simp [Setting.flags]⟩
      · split at hs
        · rw [← Option.some.inj hs]; exact ⟨by simp [Setting.flags], by simp [Setting.flags]⟩
        · simp at hs
  · have hend : ∀ {mark rest : Text}, mark.isPrefixOf? token = some rest → '\n' ∉ rest := by
      intro mark rest hp hm
      rw [eq_append_of_isPrefixOf? hp] at h
      exact h (List.mem_append_right _ hm)
    rcases Option.or_eq_some_iff.1 (Option.mem_toList.1 hs) with hs | ⟨-, hs⟩
    · obtain ⟨rest, hrest, rfl⟩ := Option.map_eq_some_iff.1 hs
      exact onOneLine_title (hend hrest)
    · obtain ⟨rest, hrest, rfl⟩ := Option.map_eq_some_iff.1 hs
      exact onOneLine_debugLog (hend hrest)

/-- A value that is set is a token or an end of one. -/
theorem onOneLine_ofTokens {tokens : List Text} (h : ∀ token ∈ tokens, '\n' ∉ token) :
    ∀ s ∈ Setting.ofTokens tokens, s.flags.OnOneLine := by
  fun_induction Setting.ofTokens tokens with
  | case1 => simp
  | case2 token => exact onOneLine_token (h token List.mem_cons_self)
  | case3 token next tokens option hoption ih =>
    simp only [List.forall_mem_cons] at h
    rw [List.forall_mem_cons]
    refine ⟨?_, ih h.2.2⟩
    unfold Setting.option? at hoption
    split at hoption
    · rw [← Option.some.inj hoption]; exact onOneLine_title h.2.1
    · split at hoption
      · rw [← Option.some.inj hoption]; exact onOneLine_debugLog h.2.1
      · simp at hoption
  | case4 token next tokens hoption ih =>
    intro s hs
    rcases List.mem_append.1 hs with hs | hs
    · exact onOneLine_token (h token List.mem_cons_self) s hs
    · exact ih (fun token' ht => h token' (List.mem_cons_of_mem _ ht)) s hs

/-- **No value that is read from a config file has a break.** -/
theorem onOneLine_decode (content : Text) : (decode content).OnOneLine := by
  refine onOneLine_ofSettings (onOneLine_ofTokens fun token htoken => ?_)
  obtain ⟨l, hl, htoken⟩ := List.mem_flatMap.1 htoken
  obtain ⟨l', hl', rfl⟩ := List.mem_map.1 (List.mem_filter.1 hl).1
  exact break_not_mem_lineTokens (break_not_mem_trim (break_not_mem_of_mem_lines hl')) token htoken

end Flags

/-! ## Paths that take the same steps -/

namespace Path

/-- A character of a name that is neither a slash nor a point. -/
def isNameChar (c : Char) : Bool := c != '/' && c != '.'

/-- The characters of a step that no reading of a path drops. -/
def Step.letters : Step → Text
  | .name n => n.filter isNameChar
  | _ => []

theorem letters_ofName? (n : Text) :
    (Step.ofName? n).elim [] Step.letters = n.filter isNameChar := by
  unfold Step.ofName?
  split
  · next h => rcases h with rfl | rfl <;> rfl
  · split
    · next h => rw [h]; rfl
    · rfl

theorem flatMap_letters_filterMap (names : List Text) :
    (names.filterMap Step.ofName?).flatMap Step.letters = names.flatMap (·.filter isNameChar) := by
  induction names with
  | nil => rfl
  | cons n names ih =>
    rw [List.filterMap_cons, List.flatMap_cons, ← letters_ofName? n, ← ih]
    cases Step.ofName? n <;> rfl

theorem flatMap_filter_splitOn (path : Text) :
    (path.splitOn '/').flatMap (·.filter isNameChar) = path.filter isNameChar := by
  induction path with
  | nil => rfl
  | cons c path ih =>
    obtain ⟨first, rest, hs⟩ := List.exists_cons_of_ne_nil (List.splitOn_ne_nil '/' path)
    rw [List.splitOn_cons_eq_if_modifyHead]
    by_cases hc : c = '/'
    · subst hc
      rw [List.filter_cons_of_neg (by decide), ← ih]
      rfl
    · rw [hs] at ih
      simp only [beq_iff_eq, hc, if_false, hs, List.modifyHead_cons, List.flatMap_cons] at ih ⊢
      rw [List.filter_cons, List.filter_cons]
      split
      · rw [List.cons_append, ih]
      · exact ih

/-- The steps of a path tell its characters, slashes and points apart. -/
theorem flatMap_letters_steps (path : Text) :
    (steps path).flatMap Step.letters = path.filter isNameChar := by
  have hnames := flatMap_filter_splitOn path
  unfold steps
  split
  · next h => exact absurd h (List.splitOn_ne_nil '/' path)
  · next first names h =>
    rw [h, List.flatMap_cons] at hnames
    split
    · next hroot =>
      obtain ⟨t, rfl⟩ := List.head?_eq_some_iff.1 hroot
      rw [List.splitOn_cons_eq_if_modifyHead, if_pos (beq_self_eq_true _)] at h
      rw [← (List.cons.inj h).1] at hnames
      rw [List.flatMap_cons, flatMap_letters_filterMap]
      exact hnames
    · split
      · next hfirst =>
        rw [hfirst] at hnames
        rw [List.flatMap_cons, flatMap_letters_filterMap]
        exact hnames
      · rw [flatMap_letters_filterMap, List.flatMap_cons]
        exact hnames

theorem filter_eq_of_steps_eq {p q : Text} (h : steps p = steps q) :
    p.filter isNameChar = q.filter isNameChar := by
  rw [← flatMap_letters_steps, ← flatMap_letters_steps, h]

theorem isNameChar_of_isBlank {c : Char} (h : isBlank c = true) : isNameChar c = true := by
  simp only [isNameChar, Bool.and_eq_true, bne_iff_ne]
  constructor <;> (rintro rfl; revert h; decide)

/-- A path that takes the steps it takes without the blanks at its ends has none there. -/
theorem trim_eq_self_of_steps_eq {p : Text} (h : steps (trim p) = steps p) : trim p = p := by
  obtain ⟨a, b, hp, ha, hb⟩ := trim_shape p
  have hkept : ∀ s : Text, (∀ c ∈ s, isBlank c = true) → s.filter isNameChar = s :=
    fun s hs => List.filter_eq_self.2 fun c hc => isNameChar_of_isBlank (hs c hc)
  have hfilter := congrArg List.length (filter_eq_of_steps_eq h)
  rw [hp, List.filter_append, List.filter_append, ← hp, hkept a ha, hkept b hb, List.length_append,
    List.length_append] at hfilter
  have hstart : a = [] := List.eq_nil_of_length_eq_zero (by omega)
  have hend : b = [] := List.eq_nil_of_length_eq_zero (by omega)
  simpa [hstart, hend] using hp.symm

end Path

/-! ## Flags that come back -/

/-- The text is one line, and no blank stands at its ends. -/
def Text.IsLineValue (t : Text) : Prop :=
  '\n' ∉ t ∧ (∀ c ∈ t.head?, isBlank c = false) ∧ ∀ c ∈ t.getLast?, isBlank c = false

theorem Text.isLineValue_iff {t : Text} : t.IsLineValue ↔ '\n' ∉ t ∧ trim t = t := by
  refine and_congr_right fun _ => ⟨fun ⟨hhead, hlast⟩ => trim_eq_self hhead hlast, fun h => ?_⟩
  constructor
  · intro c hc
    rw [← h, ← trimStart_trimEnd] at hc
    exact head?_trimStart hc
  · intro c hc
    rw [← h] at hc
    exact getLast?_trimEnd hc

instance (t : Text) : Decidable t.IsLineValue := decidable_of_iff _ Text.isLineValue_iff.symm

namespace Flags

/-- A title that is set is one line without blanks at its ends, and so is a path of the log, which is
not empty either. -/
def Storable (f : Flags) : Prop :=
  (∀ t ∈ f.title, t.IsLineValue) ∧ ∀ p ∈ f.debugLog, p ≠ [] ∧ p.IsLineValue

instance (f : Flags) : Decidable f.Storable := inferInstanceAs (Decidable (_ ∧ _))

/-- The flags are equal, paths of the log being compared by the steps they take. -/
def Same (f g : Flags) : Prop :=
  f.watch = g.watch ∧ f.standalone = g.standalone ∧ f.perf = g.perf ∧ f.title = g.title ∧
    f.debugLog.map Path.steps = g.debugLog.map Path.steps

instance (f g : Flags) : Decidable (f.Same g) := inferInstanceAs (Decidable (_ ∧ _))

theorem Same.refl (f : Flags) : f.Same f := ⟨rfl, rfl, rfl, rfl, rfl⟩

theorem Storable.onOneLine {f : Flags} (h : f.Storable) : f.OnOneLine :=
  ⟨fun t ht => (h.1 t ht).1, fun p hp => (h.2 p hp).2.1⟩

theorem Storable.kept_eq {f : Flags} (h : f.Storable) : f.kept = f := by
  obtain ⟨watch, standalone, perf, title, debugLog⟩ := f
  obtain ⟨htitle, hlog⟩ := h
  have ht : title.map trim = title := by
    cases title with
    | none => rfl
    | some t => rw [Option.map_some, (isLineValue_iff.1 (htitle t rfl)).2]
  have hl : (debugLog.map trim).filter (· ≠ []) = debugLog := by
    cases debugLog with
    | none => rfl
    | some p =>
      obtain ⟨hne, hp⟩ := hlog p rfl
      rw [Option.map_some, (isLineValue_iff.1 hp).2]
      simp [Option.filter, hne]
  simp only [kept, ht, hl]

/-- Flags whose values stay on one line lose blanks at their ends, or a path that is blank. -/
theorem OnOneLine.storable_of_same {f : Flags} (h : f.OnOneLine) (hsame : f.kept.Same f) :
    f.Storable := by
  obtain ⟨-, -, -, htitle, hlog⟩ := hsame
  constructor
  · intro t ht
    simp only [kept, Option.mem_def.1 ht, Option.map_some] at htitle
    exact isLineValue_iff.2 ⟨h.1 t ht, Option.some.inj htitle⟩
  · intro p hp
    simp only [kept, Option.mem_def.1 hp, Option.map_some] at hlog
    by_cases hne : trim p = []
    · simp [Option.filter, hne] at hlog
    · simp only [Option.filter, hne, ne_eq, not_false_eq_true, decide_true, if_true,
        Option.map_some] at hlog
      have htrim := Path.trim_eq_self_of_steps_eq (Option.some.inj hlog)
      exact ⟨by rwa [htrim] at hne, isLineValue_iff.2 ⟨h.2 p hp, htrim⟩⟩

/-- Flags that come back have no break in a value, because no value that is read has one. -/
theorem onOneLine_of_same {f : Flags} (h : (decode (encode f)).Same f) : f.OnOneLine := by
  obtain ⟨-, -, -, htitle, hlog⟩ := h
  obtain ⟨hread, hread'⟩ := onOneLine_decode (encode f)
  constructor
  · rwa [htitle] at hread
  · intro p hp hbreak
    rw [Option.mem_def.1 hp, Option.map_some, Option.map_eq_some_iff] at hlog
    obtain ⟨q, hq, hsteps⟩ := hlog
    have hletters := Path.filter_eq_of_steps_eq hsteps
    have hmem : '\n' ∈ p.filter Path.isNameChar := List.mem_filter.2 ⟨hbreak, by decide⟩
    rw [← hletters] at hmem
    exact hread' q hq (List.mem_filter.1 hmem).1

/-- **The flags that a config file gives back.** -/
theorem same_decode_encode_iff {f : Flags} : (decode (encode f)).Same f ↔ f.Storable := by
  constructor
  · intro h
    have hline := onOneLine_of_same h
    rw [decode_encode hline] at h
    exact hline.storable_of_same h
  · intro h
    rw [decode_encode h.onOneLine, h.kept_eq]
    exact Same.refl f

theorem decode_encode_eq_iff {f : Flags} : decode (encode f) = f ↔ f.Storable := by
  constructor
  · intro h
    rw [← same_decode_encode_iff, h]
    exact Same.refl f
  · intro h
    rw [decode_encode h.onOneLine, h.kept_eq]

end Flags

end MarkdownPreview

import MarkdownPreview.Proofs.SavedFlags
import MarkdownPreview.Proofs.TokenPhrases
/-!
# Config files and their lines

The tokens of a config file are read in one go, whatever lines they stand on, so an option without a
value at the end of a line takes the next token of the file for it. What is read together stands on one
line (`Flags.ValuesOnLines`) exactly if no line ends in such an option above a line that says something
(`Flags.NoneWaiting`), and then the flags of the file are those of its lines.

Main result `load_lines_iff`: a config file is read line by line exactly if it has no such line. With
one, a title can be taken from the line below, where a switch stands (`title_from_next_line`).
-/

namespace MarkdownPreview

open Text

/-! ## Lines -/

namespace Flags

/-- The flags of the lines of a config file, each line read alone and merged over those before it. -/
def mergeLines (content : Text) : Flags :=
  (lines content).foldl (fun flags line => flags.merge (decode line)) {}

/-- What is read together stands on one line: an option has its value on its own line. -/
def ValuesOnLines (content : Text) : Prop :=
  Setting.phrases (configTokens content) =
    (lines content).flatMap fun line => Setting.phrases (configTokens line)

/-- No line that ends in an option without a value has a line below it that says something. -/
def NoneWaiting (content : Text) : Prop :=
  ((lines content).map configTokens).Pairwise fun tokens below =>
    Setting.endsInOption tokens = true → below = []

instance (content : Text) : Decidable (NoneWaiting content) :=
  inferInstanceAs (Decidable (List.Pairwise _ _))

/-- The tokens of a config file are those of its lines. -/
theorem configTokens_eq_flatten (content : Text) :
    configTokens content = ((lines content).map configTokens).flatten := by
  have hline : ∀ l ∈ lines content, configTokens l =
      ([trim l].filter fun line => line ≠ [] && line.head? != some '#').flatMap lineTokens := by
    intro l hl
    rw [configTokens, configLines, lines_of_break_not_mem (break_not_mem_of_mem_lines hl)]
    rfl
  rw [List.map_congr_left hline, configTokens, configLines]
  induction lines content with
  | nil => rfl
  | cons l ls ih =>
    rw [List.map_cons, List.map_cons, List.flatten_cons, ← ih, ← List.flatMap_append,
      ← List.filter_append, List.singleton_append]

/-- The flags of the lines are made of the settings of their phrases. -/
theorem mergeLines_eq (content : Text) : mergeLines content =
    ofSettings (((lines content).flatMap fun line =>
      Setting.phrases (configTokens line)).flatMap Setting.ofTokens) := by
  have hparts := foldl_merge_ofSettings
    ((lines content).map fun line => Setting.ofTokens (configTokens line)) {}
  rw [List.foldl_map, default_merge] at hparts
  rw [mergeLines, List.flatMap_assoc]
  simp only [← Setting.ofTokens_eq_flatMap_phrases]
  exact hparts

theorem ValuesOnLines.decode_eq {content : Text} (h : ValuesOnLines content) :
    decode content = mergeLines content := by
  rw [decode, ofTokens, Setting.ofTokens_eq_flatMap_phrases, h, mergeLines_eq]

theorem valuesOnLines_iff {content : Text} : ValuesOnLines content ↔ NoneWaiting content := by
  rw [NoneWaiting, ← Setting.phrases_flatten_iff, ← configTokens_eq_flatten, List.flatMap_map]
  rfl

end Flags

/-! ## Loading -/

namespace Defaults

variable {path content : Text} {s : Session}

/-- **When a config file is read line by line.** The flags that are loaded are those of the lines of the
file, each read alone, and every value is on the line of its option, exactly if no line ends in an
option without a value above a line that says something. -/
theorem load_lines_iff (h : s.store.entry path = .ok (.file (.text content))) :
    ∃ flags, (load path).runIn s = (.ok flags, s) ∧
      (flags = Flags.mergeLines content ∧ Flags.ValuesOnLines content ↔
        Flags.NoneWaiting content) := by
  refine ⟨_, runIn_load h, ?_⟩
  rw [← Flags.valuesOnLines_iff]
  exact ⟨And.right, fun hlines => ⟨hlines.decode_eq, hlines⟩⟩

/-- An option that ends the last line that says something waits for nothing. -/
theorem load_lines_last :
    let content := "--title = A b\n-s --render-debug-log\n\n # -w".toList
    let s := folder [(["c".toList], .file (.text content))]
    s.store.entry "c".toList = .ok (.file (.text content)) ∧ Flags.NoneWaiting content ∧
      (load "c".toList).runIn s = (.ok { standalone := true, title := some "= A b".toList }, s) := by
  intro content s
  have hfile : s.store.entry "c".toList = .ok (.file (.text content)) := rfl
  have hnone : Flags.NoneWaiting content := by decide +kernel
  obtain ⟨flags, hload, hlines⟩ := load_lines_iff hfile
  have hmerge : Flags.mergeLines content =
      { standalone := true, title := some "= A b".toList } := by decide +kernel
  rw [(hlines.2 hnone).1, hmerge] at hload
  exact ⟨hfile, hnone, hload⟩

/-- A title takes the switch on the line below it for its value; read alone, the lines set the switch and
no title. -/
theorem title_from_next_line :
    let content := "--title\n--watch".toList
    let s := folder [(["c".toList], .file (.text content))]
    (load "c".toList).runIn s = (.ok { title := some "--watch".toList }, s) ∧
      Flags.mergeLines content = { watch := true } := by
  intro content s
  have hfile : s.store.entry "c".toList = .ok (.file (.text content)) := rfl
  have hdecode : Flags.decode content = { title := some "--watch".toList } := by decide +kernel
  have hload := runIn_load hfile
  rw [hdecode] at hload
  exact ⟨hload, by decide +kernel⟩

end Defaults

end MarkdownPreview

import MarkdownPreview.Proofs.ConfigFile
/-!
# Phrases of tokens

Reading takes one token or two at a time. `Setting.phrases` cuts tokens into what is read together, an
option with its value or one token, and the settings of some tokens are those of their phrases
(`Setting.ofTokens_eq_flatMap_phrases`). Tokens can be cut between two phrases only: behind an option
that still waits for its value (`Setting.endsInOption`), the value would be taken from what follows.
Cut anywhere else, the phrases of the parts are the phrases of the whole, and so are their settings
(`Setting.phrases_flatten_iff`, `Setting.ofTokens_append`); merging flags puts settings in a row.
-/

namespace MarkdownPreview

namespace Setting

/-! ## What is read together -/

/-- The tokens that are read together: an option with the token behind it, which is its value, and any
other token alone. -/
def phrases : List Text → List (List Text)
  | [] => []
  | [token] => [[token]]
  | token :: value :: tokens =>
    match option? token with
    | some _ => [token, value] :: phrases tokens
    | none => [token] :: phrases (value :: tokens)

/-- Phrases are the tokens in order. -/
theorem flatten_phrases (tokens : List Text) : (phrases tokens).flatten = tokens := by
  fun_induction phrases tokens with
  | case1 => rfl
  | case2 token => rfl
  | case3 token value tokens option hoption ih => simp [ih]
  | case4 token value tokens hoption ih => simp [ih]

/-- Each phrase is read on its own. -/
theorem ofTokens_eq_flatMap_phrases (tokens : List Text) :
    ofTokens tokens = (phrases tokens).flatMap ofTokens := by
  fun_induction phrases tokens with
  | case1 => rfl
  | case2 token => simp
  | case3 token value tokens option hoption ih =>
    rw [List.flatMap_cons, ← ih, ofTokens_option option hoption, ofTokens_option option hoption]
    rfl
  | case4 token value tokens hoption ih =>
    rw [List.flatMap_cons, ← ih, ofTokens_cons hoption]
    rfl

/-- The first token of a list is a phrase, unless it is an option and has a value. -/
theorem phrases_cons {token : Text} (h : option? token = none) (tokens : List Text) :
    phrases (token :: tokens) = [token] :: phrases tokens := by
  cases tokens with
  | nil => rfl
  | cons value tokens => simp only [phrases, h]

theorem phrases_option {token : Text} (h : (option? token).isSome) (value : Text)
    (tokens : List Text) : phrases (token :: value :: tokens) = [token, value] :: phrases tokens := by
  obtain ⟨option, hoption⟩ := Option.isSome_iff_exists.1 h
  simp only [phrases, hoption]

/-! ## Tokens in a row -/

/-- The tokens end in an option that waits for its value. -/
def endsInOption : List Text → Bool
  | [] => false
  | [token] => (option? token).isSome
  | token :: next :: tokens =>
    match option? token with
    | some _ => endsInOption tokens
    | none => endsInOption (next :: tokens)

/-- Tokens that no option waits behind are read apart from those that follow. -/
theorem phrases_append {tokens : List Text} (h : endsInOption tokens = false) (later : List Text) :
    phrases (tokens ++ later) = phrases tokens ++ phrases later := by
  fun_induction endsInOption tokens with
  | case1 => rfl
  | case2 token =>
    have hoption : option? token = none := by simpa using h
    exact phrases_cons hoption later
  | case3 token value tokens option hoption ih =>
    have hsome : (option? token).isSome := by simp [hoption]
    rw [List.cons_append, List.cons_append, phrases_option hsome, phrases_option hsome, ih h,
      List.cons_append]
  | case4 token value tokens hoption ih =>
    rw [List.cons_append, phrases_cons hoption, phrases_cons hoption, ih h, List.cons_append]

theorem ofTokens_append {tokens : List Text} (h : endsInOption tokens = false)
    (later : List Text) : ofTokens (tokens ++ later) = ofTokens tokens ++ ofTokens later := by
  rw [ofTokens_eq_flatMap_phrases (tokens ++ later), phrases_append h, List.flatMap_append,
    ← ofTokens_eq_flatMap_phrases, ← ofTokens_eq_flatMap_phrases]

theorem endsInOption_append {tokens later : List Text} (h : endsInOption tokens = false)
    (hlater : endsInOption later = false) : endsInOption (tokens ++ later) = false := by
  fun_induction endsInOption tokens with
  | case1 => exact hlater
  | case2 token =>
    have hoption : option? token = none := by simpa using h
    cases later with
    | nil => simpa [endsInOption] using h
    | cons next later => simpa [endsInOption, hoption] using hlater
  | case3 token next tokens option hoption ih => simpa [endsInOption, hoption] using ih h
  | case4 token next tokens hoption ih => simpa [endsInOption, hoption] using ih h

/-- An option that waits for its value takes it from the tokens that follow. -/
theorem not_phrases_prefix {tokens : List Text} (h : endsInOption tokens = true) (value : Text)
    (later : List Text) : ¬ phrases tokens <+: phrases (tokens ++ value :: later) := by
  fun_induction endsInOption tokens with
  | case1 => cases h
  | case2 token =>
    rw [List.singleton_append, phrases_option h]
    intro hprefix
    have hphrase := (List.cons_prefix_cons.1 hprefix).1
    simp at hphrase
  | case3 token next tokens option hoption ih =>
    have hsome : (option? token).isSome := by simp [hoption]
    rw [List.cons_append, List.cons_append, phrases_option hsome, phrases_option hsome]
    exact fun hprefix => ih h (List.cons_prefix_cons.1 hprefix).2
  | case4 token next tokens hoption ih =>
    rw [List.cons_append, phrases_cons hoption, phrases_cons hoption]
    exact fun hprefix => ih h (List.cons_prefix_cons.1 hprefix).2

/-- What follows the phrases of the first tokens is the phrases of the tokens behind them, unless a
waiting option takes one of these. -/
theorem phrases_append_iff {tokens later : List Text} {behind : List (List Text)} :
    phrases (tokens ++ later) = phrases tokens ++ behind ↔
      (endsInOption tokens = true → later = []) ∧ phrases later = behind := by
  cases hend : endsInOption tokens with
  | false =>
    rw [phrases_append hend, List.append_right_inj]
    simp
  | true =>
    cases later with
    | nil => simp [phrases, eq_comm]
    | cons value later =>
      have hnot := not_phrases_prefix hend value later
      constructor
      · intro h
        exact absurd (by rw [h]; exact List.prefix_append _ _) hnot
      · rintro ⟨hnil, -⟩
        cases hnil rfl

/-- **Phrases of parts.** The phrases of some tokens in parts are the phrases of the parts exactly if no
part that ends in a waiting option has tokens behind it. -/
theorem phrases_flatten_iff {parts : List (List Text)} :
    phrases parts.flatten = parts.flatMap phrases ↔
      parts.Pairwise fun part later => endsInOption part = true → later = [] := by
  induction parts with
  | nil => simp [phrases]
  | cons part parts ih =>
    rw [List.flatten_cons, List.flatMap_cons, phrases_append_iff, ih, List.pairwise_cons,
      List.flatten_eq_nil_iff]
    exact and_congr_left' ⟨fun h later hlater hend => h hend later hlater,
      fun h hend later hlater => h later hlater hend⟩

end Setting

/-! ## Flags in a row -/

namespace Flags

/-- Settings are merged over the flags they start from. -/
theorem foldl_merge (settings : List Setting) (f : Flags) :
    settings.foldl (fun flags s => flags.merge s.flags) f = f.merge (ofSettings settings) := by
  induction settings generalizing f with
  | nil => exact (merge_default f).symm
  | cons s settings ih =>
    have hsettings : ofSettings (s :: settings) = s.flags.merge (ofSettings settings) := by
      rw [ofSettings, List.foldl_cons, ih, default_merge]
    rw [List.foldl_cons, ih, hsettings, merge_assoc]

theorem ofSettings_append (settings later : List Setting) :
    ofSettings (settings ++ later) = (ofSettings settings).merge (ofSettings later) := by
  rw [ofSettings, List.foldl_append]
  exact foldl_merge later _

theorem ofTokens_append {tokens : List Text} (h : Setting.endsInOption tokens = false)
    (later : List Text) : ofTokens (tokens ++ later) = (ofTokens tokens).merge (ofTokens later) := by
  rw [ofTokens, Setting.ofTokens_append h, ofSettings_append]
  rfl

theorem foldl_merge_ofSettings (parts : List (List Setting)) (f : Flags) :
    parts.foldl (fun flags part => flags.merge (ofSettings part)) f =
      f.merge (ofSettings parts.flatten) := by
  induction parts generalizing f with
  | nil => exact (merge_default f).symm
  | cons part parts ih =>
    rw [List.foldl_cons, ih, List.flatten_cons, ofSettings_append, merge_assoc]

end Flags

end MarkdownPreview

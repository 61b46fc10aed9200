import MarkdownPreview.Proofs.MergedFlags
/-!
# Two readers of the command line

A command line is read twice: by its grammar, which refuses what it does not know, and by the scan
for flags, which skips it. The scan takes any token behind an option for its value and does not know
that `--output` has one. The two agree all the same, because the grammar refuses a value with a dash
in front: what it takes for a value or for the file is no flag to the scan (`isFlag_of_isValue`), and
every other token sets the same flags in both (`readToken_eq_ok`).

Main result `flags_eq_of_parse`: on an accepted line the scan finds the flags the grammar finds,
unless a `--` ends the options, switches share a token, or the program is called like a flag.
-/

namespace MarkdownPreview

/-! ## Tokens the scan knows -/

namespace Setting

/-- The scan takes the token for a flag, with a value of its own or without. -/
def isFlag (token : Text) : Bool :=
  (switch? token).isSome || (option? token).isSome || (assignment? token).isSome

/-- A flag starts with a dash. -/
theorem isFlag_cons_of_ne {c : Char} (h : c ≠ '-') (rest : Text) : isFlag (c :: rest) = false := by
  have hdash : ¬ '-' = c := fun e => h e.symm
  simp [isFlag, switch?, option?, assignment?, h, Text.isPrefixOf?_cons_cons, hdash]

theorem endsInOption_singleton {token : Text} (h : isFlag token = false) :
    endsInOption [token] = false := by
  simp only [isFlag, Bool.or_eq_false_iff] at h
  exact h.1.2

end Setting

theorem Flags.ofTokens_singleton {token : Text} (h : Setting.isFlag token = false) :
    ofTokens [token] = {} := by
  simp only [Setting.isFlag, Bool.or_eq_false_iff, Option.isSome_eq_false_iff,
    Option.isNone_iff_eq_none] at h
  simp [ofTokens, Setting.ofTokens, h.1.1, h.2, ofSettings]

namespace CommandLine

/-! ## What the grammar sets -/

/-- The flags a command line gives. -/
def Invocation.flags (i : Invocation) : Flags where
  watch := i.watch
  standalone := i.standalone
  perf := i.perf
  title := i.title
  debugLog := i.debugLog

/-- The flags that an option with a value sets. -/
def Valued.flags : Valued → Text → Flags
  | .output, _ => {}
  | .title, v => { title := some v }
  | .debugLog, v => { debugLog := some v }

/-- The flags that a switch sets. -/
def Switch.flags : Switch → Flags
  | .watch => { watch := true }
  | .standalone => { standalone := true }
  | .perf => { perf := true }
  | .save | .clear => {}

namespace Invocation

variable {i j : Invocation}

theorem flags_of_give {o : Valued} {v : Text} (h : i.give o v = .ok j) :
    j.flags = i.flags.merge (o.flags v) := by
  unfold give at h
  split at h
  · simp at h
  · split at h
    · simp at h
    · obtain rfl := Except.ok.inj h
      cases o <;> simp [setValue, flags, Valued.flags, Flags.merge]

theorem flags_of_switchOn {s : Switch} (h : i.switchOn s = .ok j) :
    j.flags = i.flags.merge s.flags := by
  unfold switchOn at h
  split at h
  · simp at h
  · obtain rfl := Except.ok.inj h
    cases s <;> simp [turnOn, flags, Switch.flags, Flags.merge]

theorem flags_of_operand {token : Text} (h : i.operand token = .ok j) : j.flags = i.flags := by
  unfold operand at h
  split at h
  · simp at h
  · split at h
    · simp at h
    · obtain rfl := Except.ok.inj h
      rfl

end Invocation

/-! ## What the scan makes of the same tokens -/

/-- The token is a switch's letter with another option's letter behind it. -/
def isBundle : Text → Bool
  | '-' :: s :: c :: _ =>
    match Flag.ofShort? s with
    | some (.switch _) => (Flag.ofShort? c).isSome
    | _ => false
  | _ => false

/-- The token names an option whose value is in the next token. -/
def Valued.IsNamedBy (o : Valued) (token : Text) : Prop :=
  token = o.long ∨ o = .output ∧ token = "-o".toList

/-- What the grammar takes for a value is no flag to the scan. -/
theorem isFlag_of_isValue {token : Text} (h : isValue token = true) :
    Setting.isFlag token = false := by
  match token with
  | [] => rfl
  | c :: rest =>
    by_cases hc : c = '-'
    · subst hc
      have hrest : rest = [] := by simpa [isValue] using h
      subst hrest
      rfl
    · exact Setting.isFlag_cons_of_ne hc rest

theorem ofTokens_named {o : Valued} {name v : Text} (h : o.IsNamedBy name)
    (hv : isValue v = true) :
    Setting.endsInOption [name, v] = false ∧ Flags.ofTokens [name, v] = o.flags v := by
  have hend := Setting.endsInOption_singleton (isFlag_of_isValue hv)
  have hnone := Flags.ofTokens_singleton (isFlag_of_isValue hv)
  have hskip : ∀ {name : Text}, Setting.isFlag name = false →
      Setting.endsInOption [name, v] = false ∧ Flags.ofTokens [name, v] = {} := by
    intro name hname
    have hname' := Setting.endsInOption_singleton hname
    refine ⟨Setting.endsInOption_append hname' hend, ?_⟩
    change Flags.ofTokens ([name] ++ [v]) = {}
    rw [Flags.ofTokens_append hname', Flags.ofTokens_singleton hname, hnone]
    rfl
  rcases h with rfl | ⟨rfl, rfl⟩
  · cases o with
    | output => exact hskip rfl
    | title => exact ⟨rfl, rfl⟩
    | debugLog => exact ⟨rfl, rfl⟩
  · exact hskip rfl

/-- The long name of an option. -/
def Flag.long : Flag → Text
  | .valued o => o.long
  | .switch s => s.long
  | .help => "--help".toList
  | .version => "--version".toList

theorem Flag.long_of_ofLong? {name : Text} {f : Flag} (h : ofLong? name = some f) :
    '-' :: '-' :: name = f.long := by
  obtain ⟨l₁, l₂, htable, -⟩ := List.lookup_eq_some_iff.1 h
  have hmem : (name, f) ∈ l₁ ++ (name, f) :: l₂ := by simp
  rw [← htable] at hmem
  simp only [List.mem_cons, Prod.mk.injEq, List.not_mem_nil, or_false] at hmem
  rcases hmem with h | h | h | h | h | h | h | h | h | h <;> (obtain ⟨rfl, rfl⟩ := h; rfl)

theorem letter_of_switch {c : Char} {s : Switch} (h : Flag.ofShort? c = some (.switch s)) :
    c = 'w' ∧ s = .watch ∨ c = 's' ∧ s = .standalone := by
  unfold Flag.ofShort? at h
  split at h <;> simp_all

theorem letter_of_valued {c : Char} {o : Valued} (h : Flag.ofShort? c = some (.valued o)) :
    c = 'o' ∧ o = .output := by
  unfold Flag.ofShort? at h
  split at h <;> simp_all

/-- What reading a token has come to: the token is a phrase of its own and sets the same flags for
the scan, or it names an option that waits for its value. -/
def Reads (i : Invocation) (token : Text) (r : Reading) : Prop :=
  (r.waiting = none ∧ Setting.endsInOption [token] = false ∧
    r.invocation.flags = i.flags.merge (Flags.ofTokens [token])) ∨
  ∃ o, r = { invocation := i, waiting := some o } ∧ o.IsNamedBy token

variable {i : Invocation} {r : Reading} {token : Text}

theorem reads_switch {j : Invocation} {s : Switch} (h : i.switchOn s = .ok j)
    (hend : Setting.endsInOption [token] = false) (hflags : Flags.ofTokens [token] = s.flags) :
    Reads i token { invocation := j } :=
  .inl ⟨rfl, hend, by rw [hflags]; exact Invocation.flags_of_switchOn h⟩

theorem reads_value {j : Invocation} {o : Valued} {v : Text} (h : i.give o v = .ok j)
    (hend : Setting.endsInOption [token] = false) (hflags : Flags.ofTokens [token] = o.flags v) :
    Reads i token { invocation := j } :=
  .inl ⟨rfl, hend, by rw [hflags]; exact Invocation.flags_of_give h⟩

/-- A long option is its name, or its name with a value behind the first `=`. -/
theorem long_shape (long : Text) :
    let value := ['='].isPrefixOf? (long.dropWhile (· != '='))
    (value = none → long = long.takeWhile (· != '=')) ∧
      ∀ v, value = some v → long = long.takeWhile (· != '=') ++ '=' :: v := by
  have hcut := (List.takeWhile_append_dropWhile (p := (· != '=')) (l := long)).symm
  cases hrest : long.dropWhile (· != '=') with
  | nil => simpa [hrest] using hcut
  | cons c rest =>
    have hc : c = '=' := by
      simpa [hrest] using List.head_dropWhile_not (· != '=') (l := long) (by simp [hrest])
    rw [hrest] at hcut
    subst hc
    simpa [Text.isPrefixOf?_cons_cons] using hcut

theorem reads_long {long : Text} (h : readLong i (long.takeWhile (· != '='))
    (['='].isPrefixOf? (long.dropWhile (· != '='))) = .ok r) : Reads i ('-' :: '-' :: long) r := by
  obtain ⟨hname, hassign⟩ := long_shape long
  unfold readLong at h
  split at h
  · simp at h
  · -- an option and its value in the next token
    next o hflag hvalue =>
    obtain rfl := Except.ok.inj h
    refine .inr ⟨o, rfl, .inl ?_⟩
    rw [hname hvalue]
    exact Flag.long_of_ofLong? hflag
  · -- an option and its value in one token
    next o v hflag hvalue =>
    obtain ⟨j, hj, h⟩ := exists_of_bind_eq_ok h
    obtain rfl := Except.ok.inj h
    have htoken : '-' :: '-' :: long = o.long ++ '=' :: v := by
      rw [hassign v hvalue, ← List.cons_append, ← List.cons_append, Flag.long_of_ofLong? hflag]
      rfl
    rw [htoken]
    cases o <;> exact reads_value hj rfl rfl
  · -- a switch
    next s hflag hvalue =>
    obtain ⟨j, hj, h⟩ := exists_of_bind_eq_ok h
    obtain rfl := Except.ok.inj h
    rw [hname hvalue, Flag.long_of_ofLong? hflag]
    cases s <;> exact reads_switch hj rfl rfl
  all_goals simp at h

theorem reads_short {c : Char} {short : Text} (h : readShort i (c :: short) = .ok r)
    (hbundle : isBundle ('-' :: c :: short) = false) : Reads i ('-' :: c :: short) r := by
  rw [readShort] at h
  split at h
  · simp at h
  · simp at h
  · simp at h
  · -- a switch, alone in its token or it would be a bundle
    next s hflag =>
    obtain ⟨j, hj, h⟩ := exists_of_bind_eq_ok h
    cases short with
    | nil =>
      obtain rfl := Except.ok.inj h
      rcases letter_of_switch hflag with ⟨rfl, rfl⟩ | ⟨rfl, rfl⟩ <;> exact reads_switch hj rfl rfl
    | cons d rest =>
      have hd : Flag.ofShort? d = none := by simpa [isBundle, hflag] using hbundle
      rw [readShort, hd] at h
      simp at h
  · -- the one short option with a value
    next o hflag =>
    obtain ⟨rfl, rfl⟩ := letter_of_valued hflag
    split at h
    · next hrest =>
      obtain rfl := Except.ok.inj h
      exact .inr ⟨.output, rfl, .inr ⟨rfl, by rw [hrest]; rfl⟩⟩
    · obtain ⟨j, hj, h⟩ := exists_of_bind_eq_ok h
      obtain rfl := Except.ok.inj h
      exact reads_value hj rfl rfl

theorem readToken_eq_ok (h : readToken i token = .ok r) (hbundle : isBundle token = false) :
    Reads i token r := by
  unfold readToken at h
  split at h
  · next long => exact reads_long h
  · next c short _ => exact reads_short h hbundle
  · next hshort =>
    obtain ⟨j, hj, h⟩ := exists_of_bind_eq_ok h
    obtain rfl := Except.ok.inj h
    have hvalue : isValue token = true := by
      match token with
      | [] => rfl
      | [c] => by_cases hc : c = '-' <;> simp [isValue, hc]
      | c :: d :: rest =>
        have hc : c ≠ '-' := fun hc => hshort d rest (by rw [hc])
        simp [isValue, hc]
    refine .inl ⟨rfl, Setting.endsInOption_singleton (isFlag_of_isValue hvalue), ?_⟩
    rw [Flags.ofTokens_singleton (isFlag_of_isValue hvalue), Flags.merge_default]
    exact Invocation.flags_of_operand hj

/-! ## The two readers -/

/-- The tokens that a reading has behind it and the scan before it: the name of the option that
waits for its value. -/
def Reading.Behind (r : Reading) (tokens : List Text) : Prop :=
  match r.waiting with
  | none => tokens = []
  | some o => ∃ name, o.IsNamedBy name ∧ tokens = [name]

theorem Reading.behind_nil (h : r.waiting = none) : r.Behind [] := by simp [Behind, h]

/-- The flags of a line that is accepted are those read so far and those the scan finds in the rest,
by induction on the tokens that are left. -/
theorem flags_of_readTokens {tokens behind : List Text} (hbehind : r.Behind behind)
    (hdashes : ['-', '-'] ∉ tokens) (hbundle : ∀ t ∈ tokens, isBundle t = false)
    (h : readTokens r tokens = .ok i) :
    i.flags = r.invocation.flags.merge (Flags.ofTokens (behind ++ tokens)) := by
  induction tokens generalizing r behind with
  | nil =>
    rw [readTokens] at h
    unfold Reading.Behind at hbehind
    cases hw : r.waiting with
    | some o => simp [hw] at h
    | none =>
      simp only [hw] at h hbehind
      obtain rfl := Except.ok.inj h
      rw [hbehind]
      exact (Flags.merge_default _).symm
  | cons token tokens ih =>
    obtain ⟨hdash, hdashes⟩ := List.ne_and_not_mem_of_not_mem_cons hdashes
    have hbundle' := fun t ht => hbundle t (List.mem_cons_of_mem token ht)
    rw [readTokens] at h
    unfold Reading.Behind at hbehind
    cases hw : r.waiting with
    | some o =>
      simp only [hw] at h hbehind
      obtain ⟨name, hname, rfl⟩ := hbehind
      split at h
      · next hvalue =>
        obtain ⟨j, hj, h⟩ := exists_of_bind_eq_ok h
        obtain ⟨hend, hflags⟩ := ofTokens_named hname hvalue
        have hrest := ih (Reading.behind_nil rfl) hdashes hbundle' h
        rw [hrest, Invocation.flags_of_give hj, Flags.merge_assoc, ← hflags,
          ← Flags.ofTokens_append hend]
        rfl
      · simp at h
    | none =>
      simp only [hw, if_neg (Ne.symm hdash)] at h hbehind
      obtain ⟨r', hr', h⟩ := exists_of_bind_eq_ok h
      rw [hbehind]
      rcases readToken_eq_ok hr' (hbundle token List.mem_cons_self) with
        ⟨hw', hend, hflags⟩ | ⟨o, rfl, hname⟩
      · have hrest := ih (Reading.behind_nil hw') hdashes hbundle' h
        rw [hrest, hflags, Flags.merge_assoc, ← Flags.ofTokens_append hend]
        rfl
      · have hnamed : Reading.Behind { invocation := r.invocation, waiting := some o } [token] :=
          ⟨token, hname, rfl⟩
        exact ih hnamed hdashes hbundle' h

/-- **The two readers of a command line agree.** If the grammar accepts a line without `--` and
without a token of several short options, and the program is not called like a flag, then the scan
over all tokens of the line finds the flags that the grammar finds. -/
theorem flags_eq_of_parse {env : Environment} {arguments : List Text}
    (hparse : parse arguments = .ok i) (hdashes : ['-', '-'] ∉ arguments)
    (hbundle : ∀ t ∈ arguments, isBundle t = false) (hprogram : Setting.isFlag env.program = false) :
    env.flags arguments = i.flags := by
  have hline := flags_of_readTokens (Reading.behind_nil rfl) hdashes hbundle hparse
  have hscan := Flags.ofTokens_append (Setting.endsInOption_singleton hprogram) arguments
  rw [Flags.ofTokens_singleton hprogram] at hscan
  rw [hline]
  exact hscan

/-- Switches that share a token are accepted, but the scan finds neither. -/
example : parse ["-ws".toList] = .ok { watch := true, standalone := true } ∧
    Environment.flags {} ["-ws".toList] = {} := by decide

/-- Values that look like flags: one of them is attached, the others have no dash in front. -/
theorem flags_eq_of_lookalikes :
    let env : Environment := { program := "w".toList }
    let arguments := ["-s", "-o", "-", "--title=--perf", "--render-debug-log", "=-w", "watch"].map
      String.toList
    let i : Invocation :=
      { standalone := true, output := some "-".toList, title := some "--perf".toList,
        debugLog := some "=-w".toList, file := some "watch".toList }
    parse arguments = .ok i ∧ ['-', '-'] ∉ arguments ∧ (∀ t ∈ arguments, isBundle t = false) ∧
      Setting.isFlag env.program = false ∧ env.flags arguments = i.flags := by
  intro env arguments i
  have hparse : parse arguments = .ok i := rfl
  have hdashes : ['-', '-'] ∉ arguments := by decide
  have hbundle : ∀ t ∈ arguments, isBundle t = false := by decide
  exact ⟨hparse, hdashes, hbundle, rfl, flags_eq_of_parse hparse hdashes hbundle rfl⟩

end CommandLine

end MarkdownPreview

import MarkdownPreview.Defaults
import MarkdownPreview.Proofs.ConfigFile
/-!
# Saved flags

What is written to a file is read back from it: a file is written where no directory is, so writing
it changes no directory that the path goes through, and the path leads to the same place afterwards
(`entry_write`). So flags that are saved without a failure are loaded without one, and they are
the flags that were saved exactly if the config file can hold them (`load_save`).
-/

namespace MarkdownPreview

/-! ## Steps that go through -/

theorem exists_of_bind_eq_ok {ε α β : Type} {x : Except ε α} {f : α → Except ε β} {b : β}
    (h : x >>= f = .ok b) : ∃ a, x = .ok a ∧ f a = .ok b := by
  cases x with
  | error e => simp [bind, Except.bind] at h
  | ok a => exact ⟨a, rfl, h⟩

namespace Action

theorem runIn_bind {α β : Type} (a : Action α) (f : α → Action β) (s : Session) :
    (a >>= f).runIn s = (ExceptT.bindCont f (a.runIn s).1).run (a.runIn s).2 := rfl

/-- An action that goes through goes through step by step. -/
theorem runIn_bind_eq_ok {α β : Type} {a : Action α} {f : α → Action β} {s s'' : Session} {b : β}
    (h : (a >>= f).runIn s = (.ok b, s'')) :
    ∃ x s', a.runIn s = (.ok x, s') ∧ (f x).runIn s' = (.ok b, s'') := by
  rcases ha : a.runIn s with ⟨result, s'⟩
  rw [runIn_bind, ha] at h
  cases result with
  | ok x => exact ⟨x, s', rfl, h⟩
  | error e =>
    have hresult : (Except.error e, s') = (Except.ok b, s'') := h
    cases (Prod.mk.inj hresult).1

theorem runIn_ofStore {α : Type} (failure : Fault → Failure) (op : Store → Except Fault α)
    (s : Session) : (ofStore failure op).runIn s = ((op s.store).mapError failure, s) := by
  have hget : (get : Action Session).runIn s = (.ok s, s) := rfl
  unfold ofStore
  rw [runIn_bind, hget]
  dsimp only [ExceptT.bindCont]
  cases op s.store <;> rfl

theorem runIn_changeStore_eq_ok {failure : Fault → Failure} {op : Store → Except Fault Store}
    {s s' : Session} (h : (changeStore failure op).runIn s = (.ok (), s')) :
    op s.store = .ok s'.store := by
  obtain ⟨store, s1, hop, hset⟩ := runIn_bind_eq_ok h
  rw [runIn_ofStore] at hop
  cases hstore : op s.store with
  | error f => simp [hstore, Except.mapError] at hop
  | ok store' =>
    rw [hstore] at hop
    simp only [Except.mapError, Prod.mk.injEq, Except.ok.injEq] at hop
    have hlast : s' = { s1 with store } := (congrArg Prod.snd hset).symm
    rw [hlast, hop.1]

end Action

/-! ## Writing a file and reading it -/

namespace Store

variable {s : Store} {l : Location} {e : Entry}

theorem checkDirectory_eq_ok {k : Location} (h : s.checkDirectory k = .ok ()) :
    s.find? k = some .directory := by
  unfold checkDirectory at h
  split at h
  · simp at h
  · simp at h
  · next hk => exact hk

theorem checkDirectory_of_find? {k : Location} (h : s.find? k = some .directory) :
    s.checkDirectory k = .ok () := by
  simp [checkDirectory, h]

theorem walk_cons_eq_ok {k k' : Location} {name : Text} {names : List Text}
    (h : s.walk k (name :: names) = .ok k') :
    s.checkDirectory k = .ok () ∧ ∃ next, enter k name = .ok next ∧ s.walk next names = .ok k' := by
  rw [walk] at h
  obtain ⟨⟨⟩, hd, h⟩ := exists_of_bind_eq_ok h
  obtain ⟨next, hn, h⟩ := exists_of_bind_eq_ok h
  exact ⟨hd, next, hn, h⟩

theorem walk_cons {k k' next : Location} {name : Text} {names : List Text}
    (hd : s.checkDirectory k = .ok ()) (hn : enter k name = .ok next)
    (h : s.walk next names = .ok k') : s.walk k (name :: names) = .ok k' := by
  rw [walk, hd, hn]
  exact h

/-- A walk goes the same way in every store that has the directories of the first one. -/
theorem walk_mono {t : Store} {k k' : Location} {names : List Text}
    (hdirs : ∀ k, s.find? k = some .directory → t.find? k = some .directory)
    (h : s.walk k names = .ok k') : t.walk k names = .ok k' := by
  induction names generalizing k with
  | nil => exact h
  | cons name names ih =>
    obtain ⟨hd, next, hn, hrest⟩ := walk_cons_eq_ok h
    exact walk_cons (checkDirectory_of_find? (hdirs k (checkDirectory_eq_ok hd))) hn (ih hrest)

/-- What is put where no directory is changes no directory. -/
theorem find?_put_of_directory {k : Location} (hl : l ≠ []) (hdir : s.find? l ≠ some .directory)
    (hk : s.find? k = some .directory) : (s.put l e).find? k = some .directory := by
  have hne : k ≠ l := by
    rintro rfl
    exact hdir hk
  rw [find?_put hl, if_neg hne, hk]

theorem walk_concat {k k' target : Location} {name : Text} {names : List Text}
    (h : s.walk k names = .ok k') (hd : s.checkDirectory k' = .ok ())
    (hn : enter k' name = .ok target) : s.walk k (names ++ [name]) = .ok target := by
  induction names generalizing k with
  | nil =>
    rw [walk, Except.ok.injEq] at h
    subst h
    exact walk_cons hd hn rfl
  | cons a names ih =>
    obtain ⟨hd', next, hn', hrest⟩ := walk_cons_eq_ok h
    exact walk_cons hd' hn' (ih hrest)

theorem parentAndName_eq_ok {path : Text} {k : Location} {name? : Option Text}
    (h : s.parentAndName path = .ok (k, name?)) :
    checkPath path = .ok () ∧ s.walk (s.origin path) (names path).dropLast = .ok k ∧
      s.checkDirectory k = .ok () ∧ name? = (names path).getLast? := by
  obtain ⟨⟨⟩, hpath, h⟩ := exists_of_bind_eq_ok h
  obtain ⟨k', hwalk, h⟩ := exists_of_bind_eq_ok h
  obtain ⟨⟨⟩, hd, h⟩ := exists_of_bind_eq_ok h
  simp only [Except.ok.injEq, Prod.mk.injEq] at h
  obtain ⟨rfl, rfl⟩ := h
  exact ⟨hpath, hwalk, hd, rfl⟩

/-- Where a file can be written: in a directory that the path walks to, under its last name. -/
theorem fileLocation_eq_ok {path : Text} {target : Location} (h : s.fileLocation path = .ok target) :
    ∃ k name, checkPath path = .ok () ∧ s.walk (s.origin path) (names path).dropLast = .ok k ∧
      s.checkDirectory k = .ok () ∧ (names path).getLast? = some name ∧
      endsWithSlash path = false ∧ enter k name = .ok target ∧ target ≠ [] ∧
      s.find? target ≠ some .directory := by
  obtain ⟨⟨k, name?⟩, hparent, h⟩ := exists_of_bind_eq_ok h
  obtain ⟨hpath, hwalk, hd, rfl⟩ := parentAndName_eq_ok hparent
  cases hname : (names path).getLast? with
  | none => simp [hname] at h
  | some name =>
    simp only [hname] at h
    split at h
    · simp at h
    · next hown =>
      simp only [Bool.or_eq_true, Bool.not_eq_true', not_or, Bool.not_eq_true,
        Bool.not_eq_false] at hown
      obtain ⟨target', henter, h⟩ := exists_of_bind_eq_ok h
      split at h
      · simp at h
      · next hdir =>
        obtain rfl := Except.ok.inj h
        refine ⟨k, name, hpath, hwalk, hd, rfl, hown.1, henter, ?_, hdir⟩
        rintro rfl
        exact hdir rfl

theorem names_eq_concat {path name : Text} (h : (names path).getLast? = some name) :
    names path = (names path).dropLast ++ [name] := by
  obtain ⟨ns, hns⟩ := List.getLast?_eq_some_iff.1 h
  rw [hns, List.dropLast_concat]

/-- What is put at the end of a path's walk, where no directory was, is found under the path. -/
theorem entry_put {path name : Text} {k target : Location} (hpath : checkPath path = .ok ())
    (hwalk : s.walk (s.origin path) (names path).dropLast = .ok k)
    (hd : s.checkDirectory k = .ok ()) (hname : (names path).getLast? = some name)
    (henter : enter k name = .ok target) (hroot : target ≠ [])
    (hdir : s.find? target ≠ some .directory)
    (hslash : endsWithSlash path = false ∨ e = .directory) : (s.put target e).entry path = .ok e := by
  have hthere : (s.put target e).walk (s.origin path) (names path) = .ok target := by
    have hdirs := fun k => find?_put_of_directory (e := e) (k := k) hroot hdir
    rw [names_eq_concat hname]
    exact walk_concat (walk_mono hdirs hwalk)
      (checkDirectory_of_find? (hdirs k (checkDirectory_eq_ok hd))) henter
  have hfound : (s.put target e).find? target = some e := by
    rw [find?_put hroot, if_pos rfl]
  have horigin : (s.put target e).origin path = s.origin path := rfl
  have hlocate : (s.put target e).locate path = .ok target := by
    rcases hslash with hslash | rfl
    · cases e <;> simp [locate, hpath, horigin, hthere, hfound, hslash, bind, Except.bind]
    · simp [locate, hpath, horigin, hthere, hfound, bind, Except.bind]
  simp [entry, hlocate, hfound, bind, Except.bind]

/-- A file that is written is found under its path. -/
theorem entry_write {path : Text} {c : Content} {s' : Store} (h : s.write path c = .ok s') :
    s'.entry path = .ok (.file c) := by
  obtain ⟨target, hlocation, h⟩ := exists_of_bind_eq_ok h
  obtain ⟨k, name, hpath, hwalk, hd, hname, hslash, henter, hroot, hdir⟩ :=
    fileLocation_eq_ok hlocation
  obtain rfl := Except.ok.inj h
  exact entry_put hpath hwalk hd hname henter hroot hdir (.inl hslash)

theorem createDirectories_nil (s : Store) : s.createDirectories [] = (.ok (), s) := by
  rw [createDirectories, if_pos rfl]

end Store

/-! ## Saving and loading -/

namespace Defaults

variable {path : Text} {f : Flags} {s s' : Session}

/-- What is saved is written to the file, when the directories above it are there. -/
theorem exists_write_of_save (h : (save path f).runIn s = (.ok (), s')) :
    ∃ store : Store, store.write path (.text f.encode) = .ok s'.store := by
  obtain ⟨⟨⟩, made, -, hwrite⟩ := Action.runIn_bind_eq_ok h
  exact ⟨made.store, Action.runIn_changeStore_eq_ok hwrite⟩

theorem runIn_load {content : Text} (h : s.store.entry path = .ok (.file (.text content))) :
    (load path).runIn s = (.ok (Flags.decode content), s) := by
  have hread : (Action.ofStore (.readConfig path) (·.readText path)).runIn s = (.ok content, s) := by
    rw [Action.runIn_ofStore]
    simp [Store.readText, Store.contentOf, h, bind, Except.bind, Except.mapError]
  have hrun : (load path).runIn s = (if s.store.pathExists path then do
      return Flags.decode (← .ofStore (.readConfig path) (·.readText path))
    else return {} : Action Flags).runIn s := rfl
  rw [hrun, if_pos (by rw [Store.pathExists, h]; rfl), Action.runIn_bind, hread]
  rfl

/-- **Flags that are saved are loaded again**, and they are the flags that were saved exactly if
their values are lines without blanks at their ends, the path of the log not being empty. Whether
the path of the log is the same text or only takes the same steps makes no difference. -/
theorem load_save (h : (save path f).runIn s = (.ok (), s')) :
    ∃ g, (load path).runIn s' = (.ok g, s') ∧ (g = f ↔ f.Storable) ∧ (g.Same f ↔ f.Storable) := by
  obtain ⟨store, hwrite⟩ := exists_write_of_save h
  exact ⟨_, runIn_load (Store.entry_write hwrite), Flags.decode_encode_eq_iff,
    Flags.same_decode_encode_iff⟩

/-- A title with signs that mean something elsewhere in a config file, and a path with a blank. -/
def signs : Flags :=
  { watch := true, title := some "a = #b --perf".toList, debugLog := some "log/a b".toList }

/-- A session in a folder that holds some entries. -/
def folder (entries : List (Location × Entry)) : Session := { store := ⟨entries, []⟩ }

theorem load_save_signs :
    (save "c".toList signs).runIn (folder []) =
        (.ok (), folder [(["c".toList], .file (.text signs.encode))]) ∧
      signs.Storable ∧
      (load "c".toList).runIn (folder [(["c".toList], .file (.text signs.encode))]) =
        (.ok signs, folder [(["c".toList], .file (.text signs.encode))]) := by
  have hparents : (makeParents "c".toList).runIn (folder []) = (.ok (), folder []) := by
    have hparent : (Path.parent? "c".toList).getD [] = [] := by decide
    simp only [makeParents, hparent, Store.createDirectories_nil]
    rfl
  have hsave : (save "c".toList signs).runIn (folder []) =
      (.ok (), folder [(["c".toList], .file (.text signs.encode))]) := by
    rw [save, Action.runIn_bind, hparents]
    rfl
  obtain ⟨g, hload, hback, -⟩ := load_save hsave
  have hstorable : signs.Storable := by decide +kernel
  rw [hback.2 hstorable] at hload
  exact ⟨hsave, hstorable, hload⟩

end Defaults

end MarkdownPreview

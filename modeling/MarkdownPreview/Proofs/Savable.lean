import MarkdownPreview.Proofs.StoreChanges
/-!
# Where a file can be saved

A file can be saved at a path if the directories above it are there or can be made, and the path
then leads to a file or is free for one. This lasts: what is written off the path's way changes
nothing that matters (`Savable.of_sameOn`), and what happens to the file itself, as long as no
directory takes its place, leaves the way as it is (`Savable.of_same_except`). In particular a file
can be saved again after it was saved (`savable_of_write`) or removed (`Savable.exists_remove`).
-/

namespace MarkdownPreview.Store

variable {s t made : Store} {l k : Location} {path : Text} {W : Location → Prop}

/-! ## Directories that are there -/

theorem find?_of_mem_stops {ns : List Text} (hwalk : s.walk l ns = .ok k)
    (hk : s.find? k = some .directory) : ∀ j ∈ stops l ns, s.find? j = some .directory := by
  induction ns generalizing l with
  | nil =>
    obtain rfl := Except.ok.inj hwalk
    simpa [stops] using hk
  | cons name ns ih =>
    obtain ⟨hd, next, hn, hrest⟩ := walk_cons_eq_ok hwalk
    obtain rfl := eq_step_of_enter hn
    exact List.forall_mem_cons.2 ⟨checkDirectory_eq_ok hd, ih hrest⟩

theorem isDirectory_iff : s.isDirectory path = true ↔ s.entry path = .ok .directory := by
  unfold isDirectory
  split
  · next h => simp [h]
  · next h => simpa using h

/-- The way of a directory is directories. -/
theorem find?_of_mem_way (h : s.isDirectory path = true) (hk : k ∈ s.way path) :
    s.find? k = some .directory := by
  have hentry := isDirectory_iff.1 h
  have hplace := find?_place_of_entry hentry
  obtain ⟨l, hl, -⟩ := exists_of_bind_eq_ok hentry
  obtain ⟨⟨⟩, -, hl⟩ := exists_of_bind_eq_ok hl
  obtain ⟨j, hwalk, -⟩ := exists_of_bind_eq_ok hl
  obtain rfl := eq_foldl_of_walk hwalk
  exact find?_of_mem_stops hwalk hplace k hk

theorem isDirectory_of_ensureDirectory (h : s.ensureDirectory path = .ok t) :
    t.isDirectory path = true := by
  unfold ensureDirectory at h
  split at h
  · next t' ht' =>
    obtain rfl := Except.ok.inj h
    exact isDirectory_iff.2 (createDirectory_eq_ok ht').2.2.2
  · split at h
    · next hdir => exact Except.ok.inj h ▸ hdir
    · simp at h

theorem isDirectory_of_createDirectories (hne : path ≠ [])
    (h : s.createDirectories path = (.ok (), t)) : t.isDirectory path = true := by
  rw [createDirectories_eq hne] at h
  split at h
  · next hmade =>
    obtain rfl := (Prod.mk.inj h).2
    exact isDirectory_of_ensureDirectory hmade
  · split at h
    · simp at h
    · split at h
      · simp at h
      · split at h
        · next hmade =>
          obtain rfl := (Prod.mk.inj h).2
          exact isDirectory_of_ensureDirectory hmade
        · simp at h
  · simp at h

/-- Making a directory that is there changes nothing. -/
theorem createDirectories_of_isDirectory (hne : path ≠ []) (h : s.isDirectory path = true) :
    s.createDirectories path = (.ok (), s) := by
  have hensure : s.ensureDirectory path = .ok s := by
    unfold ensureDirectory
    split
    · next t ht =>
      have hfree := (createDirectory_eq_ok ht).2.2.1
      rw [find?_of_mem_way h (place_mem_way s path)] at hfree
      simp at hfree
    · rw [if_pos h]
  rw [createDirectories_eq hne, hensure]

/-! ## Files that can be saved -/

/-- The directories above a path are there or can be made, and the path then leads to a file or is
free for one. -/
def Savable (s : Store) (path : Text) : Prop :=
  ∃ made l, s.createDirectories ((Path.parent? path).getD []) = (.ok (), made) ∧
    made.fileLocation path = .ok l

theorem mem_way_of_above (hne : (Path.parent? path).getD [] ≠ [])
    (hk : k ∈ s.way ((Path.parent? path).getD [])) : k ∈ s.way path := by
  cases hparent : Path.parent? path with
  | none => simp [hparent] at hne
  | some parent =>
    rw [hparent] at hne hk
    exact mem_way_of_parent? hparent hne hk

/-- A path that leads to a file or is free for one stays so when directories are added, as long as
none takes its place. -/
theorem fileLocation_mono (hhere : t.here = s.here)
    (hdirs : ∀ k, s.find? k = some .directory → t.find? k = some .directory)
    (hl : t.find? l ≠ some .directory) (h : s.fileLocation path = .ok l) :
    t.fileLocation path = .ok l := by
  obtain ⟨⟨k, name?⟩, hparent, h⟩ := exists_of_bind_eq_ok h
  have hparent' : t.parentAndName path = .ok (k, name?) := by
    obtain ⟨hpath, hwalk, hd, rfl⟩ := parentAndName_eq_ok hparent
    have hd' := checkDirectory_of_find? (hdirs k (checkDirectory_eq_ok hd))
    rw [parentAndName, origin_of_here hhere, hpath, walk_mono hdirs hwalk]
    simp only [bind, Except.bind, hd']
  rw [fileLocation, hparent']
  cases name? with
  | none => simp at h
  | some name =>
    simp only [bind, Except.bind] at h ⊢
    split at h
    · simp at h
    · next hown =>
      rw [if_neg hown]
      cases henter : enter k name with
      | error f => simp [henter] at h
      | ok target =>
        simp only [henter] at h ⊢
        split at h
        · simp at h
        · obtain rfl := Except.ok.inj h
          rw [if_neg hl]

/-- There is no directory where a file can be saved. -/
theorem Savable.find?_ne (h : s.Savable path) : s.find? (s.place path) ≠ some .directory := by
  obtain ⟨made, l, hmade, hl⟩ := h
  have hgrown : Grown (fun _ => True) s (s.createDirectories ((Path.parent? path).getD [])).2 :=
    grown_createDirectories fun _ _ _ => trivial
  rw [hmade] at hgrown
  obtain rfl := eq_place_of_fileLocation hl
  have hplace := (place_ne_nil_of_fileLocation hl).2
  rw [place_of_here hgrown.here] at hplace
  rcases hgrown.find? (s.place path) with hsame | ⟨-, hnone, -⟩
  · rwa [← hsame]
  · simp [hnone]

/-- The directories above a file that can be saved are not at its place. -/
theorem Savable.place_not_mem (h : s.Savable path) (hne : (Path.parent? path).getD [] ≠ []) :
    s.place path ∉ s.way ((Path.parent? path).getD []) := by
  intro hmem
  obtain ⟨made, l, hmade, hl⟩ := h
  have hhere : made.here = s.here := congrArg (·.2.here) hmade ▸ here_createDirectories s _
  have hdir := isDirectory_of_createDirectories hne hmade
  obtain rfl := eq_place_of_fileLocation hl
  rw [← way_of_here hhere, ← place_of_here hhere] at hmem
  exact (place_ne_nil_of_fileLocation hl).2 (find?_of_mem_way hdir hmem)

/-- Changes off the way of a path do not matter to saving there. -/
theorem Savable.of_sameOn (h : s.Savable path) (hst : SameOn W s t) (hway : ∀ k ∈ s.way path, W k) :
    t.Savable path := by
  obtain ⟨made, l, hmade, hl⟩ := h
  have hhere := here_createDirectories s ((Path.parent? path).getD [])
  obtain ⟨hresult, hsame⟩ := hst.createDirectories fun hne k hk => hway k (mem_way_of_above hne hk)
  rw [hmade] at hhere hresult hsame
  have hway' : ∀ k ∈ made.way path, W k := by
    rwa [way_of_here hhere]
  exact ⟨(t.createDirectories _).2, l, Prod.ext hresult rfl, (hsame.fileLocation hway').trans hl⟩

/-- What happens to the file itself does not matter to saving it, unless a directory takes its
place. -/
theorem Savable.of_same_except (h : s.Savable path) (hst : SameOn (· ≠ s.place path) s t)
    (ht : t.find? (s.place path) ≠ some .directory) : t.Savable path := by
  have hoff := h.place_not_mem
  obtain ⟨made, l, hmade, hl⟩ := h
  have hhere := here_createDirectories s ((Path.parent? path).getD [])
  obtain ⟨hresult, hsame⟩ := hst.createDirectories fun hne k hk => by
    rintro rfl
    exact hoff hne hk
  rw [hmade] at hhere hresult hsame
  obtain rfl : l = s.place path := (eq_place_of_fileLocation hl).trans (place_of_here hhere path)
  have hgrown : Grown (· ≠ s.place path) t
      (t.createDirectories ((Path.parent? path).getD [])).2 := by
    refine grown_createDirectories fun hne k hk => ?_
    rintro rfl
    rw [way_of_here hst.here] at hk
    exact hoff hne hk
  refine ⟨(t.createDirectories _).2, s.place path, Prod.ext hresult rfl,
    fileLocation_mono hsame.here ?_ ?_ hl⟩
  · intro k hk
    have hne : k ≠ s.place path := by
      rintro rfl
      exact (place_ne_nil_of_fileLocation hl).2 hk
    exact (hsame.find? k hne).trans hk
  · rcases hgrown.find? (s.place path) with hfind | ⟨hne, -, -⟩
    · rwa [hfind]
    · exact absurd rfl hne

/-- A file that was saved can be saved again. -/
theorem savable_of_write {c : Content}
    (hmade : s.createDirectories ((Path.parent? path).getD []) = (.ok (), made))
    (h : made.write path c = .ok t) : t.Savable path := by
  obtain ⟨hl, rfl⟩ := write_eq_ok h
  obtain ⟨hroot, hdir⟩ := place_ne_nil_of_fileLocation hl
  have hagain : made.createDirectories ((Path.parent? path).getD []) = (.ok (), made) := by
    by_cases hne : (Path.parent? path).getD [] = []
    · rw [hne, createDirectories_nil]
    · exact createDirectories_of_isDirectory hne (isDirectory_of_createDirectories hne hmade)
  have hsave : made.Savable path := ⟨made, _, hagain, hl⟩
  refine hsave.of_same_except (SameOn.of_put hroot (not_not.2 rfl) _) ?_
  rw [find?_put hroot, if_pos rfl]
  simp

/-- A file that can be saved and is there can be removed, and can be saved again then. -/
theorem Savable.exists_remove (h : s.Savable path) (hexists : s.pathExists path = true) :
    ∃ t, s.remove path = .ok t ∧ t.pathExists path = false ∧ t.Savable path := by
  have hdir := h.find?_ne
  have hroot : s.place path ≠ [] := by
    intro hroot
    rw [hroot] at hdir
    exact hdir rfl
  obtain ⟨e, he⟩ : ∃ e, s.entry path = .ok e := by
    unfold pathExists at hexists
    cases hentry : s.entry path with
    | ok e => exact ⟨e, rfl⟩
    | error f => simp [hentry, Except.isOk, Except.toBool] at hexists
  obtain ⟨l, hl, -⟩ := exists_of_bind_eq_ok he
  obtain rfl := (eq_place_of_locate hl).1
  have hgone : (s.erase (s.place path)).find? (s.place path) = none := by
    rw [find?_erase hroot, if_pos rfl]
  refine ⟨s.erase (s.place path), ?_, ?_, ?_⟩
  · rw [remove, hl]
    simp only [bind, Except.bind, if_neg hdir]
  · cases hentry : (s.erase (s.place path)).entry path with
    | error f => simp [pathExists, hentry, Except.isOk, Except.toBool]
    | ok e' =>
      have hfind := find?_place_of_entry hentry
      rw [place_of_here (here_erase s _), hgone] at hfind
      simp at hfind
  · refine h.of_same_except (SameOn.of_erase hroot (not_not.2 rfl)) ?_
    rw [hgone]
    simp

end MarkdownPreview.Store

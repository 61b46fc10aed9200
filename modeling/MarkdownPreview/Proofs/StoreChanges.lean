import MarkdownPreview.Proofs.Place
/-!
# What operations on files change

A file that is written or removed is changed at the place of its path and nowhere else, and making
directories changes no file (`sameFiles_createDirectories`). In the other direction, an operation
looks at the way of its path only: two stores that agree on it (`SameOn`) give the operation the same
result and still agree afterwards (`SameOn.fileLocation`, `SameOn.createDirectories`).
-/

namespace MarkdownPreview.Store

variable {s t u : Store} {l k : Location} {path : Text} {W : Location → Prop}

/-! ## Changes -/

theorem write_eq_ok {c : Content} (h : s.write path c = .ok t) :
    s.fileLocation path = .ok (s.place path) ∧ t = s.put (s.place path) (.file c) := by
  obtain ⟨l, hl, h⟩ := exists_of_bind_eq_ok h
  obtain rfl := eq_place_of_fileLocation hl
  exact ⟨hl, (Except.ok.inj h).symm⟩

theorem place_ne_nil_of_fileLocation (h : s.fileLocation path = .ok l) :
    l ≠ [] ∧ s.find? l ≠ some .directory := by
  obtain ⟨k, name, -, -, -, -, -, -, hl, hdir⟩ := fileLocation_eq_ok h
  exact ⟨hl, hdir⟩

theorem remove_eq_ok (h : s.remove path = .ok t) :
    t = s.erase (s.place path) ∧ s.place path ≠ [] := by
  obtain ⟨l, hl, h⟩ := exists_of_bind_eq_ok h
  obtain ⟨rfl, -⟩ := eq_place_of_locate hl
  split at h
  · simp at h
  · next hdir =>
    refine ⟨(Except.ok.inj h).symm, ?_⟩
    intro hroot
    rw [hroot] at hdir
    exact hdir rfl

theorem createDirectory_eq_ok (h : s.createDirectory path = .ok t) :
    t = s.put (s.place path) .directory ∧ s.place path ≠ [] ∧ s.find? (s.place path) = none ∧
      t.entry path = .ok .directory := by
  obtain ⟨⟨k, name?⟩, hparent, h⟩ := exists_of_bind_eq_ok h
  obtain ⟨hpath, hwalk, hd, rfl⟩ := parentAndName_eq_ok hparent
  cases hname : (names path).getLast? with
  | none => simp [hname] at h
  | some name =>
    simp only [hname] at h
    split at h
    · next hown =>
      obtain ⟨target, henter, h⟩ := exists_of_bind_eq_ok h
      obtain rfl := eq_place_of_enter hwalk hname henter
      split at h
      · simp at h
      · next hfree =>
        have hfree' : s.find? (s.place path) = none := by simpa using hfree
        have hroot : s.place path ≠ [] := by
          intro hroot
          rw [hroot] at hfree'
          simp [find?] at hfree'
        obtain rfl := Except.ok.inj h
        refine ⟨rfl, hroot, hfree', ?_⟩
        exact entry_put hpath hwalk hd hname henter hroot (by simp [hfree']) (.inr rfl)
    · simp at h

/-- Two stores hold the same files at some locations, and relative paths start from the same one;
directories may have been made. -/
structure SameFiles (W : Location → Prop) (s t : Store) : Prop where
  here : t.here = s.here
  file? : ∀ l, W l → t.file? l = s.file? l

namespace SameFiles

theorem refl (s : Store) : SameFiles W s s := ⟨rfl, fun _ _ => rfl⟩

theorem trans (h : SameFiles W s t) (h' : SameFiles W t u) : SameFiles W s u :=
  ⟨h'.here.trans h.here, fun l hl => (h'.file? l hl).trans (h.file? l hl)⟩

theorem mono {V : Location → Prop} (h : SameFiles W s t) (hV : ∀ l, V l → W l) : SameFiles V s t :=
  ⟨h.here, fun l hl => h.file? l (hV l hl)⟩

end SameFiles

/-! ## Making directories -/

/-- A store with directories added where there was nothing, at some locations. -/
structure Grown (W : Location → Prop) (s t : Store) : Prop where
  here : t.here = s.here
  find? : ∀ k, t.find? k = s.find? k ∨ (W k ∧ s.find? k = none ∧ t.find? k = some .directory)

namespace Grown

theorem refl (s : Store) : Grown W s s := ⟨rfl, fun _ => .inl rfl⟩

theorem trans (h : Grown W s t) (h' : Grown W t u) : Grown W s u := by
  refine ⟨h'.here.trans h.here, fun k => ?_⟩
  rcases h'.find? k with hu | ⟨hk, ht, hu⟩
  · rw [hu]
    exact h.find? k
  · rcases h.find? k with hs | ⟨-, -, hs⟩
    · exact .inr ⟨hk, hs ▸ ht, hu⟩
    · rw [ht] at hs
      simp at hs

theorem sameFiles {V : Location → Prop} (h : Grown W s t) : SameFiles V s t := by
  refine ⟨h.here, fun k _ => ?_⟩
  unfold file?
  rcases h.find? k with hk | ⟨-, hs, ht⟩
  · rw [hk]
  · rw [hs, ht]

end Grown

theorem grown_createDirectory (hway : ∀ k ∈ s.way path, W k) (h : s.createDirectory path = .ok t) :
    Grown W s t := by
  obtain ⟨rfl, hroot, hfree, -⟩ := createDirectory_eq_ok h
  refine ⟨rfl, fun k => ?_⟩
  rw [find?_put hroot]
  split
  · next hk => exact .inr ⟨hk ▸ hway _ (place_mem_way s path), hk ▸ hfree, rfl⟩
  · exact .inl rfl

theorem grown_ensureDirectory (hway : ∀ k ∈ s.way path, W k) (h : s.ensureDirectory path = .ok t) :
    Grown W s t := by
  unfold ensureDirectory at h
  split at h
  · next t' ht' => exact Except.ok.inj h ▸ grown_createDirectory hway ht'
  · split at h
    · exact Except.ok.inj h ▸ Grown.refl s
    · simp at h

/-- Making directories adds some on the way of the path, and changes nothing else. -/
theorem grown_createDirectories (hway : path ≠ [] → ∀ k ∈ s.way path, W k) :
    Grown W s (s.createDirectories path).2 := by
  fun_induction createDirectories s path with
  | case1 => exact .refl s
  | case2 path hne t ht => exact grown_ensureDirectory (hway hne) ht
  | case3 path hne hmissing hparent => exact .refl s
  | case4 path hne hmissing parent hparent f t ht ih =>
    have hmade := ih fun hne' k hk => hway hne k (mem_way_of_parent? hparent hne' hk)
    rw [ht] at hmade
    exact hmade
  | case5 path hne hmissing parent hparent t ht u hu ih =>
    have hmade := ih fun hne' k hk => hway hne k (mem_way_of_parent? hparent hne' hk)
    rw [ht] at hmade
    have hway' : ∀ k ∈ t.way path, W k := by
      rw [way_of_here hmade.here]
      exact hway hne
    exact hmade.trans (grown_ensureDirectory hway' hu)
  | case6 path hne hmissing parent hparent t ht f hf ih =>
    have hmade := ih fun hne' k hk => hway hne k (mem_way_of_parent? hparent hne' hk)
    rw [ht] at hmade
    exact hmade
  | case7 path hne f hother hf => exact .refl s

theorem here_createDirectories (s : Store) (path : Text) :
    (s.createDirectories path).2.here = s.here :=
  (grown_createDirectories (W := fun _ => True) fun _ _ _ => trivial).here

/-- Making directories changes no file. -/
theorem sameFiles_createDirectories (s : Store) (path : Text) :
    SameFiles W s (s.createDirectories path).2 :=
  (grown_createDirectories (W := fun _ => True) fun _ _ _ => trivial).sameFiles

/-- What making directories comes to, given what it comes to for the parent. -/
theorem createDirectories_eq (hne : path ≠ []) : s.createDirectories path =
    match s.ensureDirectory path with
    | .ok s => (.ok (), s)
    | .error .notFound =>
      match Path.parent? path with
      | none => (.error .notFound, s)
      | some parent =>
        match s.createDirectories parent with
        | (.error f, s) => (.error f, s)
        | (.ok (), s) =>
          match s.ensureDirectory path with
          | .ok s => (.ok (), s)
          | .error f => (.error f, s)
    | .error f => (.error f, s) := by
  rw [createDirectories, if_neg hne]
  cases s.ensureDirectory path with
  | ok t => rfl
  | error f =>
    cases f
    case notFound =>
      dsimp only
      split
      · next hparent => rw [hparent]
      · next parent hparent =>
        rewrite [hparent]
        rfl
    all_goals rfl

/-! ## Stores that agree -/

/-- Two stores hold the same at some locations, and relative paths start from the same one. -/
structure SameOn (W : Location → Prop) (s t : Store) : Prop where
  here : t.here = s.here
  find? : ∀ l, W l → t.find? l = s.find? l

namespace SameOn

theorem refl (s : Store) : SameOn W s s := ⟨rfl, fun _ _ => rfl⟩

theorem trans (h : SameOn W s t) (h' : SameOn W t u) : SameOn W s u :=
  ⟨h'.here.trans h.here, fun l hl => (h'.find? l hl).trans (h.find? l hl)⟩

theorem mono {V : Location → Prop} (h : SameOn W s t) (hV : ∀ l, V l → W l) : SameOn V s t :=
  ⟨h.here, fun l hl => h.find? l (hV l hl)⟩

theorem put (h : SameOn W s t) (hl : l ≠ []) (e : Entry) : SameOn W (s.put l e) (t.put l e) := by
  refine ⟨h.here, fun k hk => ?_⟩
  rw [find?_put hl, find?_put hl, h.find? k hk]

theorem of_put (hl : l ≠ []) (hW : ¬ W l) (e : Entry) : SameOn W s (s.put l e) := by
  refine ⟨rfl, fun k hk => ?_⟩
  rw [find?_put hl, if_neg]
  rintro rfl
  exact hW hk

theorem of_erase (hl : l ≠ []) (hW : ¬ W l) : SameOn W s (s.erase l) := by
  refine ⟨rfl, fun k hk => ?_⟩
  rw [find?_erase hl, if_neg]
  rintro rfl
  exact hW hk

variable (h : SameOn W s t)

include h

theorem sameFiles : SameFiles W s t := by
  refine ⟨h.here, fun l hl => ?_⟩
  rw [Store.file?, h.find? l hl, Store.file?]

theorem checkDirectory (hl : W l) : t.checkDirectory l = s.checkDirectory l := by
  rw [Store.checkDirectory, h.find? l hl, Store.checkDirectory]

theorem walk {ns : List Text} (hns : ∀ k ∈ stops l ns, W k) : t.walk l ns = s.walk l ns := by
  induction ns generalizing l with
  | nil => rfl
  | cons name ns ih =>
    obtain ⟨hl, hns⟩ := List.forall_mem_cons.1 hns
    rw [Store.walk, Store.walk, h.checkDirectory hl]
    cases s.checkDirectory l with
    | error f => rfl
    | ok a =>
      cases henter : enter l name with
      | error f => rfl
      | ok next =>
        rw [← eq_step_of_enter henter] at hns
        exact ih hns

variable (hway : ∀ k ∈ s.way path, W k)

include hway

theorem locate : t.locate path = s.locate path := by
  have hplace := h.find? _ (hway _ (place_mem_way s path))
  rw [Store.locate, Store.locate, origin_of_here h.here, h.walk hway]
  cases checkPath path with
  | error f => rfl
  | ok a =>
    cases hwalk : s.walk (s.origin path) (names path) with
    | error f => rfl
    | ok l =>
      have hl : l = s.place path := eq_foldl_of_walk hwalk
      rw [← hl] at hplace
      simp only [bind, Except.bind, hplace]

theorem entry : t.entry path = s.entry path := by
  rw [Store.entry, Store.entry, h.locate hway]
  cases hlocate : s.locate path with
  | error f => rfl
  | ok l =>
    have hl := (eq_place_of_locate hlocate).1
    have hfind := h.find? l (hway l (hl ▸ place_mem_way s path))
    simp only [bind, Except.bind, hfind]

theorem isDirectory : t.isDirectory path = s.isDirectory path := by
  rw [Store.isDirectory, Store.isDirectory, h.entry hway]

theorem parentAndName : t.parentAndName path = s.parentAndName path := by
  have hparent : ∀ k ∈ stops (s.origin path) (names path).dropLast, W k :=
    fun k hk => hway k (mem_stops_dropLast hk)
  rw [Store.parentAndName, Store.parentAndName, origin_of_here h.here, h.walk hparent]
  cases checkPath path with
  | error f => rfl
  | ok a =>
    cases hwalk : s.walk (s.origin path) (names path).dropLast with
    | error f => rfl
    | ok l =>
      have hl : W l := hparent l (eq_foldl_of_walk hwalk ▸ foldl_step_mem_stops _ _)
      simp only [bind, Except.bind, h.checkDirectory hl]

/-- The place of a path is looked at when its last name is entered. -/
theorem find?_of_enter {k l : Location} {name : Text}
    (hparent : s.parentAndName path = .ok (k, some name)) (henter : enter k name = .ok l) :
    t.find? l = s.find? l := by
  obtain ⟨-, hwalk, -, hname⟩ := parentAndName_eq_ok hparent
  exact h.find? l (hway l (eq_place_of_enter hwalk hname.symm henter ▸ place_mem_way s path))

theorem fileLocation : t.fileLocation path = s.fileLocation path := by
  rw [Store.fileLocation, Store.fileLocation, h.parentAndName hway]
  cases hparent : s.parentAndName path with
  | error f => rfl
  | ok found =>
    obtain ⟨k, name?⟩ := found
    cases name? with
    | none => rfl
    | some name =>
      simp only [bind, Except.bind]
      cases henter : enter k name with
      | error f => rfl
      | ok target => simp only [h.find?_of_enter hway hparent henter]

end SameOn

/-- A file that is written holds what was written, and nothing else is changed. -/
theorem file?_of_write {c : Content} (h : s.write path c = .ok t) :
    t.file? (s.place path) = some c := by
  obtain ⟨hl, rfl⟩ := write_eq_ok h
  rw [file?, find?_put (place_ne_nil_of_fileLocation hl).1, if_pos rfl]

theorem sameOn_of_write {c : Content} (h : s.write path c = .ok t) :
    SameOn (· ≠ s.place path) s t := by
  obtain ⟨hl, rfl⟩ := write_eq_ok h
  exact SameOn.of_put (place_ne_nil_of_fileLocation hl).1 (not_not.2 rfl) _

theorem sameOn_of_remove (h : s.remove path = .ok t) : SameOn (· ≠ s.place path) s t := by
  obtain ⟨rfl, hroot⟩ := remove_eq_ok h
  exact SameOn.of_erase hroot (not_not.2 rfl)

/-- Two results of an operation that changes a store: the same fault, or stores that agree. -/
inductive Alike (W : Location → Prop) : Except Fault Store → Except Fault Store → Prop
  | error (f : Fault) : Alike W (.error f) (.error f)
  | ok {s t : Store} (h : SameOn W s t) : Alike W (.ok s) (.ok t)

namespace SameOn

variable (h : SameOn W s t) (hway : ∀ k ∈ s.way path, W k)

include h hway

theorem createDirectory : Alike W (s.createDirectory path) (t.createDirectory path) := by
  rw [Store.createDirectory, Store.createDirectory, h.parentAndName hway]
  cases hparent : s.parentAndName path with
  | error f => exact .error f
  | ok found =>
    obtain ⟨k, name?⟩ := found
    cases name? with
    | none => exact .error _
    | some name =>
      simp only [bind, Except.bind]
      split
      · cases henter : enter k name with
        | error f => exact .error f
        | ok target =>
          have hfind := h.find?_of_enter hway hparent henter
          simp only [hfind]
          split
          · exact .error _
          · next hfree =>
            have hroot : target ≠ [] := by
              rintro rfl
              exact hfree rfl
            exact .ok (h.put hroot _)
      · exact .error _

theorem ensureDirectory : Alike W (s.ensureDirectory path) (t.ensureDirectory path) := by
  have hmake := h.createDirectory hway
  unfold Store.ensureDirectory
  generalize s.createDirectory path = made, t.createDirectory path = made' at hmake ⊢
  cases hmake with
  | ok h' => exact .ok h'
  | error f =>
    simp only [h.isDirectory hway]
    split
    · exact .ok h
    · exact .error f

end SameOn

/-- Stores that agree on the way of a path still agree after it is made, by induction on the path:
the parent's way is part of it. -/
theorem SameOn.createDirectories {s t : Store} {path : Text} (h : SameOn W s t)
    (hway : path ≠ [] → ∀ k ∈ s.way path, W k) :
    (t.createDirectories path).1 = (s.createDirectories path).1 ∧
      SameOn W (s.createDirectories path).2 (t.createDirectories path).2 := by
  by_cases hne : path = []
  · rw [hne, createDirectories_nil, createDirectories_nil]
    exact ⟨rfl, h⟩
  rw [createDirectories_eq hne, createDirectories_eq hne]
  have hfirst := h.ensureDirectory (hway hne)
  generalize s.ensureDirectory path = made, t.ensureDirectory path = made' at hfirst ⊢
  cases hfirst with
  | ok h' => exact ⟨rfl, h'⟩
  | error f =>
    cases f
    case notFound =>
      cases hparent : Path.parent? path with
      | none => exact ⟨rfl, h⟩
      | some parent =>
        have hhere := here_createDirectories s parent
        have hmade := SameOn.createDirectories h fun hne' k hk =>
          hway hne k (mem_way_of_parent? hparent hne' hk)
        dsimp only
        generalize s.createDirectories parent = made, t.createDirectories parent = made'
          at hhere hmade ⊢
        obtain ⟨result, s'⟩ := made
        obtain ⟨result', t'⟩ := made'
        obtain ⟨rfl, hmade⟩ := hmade
        cases result' with
        | error f => exact ⟨rfl, hmade⟩
        | ok a =>
          have hway' : ∀ k ∈ s'.way path, W k := by
            rw [way_of_here hhere]
            exact hway hne
          have hlast := hmade.ensureDirectory hway'
          dsimp only
          generalize s'.ensureDirectory path = made, t'.ensureDirectory path = made' at hlast ⊢
          cases hlast with
          | ok h' => exact ⟨rfl, h'⟩
          | error f => exact ⟨rfl, hmade⟩
    all_goals exact ⟨rfl, h⟩
termination_by path.length
decreasing_by exact Path.length_parent?_lt hparent

end MarkdownPreview.Store

import MarkdownPreview.Proofs.SavedFlags
/-!
# Places in a store

The place of a path is the location it leads to if everything on its way is a directory; whatever
an operation finds, makes or removes by a path is there (`eq_place_of_locate`,
`eq_place_of_fileLocation`). The way of a path is the locations its names lead through, its place
the last of them, and the way of the parent is part of it (`mem_way_of_parent?`).
-/

namespace MarkdownPreview

namespace Store

/-! ## Places and ways -/

/-- Where a name leads from a directory; `enter` also refuses a name that is too long. -/
def step (l : Location) (name : Text) : Location :=
  if name = ['.'] then l else if name = ['.', '.'] then l.dropLast else l ++ [name]

/-- The locations that names lead through, from the first to the last. -/
def stops : Location → List Text → List Location
  | l, [] => [l]
  | l, name :: names => l :: stops (step l name) names

/-- The location a path leads to, if it leads anywhere. -/
def place (s : Store) (path : Text) : Location := (names path).foldl step (s.origin path)

/-- The locations a path leads through: where it starts, the directories on its way, its place. -/
def way (s : Store) (path : Text) : List Location := stops (s.origin path) (names path)

/-- What the file at a location holds. -/
def file? (s : Store) (l : Location) : Option Content :=
  match s.find? l with
  | some (.file c) => some c
  | _ => none

variable {s t : Store} {l k : Location} {path name : Text} {ns : List Text}

/-- Where a path starts and leads to depends on the store's own directory alone. -/
theorem origin_of_here (h : t.here = s.here) (path : Text) : t.origin path = s.origin path := by
  rw [origin, h, origin]

theorem place_of_here (h : t.here = s.here) (path : Text) : t.place path = s.place path := by
  rw [place, origin_of_here h, place]

theorem way_of_here (h : t.here = s.here) (path : Text) : t.way path = s.way path := by
  rw [way, origin_of_here h, way]

theorem mem_stops_self (l : Location) (ns : List Text) : l ∈ stops l ns := by
  cases ns <;> simp [stops]

theorem foldl_step_mem_stops (l : Location) (ns : List Text) : ns.foldl step l ∈ stops l ns := by
  induction ns generalizing l with
  | nil => simp [stops]
  | cons name ns ih => exact List.mem_cons_of_mem _ (ih (step l name))

theorem mem_stops_append (more : List Text) (h : k ∈ stops l ns) : k ∈ stops l (ns ++ more) := by
  induction ns generalizing l with
  | nil =>
    obtain rfl := List.mem_singleton.1 h
    exact mem_stops_self _ _
  | cons name ns ih =>
    rcases List.mem_cons.1 h with rfl | h
    · exact List.mem_cons_self
    · exact List.mem_cons_of_mem _ (ih h)

theorem mem_stops_dropLast (h : k ∈ stops l ns.dropLast) : k ∈ stops l ns := by
  rcases List.eq_nil_or_concat ns with rfl | ⟨ms, name, rfl⟩
  · exact h
  · rw [List.concat_eq_append] at h ⊢
    rw [List.dropLast_concat] at h
    exact mem_stops_append [name] h

theorem place_mem_way (s : Store) (path : Text) : s.place path ∈ s.way path :=
  foldl_step_mem_stops _ _

theorem eq_step_of_enter (h : enter l name = .ok k) : k = step l name := by
  unfold enter at h
  unfold step
  split at h
  · next hdot => rw [if_pos hdot, Except.ok.inj h]
  · next hdot =>
    rw [if_neg hdot]
    split at h
    · next hup => rw [if_pos hup, Except.ok.inj h]
    · next hup =>
      rw [if_neg hup]
      split at h
      · simp at h
      · exact (Except.ok.inj h).symm

theorem eq_foldl_of_walk (h : s.walk l ns = .ok k) : k = ns.foldl step l := by
  induction ns generalizing l with
  | nil => exact (Except.ok.inj h).symm
  | cons name ns ih =>
    obtain ⟨-, next, hn, hrest⟩ := walk_cons_eq_ok h
    rw [List.foldl_cons, ← eq_step_of_enter hn]
    exact ih hrest

theorem eq_place_of_enter (hwalk : s.walk (s.origin path) (names path).dropLast = .ok k)
    (hname : (names path).getLast? = some name) (henter : enter k name = .ok l) :
    l = s.place path := by
  rw [place, names_eq_concat hname, List.foldl_append, ← eq_foldl_of_walk hwalk]
  exact eq_step_of_enter henter

theorem eq_place_of_locate (h : s.locate path = .ok l) :
    l = s.place path ∧ ∃ e, s.find? l = some e := by
  obtain ⟨⟨⟩, -, h⟩ := exists_of_bind_eq_ok h
  obtain ⟨k, hwalk, h⟩ := exists_of_bind_eq_ok h
  have hk := eq_foldl_of_walk hwalk
  cases hfind : s.find? k with
  | none => simp [hfind] at h
  | some e =>
    have hl : k = l := by
      cases e with
      | directory => simpa [hfind] using h
      | file c =>
        simp only [hfind] at h
        split at h
        · simp at h
        · exact Except.ok.inj h
    subst hl
    exact ⟨hk, e, hfind⟩

theorem eq_place_of_fileLocation (h : s.fileLocation path = .ok l) : l = s.place path := by
  obtain ⟨k, name, -, hwalk, -, hname, -, henter, -⟩ := fileLocation_eq_ok h
  exact eq_place_of_enter hwalk hname henter

theorem find?_place_of_entry {e : Entry} (h : s.entry path = .ok e) :
    s.find? (s.place path) = some e := by
  obtain ⟨l, hl, h⟩ := exists_of_bind_eq_ok h
  obtain ⟨rfl, e', he'⟩ := eq_place_of_locate hl
  rw [he'] at h ⊢
  rw [Except.ok.inj h]

theorem file?_place_of_readText {u : Text} (h : s.readText path = .ok u) :
    s.file? (s.place path) = some (.text u) := by
  obtain ⟨c, hc, h⟩ := exists_of_bind_eq_ok h
  obtain ⟨e, he, hc⟩ := exists_of_bind_eq_ok hc
  have hfind := find?_place_of_entry he
  cases e with
  | directory => simp at hc
  | file c' =>
    obtain rfl := Except.ok.inj hc
    cases c' with
    | binary bytes => simp at h
    | text u' =>
      obtain rfl := Except.ok.inj h
      simp [file?, hfind]

end Store

/-! ## The parent of a path -/

/-- Cut an appended text: the last part of the first text and the first part of the second one are
one part. -/
theorem Text.splitOn_append (a : Char) (p q : Text) : ∃ init w v rest,
    p.splitOn a = init ++ [w] ∧ q.splitOn a = v :: rest ∧
      (p ++ q).splitOn a = init ++ (w ++ v) :: rest := by
  obtain ⟨v, rest, hq⟩ := List.exists_cons_of_ne_nil (List.splitOn_ne_nil a q)
  induction p with
  | nil => exact ⟨[], [], v, rest, by simp, hq, by simpa using hq⟩
  | cons c p ih =>
    obtain ⟨init, w, v', rest', hp, hq', happend⟩ := ih
    simp only [List.cons_append, List.splitOn_cons_eq_if_modifyHead]
    by_cases hc : c = a
    · exact ⟨[] :: init, w, v', rest', by simp [hc, hp], hq', by simp [hc, happend]⟩
    · cases init with
      | nil => exact ⟨[], c :: w, v', rest', by simp [hc, hp], hq', by simp [hc, happend]⟩
      | cons b init =>
        exact ⟨(c :: b) :: init, w, v', rest', by simp [hc, hp], hq', by simp [hc, happend]⟩

namespace Path

theorem exists_ofName? {n : Text} (hn : n ≠ []) (hdot : n ≠ ['.']) :
    ∃ x, Step.ofName? n = some x := by
  unfold Step.ofName?
  rw [if_neg (by simp [hn, hdot])]
  split
  · exact ⟨_, rfl⟩
  · exact ⟨_, rfl⟩

theorem ofName?_eq_some {n : Text} {x : Step} (h : Step.ofName? n = some x) :
    x = .up ∧ n = ['.', '.'] ∨ x = .name n := by
  unfold Step.ofName? at h
  split at h
  · simp at h
  · split at h
    · next hup => exact .inl ⟨(Option.some.inj h).symm, hup⟩
    · exact .inr (Option.some.inj h).symm

theorem ofName?_inj {n m : Text} {x : Step} (hn : Step.ofName? n = some x)
    (hm : Step.ofName? m = some x) : n = m := by
  rcases ofName?_eq_some hn with ⟨rfl, rfl⟩ | rfl
  · rcases ofName?_eq_some hm with ⟨-, rfl⟩ | hname
    · rfl
    · simp at hname
  · rcases ofName?_eq_some hm with ⟨hup, -⟩ | hname
    · simp at hup
    · exact Step.name.inj hname

/-- The step that the start of a path is. -/
def leading (path first : Text) : List Step :=
  if path.head? = some '/' then [.root]
  else if first = ['.'] then [.current]
  else (Step.ofName? first).toList

theorem steps_eq {path first : Text} {ns : List Text} (h : path.splitOn '/' = first :: ns) :
    steps path = leading path first ++ ns.filterMap Step.ofName? := by
  unfold steps leading
  rw [h]
  dsimp only
  split
  · rfl
  · split
    · rfl
    · cases hfirst : Step.ofName? first <;> simp [hfirst]

/-- A beginning of a path that ends within a name does not take the steps of the path's parent: it
has a last step of its own, where the path has another one. -/
theorem eq_nil_or_of_steps_eq {p q : Text} {init rest : List Text} {w v : Text} (hp : p ≠ [])
    (hcut : p.splitOn '/' = init ++ [w]) (happend : (p ++ q).splitOn '/' = init ++ (w ++ v) :: rest)
    (h : steps p = (steps (p ++ q)).dropLast) : w = [] ∨ w = ['.'] ∨ v = [] := by
  by_contra hnot
  obtain ⟨hw, hdot, hv⟩ : w ≠ [] ∧ w ≠ ['.'] ∧ v ≠ [] := by simpa using hnot
  have hdot' : w ++ v ≠ ['.'] := by
    intro hone
    have hlength := congrArg List.length hone
    rw [List.length_append] at hlength
    have hw' := List.length_pos_iff.2 hw
    have hv' := List.length_pos_iff.2 hv
    simp at hlength
    omega
  obtain ⟨x, hx⟩ := exists_ofName? hw hdot
  obtain ⟨x', hx'⟩ := exists_ofName? (List.append_ne_nil_of_left_ne_nil hw v) hdot'
  have hhead : (p ++ q).head? = p.head? := by
    obtain ⟨c, p, rfl⟩ := List.exists_cons_of_ne_nil hp
    rfl
  obtain ⟨A, hA, hA'⟩ : ∃ A, steps p = A ++ [x] ∧
      steps (p ++ q) = A ++ x' :: rest.filterMap Step.ofName? := by
    cases init with
    | nil =>
      have hroot : p.head? ≠ some '/' := by
        intro hroot
        obtain ⟨p, rfl⟩ := List.head?_eq_some_iff.1 hroot
        simp [List.splitOn_cons_eq_if_modifyHead] at hcut
      refine ⟨[], ?_, ?_⟩
      · rw [steps_eq hcut, leading, if_neg hroot, if_neg hdot, hx]
        rfl
      · rw [steps_eq happend, leading, hhead, if_neg hroot, if_neg hdot', hx']
        rfl
    | cons a init =>
      refine ⟨leading p a ++ init.filterMap Step.ofName?, ?_, ?_⟩
      · rw [steps_eq hcut]
        simp [hx]
      · rw [steps_eq happend, leading, hhead, ← leading]
        simp [hx']
  rw [hA, hA', List.dropLast_append_of_ne_nil (by simp), List.append_cancel_left_eq] at h
  cases hrest : rest.filterMap Step.ofName? with
  | nil => simp [hrest] at h
  | cons y ys =>
    have hxx : x = x' := by simpa [hrest] using congrArg List.head? h
    exact hv (List.self_eq_append_right.1 (ofName?_inj hx (hxx ▸ hx')))

/-- The parent of a path is a beginning of it. -/
theorem exists_of_parent? {path parent : Text} (h : parent? path = some parent) :
    ∃ q, path = parent ++ q ∧ steps parent = (steps path).dropLast := by
  unfold parent? at h
  split at h
  · simp at h
  · have hsteps : steps parent = (steps path).dropLast := by simpa using List.find?_some h
    obtain ⟨n, -, rfl⟩ := List.mem_map.1 (List.mem_of_find?_eq_some h)
    exact ⟨path.drop n, (List.take_append_drop n path).symm, hsteps⟩

end Path

namespace Store

theorem mem_stops_concat {l k : Location} {ns : List Text} {name : Text}
    (h : k ∈ stops l (ns ++ [name])) : k ∈ stops l ns ∨ k = step (ns.foldl step l) name := by
  induction ns generalizing l with
  | nil =>
    rcases List.mem_cons.1 h with rfl | h
    · exact .inl List.mem_cons_self
    · exact .inr (List.mem_singleton.1 h)
  | cons n ns ih =>
    rcases List.mem_cons.1 h with rfl | h
    · exact .inl List.mem_cons_self
    · exact (ih h).imp (List.mem_cons_of_mem _) id

/-- The way of a path goes through all that the way of its parent goes through. -/
theorem mem_way_of_parent? {s : Store} {path parent : Text} {k : Location}
    (h : Path.parent? path = some parent) (hne : parent ≠ []) (hk : k ∈ s.way parent) :
    k ∈ s.way path := by
  obtain ⟨q, rfl, hsteps⟩ := Path.exists_of_parent? h
  obtain ⟨init, w, v, rest, hcut, -, happend⟩ := Text.splitOn_append '/' parent q
  have horigin : s.origin (parent ++ q) = s.origin parent := by
    obtain ⟨c, parent, rfl⟩ := List.exists_cons_of_ne_nil hne
    rfl
  unfold way names at hk ⊢
  rw [hcut] at hk
  rw [horigin, happend]
  rw [List.filter_append] at hk ⊢
  rcases Path.eq_nil_or_of_steps_eq hne hcut happend hsteps with rfl | rfl | rfl
  · exact mem_stops_append _ (by simpa using hk)
  · have hdot : [['.']].filter (· ≠ []) = [['.']] := rfl
    rw [hdot] at hk
    rcases mem_stops_concat hk with hk | rfl
    · exact mem_stops_append _ hk
    · exact mem_stops_append _ (foldl_step_mem_stops _ _)
  · rw [List.append_nil, ← List.singleton_append, List.filter_append, ← List.append_assoc]
    exact mem_stops_append _ hk

end Store

end MarkdownPreview

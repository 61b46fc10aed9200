import MarkdownPreview.Proofs.BlockEnd
import MarkdownPreview.Proofs.ReturnsSpans
/-!
# Blocks and carriage returns

To a block pass a return is the last character of a line, and it makes no difference to what the
line is, with three exceptions. A row ends in a bar, so a line that ends in a return is no row and
there are no tables. Behind a marker and one blank a return is something said, so a quote line or an
item that says nothing is none without the return.

What a quote keeps of its lines it puts in front of tags, and from then on a return may stand within
a line, one that starts with a tag (`Tidy`). No later pass recognises such a line, so nothing comes
of it.
-/

namespace MarkdownPreview

open Text

variable {S : List Char} {next : Option Char}

/-! ## Returns line by line -/

namespace Text

theorem returns_cons {c : Char} (hc : c ≠ '\r') (t : Text) :
    Returns S next (c :: t) ↔ Returns S next t :=
  and_iff_right fun h => absurd h hc

/-- A return that stands before breaks only, in a text without breaks, is the last character, and so
it stands before whatever follows. -/
theorem Returns.before {t : Text} (h : Returns ['\n'] (some '\n') t) (hbreak : '\n' ∉ t) (d : Char) :
    Returns [d] (some d) t := by
  induction t with
  | nil => trivial
  | cons c t ih =>
    rw [List.mem_cons, not_or] at hbreak
    refine ⟨fun hc => ?_, ih h.2 hbreak.2⟩
    obtain ⟨e, he, hnext⟩ := h.1 hc
    rw [List.mem_singleton.1 he] at hnext
    cases t with
    | nil => exact ⟨d, List.mem_singleton_self d, rfl⟩
    | cons a t =>
      obtain rfl : a = '\n' := by simpa using hnext
      exact absurd List.mem_cons_self hbreak.2

theorem returns_joinLines_iff : ∀ ls : List Text, Returns S none (joinLines ls) ↔
    (∀ l ∈ ls.dropLast, Returns S (some '\n') l) ∧ ∀ l ∈ ls.getLast?, Returns S none l
  | [] => by simp [joinLines, Returns]
  | [l] => by simp [joinLines]
  | l :: l' :: ls => by
    rw [joinLines_cons_cons, returns_append, returns_cons (by decide), returns_joinLines_iff,
      List.dropLast_cons_cons, List.forall_mem_cons, List.getLast?_cons_cons, and_assoc]
    rfl

theorem dropReturns_joinLines : ∀ ls : List Text,
    dropReturns (joinLines ls) = joinLines (ls.map dropReturns)
  | [] => rfl
  | [l] => by simp [joinLines]
  | l :: l' :: ls => by
    rw [joinLines_cons_cons, dropReturns_append, dropReturns_cons (by decide), dropReturns_joinLines]
    exact (joinLines_cons_cons _ _ _).symm

theorem dropReturns_concat_return {x : Text} (hx : '\r' ∉ x) : dropReturns (x ++ ['\r']) = x := by
  rw [dropReturns_append, dropReturns_eq_self hx]
  simp

theorem dropReturns_tag (l : Text) : dropReturns ('<' :: l) = '<' :: dropReturns l :=
  dropReturns_cons (by decide) l

/-- A last character that ends a run is no matter before it ends. -/
theorem takeWhile_concat_of_neg {p : Char → Bool} {c : Char} (hc : p c = false) (t : Text) :
    (t ++ [c]).takeWhile p = t.takeWhile p := by
  induction t with
  | nil => simp [hc]
  | cons d t ih => rw [List.cons_append, List.takeWhile_cons, List.takeWhile_cons, ih]

theorem dropWhile_concat_of_neg {p : Char → Bool} {c : Char} (hc : p c = false) (t : Text) :
    (t ++ [c]).dropWhile p = t.dropWhile p ++ [c] := by
  induction t with
  | nil => simp [hc]
  | cons d t ih =>
    rw [List.cons_append, List.dropWhile_cons, List.dropWhile_cons, ih]
    split <;> rfl

/-- A line without returns, or one whose only return is its last character. -/
theorem eq_concat_return {l : Text} (h : '\r' ∉ l.dropLast) :
    '\r' ∉ l ∨ ∃ x, '\r' ∉ x ∧ l = x ++ ['\r'] := by
  rcases List.eq_nil_or_concat l with rfl | ⟨x, c, rfl⟩
  · exact Or.inl (by simp)
  · rw [List.concat_eq_append, List.dropLast_concat] at h
    rw [List.concat_eq_append]
    by_cases hc : c = '\r'
    · exact Or.inr ⟨x, h, by rw [hc]⟩
    · exact Or.inl (by simp [h, Ne.symm hc])

/-- Returns in the lines of a text, of which the last one has no break after it. -/
theorem Returns.exists_lines {t : Text} (h : Returns S none t) : ∃ ls last, lines t = ls ++ [last] ∧
    (∀ l ∈ ls, Returns S (some '\n') l) ∧ Returns S none last := by
  obtain ⟨ls, last, hlines⟩ := (List.eq_nil_or_concat (lines t)).resolve_left (lines_ne_nil t)
  rw [List.concat_eq_append] at hlines
  rw [← joinLines_lines t, returns_joinLines_iff, hlines, List.dropLast_concat,
    List.getLast?_concat] at h
  exact ⟨ls, last, hlines, h.1, h.2 last rfl⟩

theorem Returns.of_mem_lines {t l : Text} (h : Returns S none t) (hl : l ∈ lines t) :
    Returns S (some '\n') l := by
  obtain ⟨ls, last, hlines, habove, hlast⟩ := h.exists_lines
  rw [hlines, List.mem_append, List.mem_singleton] at hl
  rcases hl with hl | rfl
  · exact habove l hl
  · exact hlast.of_none

/-- A line that ends in a return is not the last one. -/
theorem Returns.mem_dropLast_lines {t l : Text} (h : Returns S none t) (hl : l ∈ lines t)
    (hr : l.getLast? = some '\r') : l ∈ (lines t).dropLast := by
  obtain ⟨ls, last, hlines, -, hlast⟩ := h.exists_lines
  rw [hlines, List.mem_append, List.mem_singleton] at hl
  rw [hlines, List.dropLast_concat]
  rcases hl with hl | rfl
  · exact hl
  · exact absurd hr (hlast.getLast?_ne (by simp))

/-- Returns stand at the ends of lines, and in lines that start with a tag they stand before tags
too. -/
structure Tidy (t : Text) : Prop where
  returns : Returns ['\n', '<'] none t
  inner : ∀ l ∈ lines t, l.head? = some '<' ∨ '\r' ∉ l.dropLast

theorem tidy_of_not_mem {t : Text} (h : '\r' ∉ t) : Tidy t :=
  ⟨returns_of_not_mem h, fun _ hl => Or.inr fun hm =>
    h ((isInfix_of_mem_lines hl).subset (List.mem_of_mem_dropLast hm))⟩

/-- A line that does not start with a tag and has a return stands, without it, above the last line. -/
theorem Tidy.dropReturns_mem_dropLast {t l : Text} (h : Tidy t) (hl : l ∈ lines t)
    (hinner : '\r' ∉ l.dropLast) (hr : '\r' ∈ l) :
    dropReturns l ∈ (lines (dropReturns t)).dropLast := by
  obtain ⟨x, -, rfl⟩ := (eq_concat_return hinner).resolve_left (not_not.2 hr)
  rw [lines_dropReturns, ← List.map_dropLast]
  exact List.mem_map_of_mem (h.returns.mem_dropLast_lines hl List.getLast?_concat)

/-! ### Returns in front of every break -/

theorem joinLines_cons {ls : List Text} (h : ls ≠ []) (l : Text) :
    joinLines (l :: ls) = l ++ '\n' :: joinLines ls := by
  obtain ⟨l', ls, rfl⟩ := List.exists_cons_of_ne_nil h
  exact joinLines_cons_cons l l' ls

theorem crlf_joinLines {last : Text} (hlast : '\n' ∉ last) : ∀ {ls : List Text},
    (∀ l ∈ ls, '\n' ∉ l) →
      crlf (joinLines (ls ++ [last])) = joinLines (ls.map (· ++ ['\r']) ++ [last])
  | [], _ => by simp [joinLines, crlf_eq_self hlast]
  | l :: ls, h => by
    rw [List.forall_mem_cons] at h
    rw [List.cons_append, joinLines_cons (by simp), crlf_append, crlf_eq_self h.1, crlf_break_cons,
      crlf_joinLines hlast h.2, List.map_cons, List.cons_append, joinLines_cons (by simp)]
    simp

/-- With a return in front of every break, the lines of a text but the last one end in returns. -/
theorem lines_crlf (t : Text) : ∃ ls last, lines t = ls ++ [last] ∧
    lines (crlf t) = ls.map (· ++ ['\r']) ++ [last] := by
  obtain ⟨ls, last, hlines⟩ := (List.eq_nil_or_concat (lines t)).resolve_left (lines_ne_nil t)
  rw [List.concat_eq_append] at hlines
  have hbreak : ∀ l ∈ ls ++ [last], '\n' ∉ l := by
    rw [← hlines]
    exact fun l hl => break_not_mem_of_mem_lines hl
  rw [List.forall_mem_append, List.forall_mem_singleton] at hbreak
  refine ⟨ls, last, hlines, ?_⟩
  rw [← joinLines_lines t, hlines, crlf_joinLines hbreak.2 hbreak.1, joinLines, lines]
  refine List.splitOn_intercalate _ ?_ (by simp)
  simpa [or_imp, forall_and] using hbreak

theorem mem_lines_crlf {t l : Text} (h : '\r' ∉ t) (hl : l ∈ lines (crlf t)) :
    '\r' ∉ l ∨ ∃ x ∈ (lines t).dropLast, '\r' ∉ x ∧ l = x ++ ['\r'] := by
  have hreturn : ∀ x ∈ lines t, '\r' ∉ x := fun x hx hm => h ((isInfix_of_mem_lines hx).subset hm)
  obtain ⟨ls, last, hlines, hcrlf⟩ := lines_crlf t
  rw [hlines] at hreturn ⊢
  rw [hcrlf, List.mem_append, List.mem_map, List.mem_singleton] at hl
  rcases hl with ⟨x, hx, rfl⟩ | rfl
  · exact Or.inr ⟨x, by rwa [List.dropLast_concat], hreturn x (by simp [hx]), rfl⟩
  · exact Or.inl (hreturn l (by simp))

theorem tidy_crlf {t : Text} (h : '\r' ∉ t) : Tidy (crlf t) := by
  refine ⟨(returns_crlf h).mono (by simp), fun l hl => Or.inr ?_⟩
  rcases mem_lines_crlf h hl with hr | ⟨x, -, hr, rfl⟩
  · exact fun hm => hr (List.mem_of_mem_dropLast hm)
  · rwa [List.dropLast_concat]

end Text

/-! ## Rules and headings -/

namespace Text

/-- A change of a line that leaves empty lines and lines that start with tags alone and brings in no
returns. -/
structure KeepsReturns (f : Text → Text) : Prop where
  nil : f [] = []
  tag : ∀ l, f ('<' :: l) = '<' :: l
  return_not_mem : ∀ l, '\r' ∉ l → '\r' ∉ f l

variable {f : Text → Text}

theorem mapLines_of_not_mem {t : Text} (ht : '\n' ∉ t ∧ '\r' ∉ t) : mapLines f t = f t := by
  rw [mapLines, Line.ofText_of_break_not_mem ht]
  simp [Line.print, Line.endingText]

theorem mapLines_eq_joinLines (hf : f [] = []) (t : Text) :
    mapLines f t = joinLines ((lines t).map (mapLines f)) := by
  have hjoin : ∀ ls : List Text, mapLines f (joinLines ls) = joinLines (ls.map (mapLines f)) := by
    intro ls
    induction ls with
    | nil => exact (mapLines_of_not_mem (by simp [joinLines])).trans hf
    | cons l ls ih =>
      cases ls with
      | nil => simp [joinLines]
      | cons l' ls =>
        rw [joinLines_cons_cons, mapLines_append_break hf, ih, List.map_cons, List.map_cons,
          List.map_cons, joinLines_cons_cons]
  rw [← hjoin, joinLines_lines]

theorem mapLines_concat_return (hf : f [] = []) {x : Text} (hx : '\n' ∉ x ∧ '\r' ∉ x) :
    mapLines f (x ++ ['\r']) = f x ++ ['\r'] := by
  have hlines : Line.ofText (x ++ ['\r']) = [⟨x, some .cr⟩, ⟨[], none⟩] := by
    induction x with
    | nil => rfl
    | cons c x ih =>
      simp only [List.mem_cons, not_or] at hx
      rw [List.cons_append, Line.ofText_cons ⟨Ne.symm hx.1.1, Ne.symm hx.2.1⟩, ih ⟨hx.1.2, hx.2.2⟩]
      rfl
  rw [mapLines, hlines]
  simp [Line.print, Line.endingText, LineBreak.text, hf]

/-- Cut at its returns, a line in which they stand before tags is cut into lines that start with
tags, but for the first. -/
theorem ofText_eq_cons {l : Text} (hbreak : '\n' ∉ l) (h : Returns ['\n', '<'] (some '\n') l) :
    ∃ first rest, Line.ofText l = first :: rest ∧ (first.body = [] ∨ first.body.head? = l.head?) ∧
      ∀ line ∈ rest, line.body = [] ∨ line.body.head? = some '<' := by
  induction l with
  | nil => exact ⟨⟨[], none⟩, [], rfl, Or.inl rfl, by simp⟩
  | cons c l ih =>
    simp only [List.mem_cons, not_or] at hbreak
    obtain ⟨first, rest, hl, hfirst, hrest⟩ := ih hbreak.2 h.2
    by_cases hc : c = '\r'
    · have hlf : ∀ u, l ≠ '\n' :: u := by
        rintro u rfl
        simp at hbreak
      have hcut : Line.ofText (c :: l) = ⟨[], some .cr⟩ :: Line.ofText l := by
        rw [Line.ofText.eq_3 _ _ (fun u _ hu => hlf u hu), if_neg (Ne.symm hbreak.1), if_pos hc]
      refine ⟨_, _, hcut, Or.inl rfl, ?_⟩
      rw [hl, List.forall_mem_cons]
      refine ⟨?_, hrest⟩
      rcases hfirst with hfirst | hfirst
      · exact Or.inl hfirst
      · cases l with
        | nil => exact Or.inl (List.head?_eq_none_iff.1 hfirst)
        | cons e l =>
          obtain ⟨d, hd, hnext⟩ := h.1 hc
          obtain rfl : e = d := by simpa using hnext
          simp only [List.mem_cons, List.not_mem_nil, or_false] at hd
          rcases hd with rfl | rfl
          · exact absurd rfl (hlf l)
          · exact Or.inr hfirst
    · refine ⟨⟨c :: first.body, first.ending⟩, rest, ?_, Or.inr rfl, hrest⟩
      rw [Line.ofText_cons ⟨Ne.symm hbreak.1, hc⟩, hl]
      rfl

theorem mapLines_of_tag (hf : KeepsReturns f) {l : Text} (hbreak : '\n' ∉ l)
    (h : Returns ['\n', '<'] (some '\n') l) (hhead : l.head? = some '<') : mapLines f l = l := by
  obtain ⟨first, rest, hl, hfirst, hrest⟩ := ofText_eq_cons hbreak h
  have hfixed : ∀ body : Text, body = [] ∨ body.head? = some '<' → f body = body := by
    rintro body (rfl | hbody)
    · exact hf.nil
    · obtain ⟨u, rfl⟩ := List.head?_eq_some_iff.1 hbody
      exact hf.tag u
  refine mapLines_eq_self ?_
  rw [hl, List.forall_mem_cons]
  rw [hhead] at hfirst
  exact ⟨hfixed _ hfirst, fun line hline => hfixed _ (hrest line hline)⟩

/-- One line is changed alike with its returns and without, and the changed line ends in a return
only if the line did. -/
theorem mapLines_line (hf : KeepsReturns f) {l : Text} (hbreak : '\n' ∉ l)
    (h : Returns ['\n', '<'] (some '\n') l) (hinner : l.head? = some '<' ∨ '\r' ∉ l.dropLast) :
    mapLines f (dropReturns l) = dropReturns (mapLines f l) ∧
      ∀ {S next}, Returns S next l → Returns S next (mapLines f l) := by
  rcases hinner with hhead | hinner
  · obtain ⟨u, rfl⟩ := List.head?_eq_some_iff.1 hhead
    have hdrop : '\n' ∉ dropReturns ('<' :: u) := fun hm => hbreak (mem_of_mem_dropReturns hm)
    have hreturn := return_not_mem_dropReturns ('<' :: u)
    rw [dropReturns_tag] at hdrop hreturn
    rw [mapLines_of_tag hf hbreak h rfl, dropReturns_tag, mapLines_of_not_mem ⟨hdrop, hreturn⟩]
    exact ⟨hf.tag _, fun h => h⟩
  · rcases eq_concat_return hinner with hr | ⟨x, hr, rfl⟩
    · have hfr := hf.return_not_mem l hr
      rw [dropReturns_eq_self hr, mapLines_of_not_mem ⟨hbreak, hr⟩, dropReturns_eq_self hfr]
      exact ⟨rfl, fun _ => returns_of_not_mem hfr⟩
    · have hfr := hf.return_not_mem x hr
      have hx : '\n' ∉ x := fun hm => hbreak (by simp [hm])
      rw [dropReturns_concat_return hr, mapLines_of_not_mem ⟨hx, hr⟩,
        mapLines_concat_return hf.nil ⟨hx, hr⟩, dropReturns_concat_return hfr]
      refine ⟨rfl, fun hl => ?_⟩
      rw [returns_append] at hl ⊢
      exact ⟨returns_of_not_mem hfr, hl.2⟩

theorem mapLines_dropReturns (hf : KeepsReturns f) {t : Text} (h : Tidy t) :
    mapLines f (dropReturns t) = dropReturns (mapLines f t) ∧
      Returns ['\n', '<'] none (mapLines f t) := by
  have hline := fun l hl => mapLines_line hf (break_not_mem_of_mem_lines hl)
    (h.returns.of_mem_lines hl) (h.inner l hl)
  have hreturns := h.returns
  rw [← joinLines_lines t, returns_joinLines_iff] at hreturns
  rw [mapLines_eq_joinLines hf.nil t, mapLines_eq_joinLines hf.nil (dropReturns t), lines_dropReturns]
  constructor
  · rw [dropReturns_joinLines, List.map_map, List.map_map]
    exact congrArg joinLines (List.map_congr_left fun l hl => (hline l hl).1)
  · rw [returns_joinLines_iff, ← List.map_dropLast, List.getLast?_map]
    constructor
    · simp only [List.forall_mem_map]
      exact fun l hl => (hline l (List.mem_of_mem_dropLast hl)).2 (hreturns.1 l hl)
    · intro l hl
      obtain ⟨l', hl', rfl⟩ := Option.map_eq_some_iff.1 hl
      exact (hline l' (List.mem_of_getLast? hl')).2 (hreturns.2 l' hl')

theorem return_not_mem_mapLines (hf : KeepsReturns f) {t : Text} (h : '\r' ∉ t) :
    '\r' ∉ mapLines f t := by
  rw [← dropReturns_eq_self h, (mapLines_dropReturns hf (tidy_of_not_mem h)).1]
  exact return_not_mem_dropReturns _

/-- A change that brings in no breaks leaves a return in front of every break. -/
theorem mapLines_crlf (hf : KeepsReturns f) (hbreak : ∀ l, '\n' ∉ l → '\n' ∉ f l) {t : Text}
    (h : '\r' ∉ t) : mapLines f (crlf t) = crlf (mapLines f t) := by
  obtain ⟨ls, last, hlines, hcrlf⟩ := lines_crlf t
  have hline : ∀ l ∈ ls ++ [last], '\n' ∉ l ∧ '\r' ∉ l := by
    rw [← hlines]
    exact fun l hl => ⟨break_not_mem_of_mem_lines hl, fun hm => h ((isInfix_of_mem_lines hl).subset hm)⟩
  rw [List.forall_mem_append, List.forall_mem_singleton] at hline
  have hls : ls.map (mapLines f) = ls.map f :=
    List.map_congr_left fun l hl => mapLines_of_not_mem (hline.1 l hl)
  have hreturns : (ls.map (· ++ ['\r'])).map (mapLines f) = (ls.map f).map (· ++ ['\r']) := by
    rw [List.map_map, List.map_map]
    exact List.map_congr_left fun l hl => mapLines_concat_return hf.nil (hline.1 l hl)
  rw [mapLines_eq_joinLines hf.nil t, mapLines_eq_joinLines hf.nil (crlf t), hlines, hcrlf,
    List.map_append, List.map_append, hls, hreturns, List.map_singleton,
    mapLines_of_not_mem hline.2, crlf_joinLines (hbreak last hline.2.1)]
  rw [List.forall_mem_map]
  exact fun l hl => hbreak l (hline.1 l hl).1

end Text

theorem Rule.not_mem_line {c : Char} {l : Text} (hrule : c ∉ "<hr>".toList) (hl : c ∉ l) :
    c ∉ line l := by
  unfold line
  split
  · exact hrule
  · exact hl

theorem Rule.keepsReturns_line : KeepsReturns line where
  nil := rfl
  tag l := by
    unfold line
    split
    · next h => exact absurd (mem_marks_of_isRule h List.mem_cons_self) (by decide)
    · rfl
  return_not_mem _ hl := not_mem_line (by decide) hl

theorem Rule.horizontalRules_crlf {t : Text} (h : '\r' ∉ t) :
    horizontalRules (crlf t) = crlf (horizontalRules t) :=
  mapLines_crlf keepsReturns_line (fun _ hl => not_mem_line (by decide) hl) h

/-- A heading is made of the characters of its line and of its tags. -/
theorem Heading.not_mem_line {c : Char} {l : Text} (htags : ∀ n ≤ maxLevel,
    c ∉ openTag ('h' :: decimal n) ∧ c ∉ closeTag ('h' :: decimal n)) (hl : c ∉ l) :
    c ∉ line l := by
  unfold line
  split
  · next h hh =>
    obtain ⟨n, b, rest, rfl, -, rfl⟩ := ofLine?_eq_some hh
    obtain ⟨hopen, hclose⟩ := htags _ (Nat.min_le_right n maxLevel)
    exact not_mem_element hopen hclose fun hm => hl (by simp [mem_of_mem_trim hm])
  · exact hl

theorem Heading.keepsReturns_line : KeepsReturns line where
  nil := rfl
  tag l := by
    unfold line
    split
    · next h hh =>
      obtain ⟨n, b, rest, hl, hb, -⟩ := ofLine?_eq_some hh
      cases n with
      | zero =>
        obtain rfl : '<' = b := (List.cons.inj hl).1
        exact absurd hb (by decide)
      | succ n => exact absurd (List.cons.inj hl).1 (by decide)
    · rfl
  return_not_mem _ hl := not_mem_line (by decide) hl

theorem Heading.headings_dropReturns {t : Text} (h : Tidy t) :
    headings (dropReturns t) = dropReturns (headings t) ∧ Returns ['\n', '<'] none (headings t) :=
  mapLines_dropReturns keepsReturns_line h

/-! ## Tables -/

namespace Table

theorem not_isRow_concat_return (x : Text) : ¬ IsRow (x ++ ['\r']) := by
  intro h
  obtain ⟨cells, hcells⟩ := Option.isSome_iff_exists.1 h
  obtain ⟨inner, hl, -⟩ := cells?_eq_some hcells
  have hlast := congrArg List.getLast? hl
  rw [List.getLast?_concat, List.getLast?_concat] at hlast
  cases hlast

theorem noTable_of_dropLast : ∀ {ls : List Text}, (∀ l ∈ ls.dropLast, ¬ IsRow l) → NoTable ls
  | [], _ => List.isChain_nil
  | [l], _ => List.isChain_singleton l
  | l :: d :: ls, h => by
    rw [List.dropLast_cons_cons, List.forall_mem_cons] at h
    exact List.isChain_cons_cons.2 ⟨fun htable => h.1 htable.1, noTable_of_dropLast h.2⟩

theorem noTable_crlf (t : Text) : NoTable (lines (crlf t)) := by
  obtain ⟨ls, last, -, hcrlf⟩ := lines_crlf t
  refine noTable_of_dropLast ?_
  rw [hcrlf, List.dropLast_concat, List.forall_mem_map]
  exact fun l _ => not_isRow_concat_return l

/-- **There are no tables with returns**: with one in front of every break no header is a row. -/
theorem tables_crlf (t : Text) : tables (crlf t) = crlf t := tables_eq_self (noTable_crlf t)

end Table

/-! ## Passes that read line by line -/

namespace Piece

/-- The piece without its returns. -/
def withoutReturns : Piece → Piece
  | .markup m => .markup (dropReturns m)
  | .line l => .line (dropReturns l)

theorem print_withoutReturns : ∀ ps : List Piece,
    print (ps.map withoutReturns) = dropReturns (print ps)
  | [] => rfl
  | .markup m :: ps => by
    rw [List.map_cons, withoutReturns, print_markup, print_withoutReturns ps, print_markup,
      dropReturns_append]
  | [.line l] => rfl
  | .line l :: p :: ps => by
    have ih := print_withoutReturns (p :: ps)
    rw [List.map_cons] at ih
    rw [List.map_cons, List.map_cons, withoutReturns, print_line_cons, ih, print_line_cons,
      dropReturns_append, dropReturns_cons (by decide)]

theorem returns_print : ∀ ps : List Piece,
    (∀ m, .markup m ∈ ps → Returns S none m) → (∀ l, .line l ∈ ps → Returns S (some '\n') l) →
      (∀ l, ps.getLast? = some (.line l) → Returns S none l) → Returns S none (print ps)
  | [], _, _, _ => trivial
  | .markup m :: ps, hmarkup, hline, hlast => by
    refine (hmarkup m List.mem_cons_self).append (returns_print ps
      (fun m' h => hmarkup m' (List.mem_cons_of_mem _ h))
      (fun l h => hline l (List.mem_cons_of_mem _ h)) fun l h => hlast l ?_)
    cases ps with
    | nil => simp at h
    | cons p ps => rwa [List.getLast?_cons_cons]
  | [.line l], _, _, hlast => hlast l rfl
  | .line l :: p :: ps, hmarkup, hline, hlast => by
    rw [print_line_cons, returns_append, returns_cons (by decide)]
    refine ⟨hline l List.mem_cons_self, returns_print (p :: ps)
      (fun m h => hmarkup m (List.mem_cons_of_mem _ h))
      (fun l h => hline l (List.mem_cons_of_mem _ h)) fun l h => hlast l ?_⟩
    rwa [List.getLast?_cons_cons]

/-- A printed line with a break after it ends as the line piece in front of that break. -/
theorem getLast?_of_mem_dropLast_print {c : Char} : ∀ (ps : List Piece) (pre : Text)
    {fresh : Bool}, '\n' ∉ pre → TagFirst fresh ps →
      (∀ l, .line l ∈ ps.dropLast → l.getLast? = some c) →
        ∀ l ∈ (lines (pre ++ print ps)).dropLast, l.getLast? = some c
  | [], pre, _, hbreak, _, _ => by
    rw [print, List.append_nil, lines_of_break_not_mem hbreak]
    simp
  | .markup m :: ps, pre, _, hbreak, htag, hline => by
    rw [print_markup, ← List.append_assoc]
    refine getLast?_of_mem_dropLast_print ps _ (by simp [hbreak, htag.2.1]) htag.2.2 fun l hl => ?_
    cases ps with
    | nil => simp at hl
    | cons p ps => exact hline l (List.mem_cons_of_mem _ hl)
  | [.line l], pre, _, hbreak, htag, _ => by
    rw [print, lines_of_break_not_mem (by simp [hbreak, htag.1])]
    simp
  | .line l :: p :: ps, pre, _, hbreak, htag, hline => by
    have ih := getLast?_of_mem_dropLast_print (p :: ps) [] (by simp) htag.2
      fun l' hl => hline l' (List.mem_cons_of_mem _ hl)
    have hl : l.getLast? = some c := hline l List.mem_cons_self
    rw [print_line_cons, ← List.append_assoc, lines_append_break,
      lines_of_break_not_mem (by simp [hbreak, htag.1]), List.singleton_append,
      List.dropLast_cons_of_ne_nil (lines_ne_nil _), List.forall_mem_cons]
    exact ⟨by rw [List.getLast?_append, hl, Option.some_or], ih⟩

end Piece

namespace LineScan

variable {Q : LineScan}

/-- A pass that reads a text line by line goes well with returns if the lines are written alike with
returns and without, the returns of its markup stand before tags, and what it does not write as it
stands is markup. -/
theorem run_dropReturns
    (hlast : ∀ ls l, ¬ Q.Plain l → Q.Takes (ls ++ [l]))
    (hmem : ∀ ls l, .line l ∈ Q.pieces ls → l ∈ ls) {t : Text} (h : Tidy t)
    (hmarkup : ∀ m, .markup m ∈ Q.pieces (lines t) → Returns ['\n', '<'] none m)
    (hpieces : Q.pieces ((lines t).map dropReturns) =
      (Q.pieces (lines t)).map Piece.withoutReturns) :
    Q.run (dropReturns t) = dropReturns (Q.run t) ∧ Tidy (Q.run t) := by
  refine ⟨?_, Piece.returns_print _ hmarkup ?_ ?_, ?_⟩
  · rw [run, lines_dropReturns, hpieces, Piece.print_withoutReturns, run]
  · exact fun l hl => h.returns.of_mem_lines (hmem _ l hl)
  · intro l hl
    obtain ⟨ls, last, hlines, -, hreturns⟩ := h.returns.exists_lines
    rw [hlines] at hl
    by_cases hplain : Q.Plain last
    · rw [Q.pieces_concat hplain, List.getLast?_concat] at hl
      rw [← Piece.line.inj (Option.some.inj hl)]
      exact hreturns
    · obtain ⟨m, hm⟩ := hlast ls last hplain
      rw [hm] at hl
      cases hl
  · exact Q.forall_mem_lines_run (Or.inr (by simp)) (fun _ => Or.inl rfl)
      fun l hl => h.inner l (hmem _ l hl)

end LineScan

/-! ## Quotes -/

namespace QuoteLine

/-- The line is the markers of a quote line and one blank, and says nothing. -/
def IsBare (l : Text) : Prop :=
  l.takeWhile (· == '>') ≠ [] ∧ ∃ b ∈ l, isBlank b = true ∧ l.dropWhile (· == '>') = [b]

instance (l : Text) : Decidable (IsBare l) := inferInstanceAs (Decidable (_ ∧ _))

/-- The quote line without its returns. -/
def withoutReturns (q : QuoteLine) : QuoteLine := ⟨q.depth, dropReturns q.content⟩

theorem ofLine?_concat_return {x : Text} (h : ¬ IsBare x) :
    ofLine? (x ++ ['\r']) = (ofLine? x).map fun q => ⟨q.depth, q.content ++ ['\r']⟩ := by
  have htake := takeWhile_concat_of_neg (p := (· == '>')) (c := '\r') (by decide) x
  have hdrop := dropWhile_concat_of_neg (p := (· == '>')) (c := '\r') (by decide) x
  simp only [ofLine?, htake, hdrop]
  rcases hx : x.dropWhile (· == '>') with _ | ⟨b, _ | ⟨c, rest⟩⟩
  · rfl
  · have hb : b ∈ x := (List.dropWhile_suffix (· == '>')).subset (by rw [hx]; exact List.mem_cons_self)
    have hbare : ¬ (x.takeWhile (· == '>') ≠ [] ∧ isBlank b = true) := fun hquote =>
      h ⟨hquote.1, b, hb, hquote.2, hx⟩
    simp only [List.cons_append, List.nil_append, if_neg hbare]
    rfl
  · by_cases hquote : x.takeWhile (· == '>') ≠ [] ∧ isBlank b = true
    · simp only [List.cons_append, if_pos hquote]
      rfl
    · simp only [List.cons_append, if_neg hquote]
      rfl

/-- A return makes a quote line of a bare line, which is none. -/
theorem ofLine?_of_isBare {x : Text} (h : IsBare x) :
    ofLine? x = none ∧ (QuoteLine.ofLine? (x ++ ['\r'])).isSome := by
  obtain ⟨hmarkers, b, -, hb, hx⟩ := h
  have htake := takeWhile_concat_of_neg (p := (· == '>')) (c := '\r') (by decide) x
  have hdrop := dropWhile_concat_of_neg (p := (· == '>')) (c := '\r') (by decide) x
  simp only [QuoteLine.ofLine?, htake, hdrop, hx, List.cons_append, List.nil_append]
  exact ⟨trivial, by rw [if_pos ⟨hmarkers, hb⟩]; rfl⟩

theorem ofLine?_dropReturns {l : Text} (hinner : '\r' ∉ l.dropLast)
    (h : '\r' ∈ l → ¬ IsBare (dropReturns l)) :
    ofLine? (dropReturns l) = (ofLine? l).map withoutReturns := by
  have hself : ∀ {x : Text}, '\r' ∉ x → ∀ q ∈ ofLine? x, dropReturns q.content = q.content := by
    intro x hx q hq
    obtain ⟨b, rfl, -, -⟩ := ofLine?_eq_some hq
    exact dropReturns_eq_self fun hm => hx (by simp [hm])
  rcases eq_concat_return hinner with hr | ⟨x, hr, rfl⟩
  · rw [dropReturns_eq_self hr]
    cases hq : ofLine? l with
    | none => rfl
    | some q => rw [Option.map_some, withoutReturns, hself hr q hq]
  · rw [dropReturns_concat_return hr] at h ⊢
    rw [ofLine?_concat_return (h (by simp))]
    cases hq : ofLine? x with
    | none => rfl
    | some q =>
      simp only [Option.map_some, withoutReturns, dropReturns_append, hself hr q hq]
      simp

/-- What holds of a tag, of the lines and of what the quote lines say holds of all that is written. -/
theorem forall_mem_pieces {P : Piece → Prop} (hclose : P (.markup (closeTag "blockquote".toList)))
    (hopen : P (.markup (openTag "blockquote".toList))) {ls : List Text}
    (hline : ∀ l ∈ ls, ofLine? l = none → P (.line l))
    (hquote : ∀ l ∈ ls, ∀ q ∈ ofLine? l, P (.markup (q.content ++ "<br>".toList))) :
    ∀ depth, ∀ p ∈ pieces depth ls, P p := by
  have hstep : ∀ source target, ∀ p ∈ step source target, P p := by
    intro source target p hp
    rcases List.mem_append.1 hp with hp | hp
    · rwa [(List.mem_replicate.1 hp).2]
    · rwa [(List.mem_replicate.1 hp).2]
  induction ls with
  | nil => exact fun depth => hstep depth 0
  | cons l ls ih =>
    rw [List.forall_mem_cons] at hline hquote
    have ih := ih hline.2 hquote.2
    intro depth p hp
    simp only [pieces] at hp
    split at hp
    · next q hq =>
      rcases List.mem_append.1 hp with hp | hp
      · exact hstep _ _ p hp
      rcases List.mem_cons.1 hp with rfl | hp
      · exact hquote.1 q hq
      · exact ih _ p hp
    · next hq =>
      rcases List.mem_append.1 hp with hp | hp
      · exact hstep _ _ p hp
      rcases List.mem_cons.1 hp with rfl | hp
      · exact hline.1 hq
      · exact ih _ p hp

theorem mem_of_line_mem_pieces {ls : List Text} {l : Text} {depth : Nat}
    (h : .line l ∈ pieces depth ls) : l ∈ ls ∧ ofLine? l = none :=
  forall_mem_pieces (P := fun p => ∀ l, p = .line l → l ∈ ls ∧ ofLine? l = none)
    (fun _ he => by cases he) (fun _ he => by cases he)
    (fun _ hl hnone _ he => by cases he; exact ⟨hl, hnone⟩) (fun _ _ _ _ _ he => by cases he)
    depth _ h l rfl

theorem step_withoutReturns (source target : Nat) :
    (step source target).map Piece.withoutReturns = step source target := by
  have hclose : dropReturns (closeTag "blockquote".toList) = closeTag "blockquote".toList :=
    dropReturns_eq_self (by decide)
  have hopen : dropReturns (openTag "blockquote".toList) = openTag "blockquote".toList :=
    dropReturns_eq_self (by decide)
  rw [step, List.map_append, List.map_replicate, List.map_replicate, Piece.withoutReturns,
    Piece.withoutReturns, hclose, hopen]

theorem pieces_dropReturns {ls : List Text}
    (h : ∀ l ∈ ls, ofLine? (dropReturns l) = (ofLine? l).map withoutReturns) : ∀ depth,
    pieces depth (ls.map dropReturns) = (pieces depth ls).map Piece.withoutReturns := by
  have hbr : dropReturns "<br>".toList = "<br>".toList := dropReturns_eq_self (by decide)
  induction ls with
  | nil => exact fun depth => (step_withoutReturns depth 0).symm
  | cons l ls ih =>
    rw [List.forall_mem_cons] at h
    have ih := ih h.2
    intro depth
    rw [List.map_cons, pieces, pieces, h.1]
    cases ofLine? l with
    | none =>
      simp only [Option.map_none, List.map_append, List.map_cons, step_withoutReturns, ih]
      rfl
    | some q =>
      simp only [Option.map_some, List.map_append, List.map_cons, step_withoutReturns, ih,
        withoutReturns, Piece.withoutReturns, dropReturns_append, hbr]

/-- Quotes go well with returns if no quote line above the last line is bare. -/
theorem blockquotes_crlf {t : Text} (h : '\r' ∉ t) (hbare : ∀ l ∈ (lines t).dropLast, ¬ IsBare l) :
    blockquotes t = dropReturns (blockquotes (crlf t)) ∧ Tidy (blockquotes (crlf t)) := by
  have hrun := LineScan.run_dropReturns (Q := scan)
    (fun ls l hl => takes_concat_iff.2 (Option.isSome_iff_ne_none.2 hl))
    (fun _ _ hl => (mem_of_line_mem_pieces hl).1) (tidy_crlf h) ?_ (pieces_dropReturns (fun l hl => ?_) 0)
  · rwa [dropReturns_crlf h] at hrun
  · refine fun m hm => forall_mem_pieces (P := fun p => ∀ m, p = .markup m → Returns ['\n', '<'] none m)
      ?_ ?_ ?_ ?_ 0 _ hm m rfl
    · rintro _ ⟨⟩
      exact returns_of_not_mem (by decide)
    · rintro _ ⟨⟩
      exact returns_of_not_mem (by decide)
    · rintro l hl hnone m ⟨⟩
    · rintro l hl q hq _ ⟨⟩
      obtain ⟨b, hline, -, -⟩ := ofLine?_eq_some hq
      have hbreak := break_not_mem_of_mem_lines hl
      have hcontent : q.content <:+ l := ⟨List.replicate q.depth '>' ++ [b], by rw [hline]; simp⟩
      have hend := (((returns_crlf h).of_mem_lines hl).of_suffix hcontent).before
        (fun hm => hbreak (hcontent.subset hm)) '<'
      exact returns_append.2 ⟨hend.mono (by simp), returns_of_not_mem (by decide)⟩
  · rcases mem_lines_crlf h hl with hr | ⟨x, hx, hr, rfl⟩
    · exact ofLine?_dropReturns (fun hm => hr (List.mem_of_mem_dropLast hm)) fun hm => absurd hm hr
    · refine ofLine?_dropReturns (by rwa [List.dropLast_concat]) fun _ => ?_
      rw [dropReturns_concat_return hr]
      exact hbare x hx

/-- What the quotes of a text with a return in front of every break leave in front of a break is a
return. -/
theorem getLast?_of_mem_dropLast_blockquotes {t l : Text}
    (hl : l ∈ (lines (blockquotes (crlf t))).dropLast) : l.getLast? = some '\r' := by
  obtain ⟨ls, last, -, hcrlf⟩ := lines_crlf t
  have hbreak := fun l (hl : l ∈ lines (crlf t)) => break_not_mem_of_mem_lines hl
  refine Piece.getLast?_of_mem_dropLast_print _ [] (by simp) (scan.tagFirst _ hbreak) ?_ l hl
  intro l hl
  suffices habove : l ∈ ls.map (· ++ ['\r']) by
    obtain ⟨x, -, rfl⟩ := List.mem_map.1 habove
    exact List.getLast?_concat
  rw [hcrlf] at hl
  by_cases hlast : ofLine? last = none
  · rw [scan.pieces_concat hlast, List.dropLast_concat] at hl
    exact (mem_of_line_mem_pieces hl).1
  · obtain ⟨hmem, hnone⟩ := mem_of_line_mem_pieces (List.mem_of_mem_dropLast hl)
    rcases List.mem_append.1 hmem with hmem | hmem
    · exact hmem
    · rw [List.mem_singleton.1 hmem] at hnone
      exact absurd hnone hlast

end QuoteLine

/-! ## Lists -/

namespace Listing

/-- The line is the indent and the marker of an item and one blank, and says nothing. -/
def IsBare (l : Text) : Prop :=
  ∃ b ∈ l, isBlank b = true ∧ (marker? (l.dropWhile isBlank)).map Prod.snd = some [b]

instance (l : Text) : Decidable (IsBare l) := inferInstanceAs (Decidable (∃ b ∈ l, _))

theorem not_isBare_tag (l : Text) : ¬ IsBare ('<' :: l) := by
  rintro ⟨b, -, -, hm⟩
  rw [List.dropWhile_cons_of_neg (by decide), marker?, if_neg (by decide), if_neg (by decide)] at hm
  cases hm

theorem marker?_concat_return (x : Text) :
    marker? (x ++ ['\r']) = (marker? x).map fun (kind, rest) => (kind, rest ++ ['\r']) := by
  cases x with
  | nil => rfl
  | cons c x =>
    have hdigits := dropWhile_concat_of_neg (p := isDecimalDigit) (c := '\r') (by decide) (c :: x)
    simp only [List.cons_append] at hdigits
    simp only [marker?, List.cons_append, hdigits]
    split
    · rfl
    · split
      · cases (c :: x).dropWhile isDecimalDigit with
        | nil => rfl
        | cons d y =>
          simp only [List.cons_append, isPrefixOf?_cons_cons]
          split <;> rfl
      · rfl

/-- A return at the end of a line that is not bare is trimmed off what the item says. -/
theorem item?_concat_return {x : Text} (h : ¬ IsBare x) : item? (x ++ ['\r']) = item? x := by
  have hblank : isBlank '\r' = true := by decide
  have hx := List.takeWhile_append_dropWhile (p := isBlank) (l := x)
  cases hy : x.dropWhile isBlank with
  | nil =>
    have hnil : (x ++ ['\r']).dropWhile isBlank = [] := by
      rw [List.dropWhile_append, hy]
      simp [hblank]
    rw [item?, item?, hy, hnil]
    rfl
  | cons c y =>
    have htake : (x ++ ['\r']).takeWhile isBlank = x.takeWhile isBlank := by
      have hlength := congrArg List.length hx
      rw [hy, List.length_append, List.length_cons] at hlength
      rw [List.takeWhile_append, if_neg (by omega)]
    have hdrop : (x ++ ['\r']).dropWhile isBlank = c :: y ++ ['\r'] := by
      rw [List.dropWhile_append, hy]
      simp
    rw [item?, item?, hy, hdrop, htake, marker?_concat_return]
    cases hm : marker? (c :: y) with
    | none => rfl
    | some marker =>
      obtain ⟨kind, _ | ⟨b, _ | ⟨d, rest⟩⟩⟩ := marker
      · rfl
      · have hb : isBlank b = false := by
          obtain ⟨m, hshape, -⟩ := marker?_eq_some hm
          have hmem : b ∈ x := by
            rw [← hx, hy, hshape]
            simp
          refine Bool.eq_false_iff.2 fun hb => h ⟨b, hmem, hb, ?_⟩
          rw [hy, hm]
          rfl
        simp [hb]
      · have htrim := trim_concat hblank (d :: rest)
        simp only [Option.map_some, List.cons_append] at htrim ⊢
        rw [htrim]

/-- A return makes an item of a bare line, which is none. -/
theorem item?_of_isBare {x : Text} (h : IsBare x) :
    item? x = none ∧ (Listing.item? (x ++ ['\r'])).isSome := by
  obtain ⟨b, -, hb, hm⟩ := h
  obtain ⟨⟨kind, rest⟩, hm, hrest⟩ := Option.map_eq_some_iff.1 hm
  obtain rfl : rest = [b] := hrest
  have hdrop : (x ++ ['\r']).dropWhile isBlank = x.dropWhile isBlank ++ ['\r'] := by
    rw [List.dropWhile_append, if_neg]
    intro hnil
    rw [List.isEmpty_iff.1 hnil] at hm
    cases hm
  rw [Listing.item?, Listing.item?, hdrop, marker?_concat_return, hm]
  exact ⟨rfl, by simp [hb]⟩

theorem item?_dropReturns {l : Text} (hinner : l.head? = some '<' ∨ '\r' ∉ l.dropLast)
    (h : '\r' ∈ l → ¬ IsBare (dropReturns l)) : item? (dropReturns l) = item? l := by
  rcases hinner with hhead | hinner
  · obtain ⟨u, rfl⟩ := List.head?_eq_some_iff.1 hhead
    rw [dropReturns_tag, item?_tag, item?_tag]
  · rcases eq_concat_return hinner with hr | ⟨x, hr, rfl⟩
    · rw [dropReturns_eq_self hr]
    · rw [dropReturns_concat_return hr] at h ⊢
      exact (item?_concat_return (h (by simp))).symm

/-- What holds of the tags, of the lines and of what the items say holds of all that is written. -/
theorem forall_mem_pieces {P : Piece → Prop} (hopen : ∀ f, P (Event.opens f).piece)
    (hclose : ∀ f, P (Event.closes f).piece) {ls : List Text}
    (hline : ∀ l ∈ ls, item? l = none → P (.line l))
    (hitem : ∀ l ∈ ls, ∀ i ∈ item? l, P (Event.item i).piece) :
    ∀ stack, ∀ e ∈ events stack ls, P e.piece := by
  induction ls with
  | nil =>
    intro stack e he
    obtain ⟨f, -, rfl⟩ := List.mem_map.1 he
    exact hclose f
  | cons l ls ih =>
    rw [List.forall_mem_cons] at hline hitem
    have ih := ih hline.2 hitem.2
    intro stack e he
    simp only [events] at he
    split at he
    · next i hi =>
      simp only [List.mem_append, List.mem_map, List.mem_cons] at he
      rcases he with (⟨f, -, rfl⟩ | ⟨f, -, rfl⟩) | rfl | he
      · exact hclose f
      · exact hopen f
      · exact hitem.1 i hi
      · exact ih _ e he
    · next hi =>
      simp only [List.mem_append, List.mem_map, List.mem_cons] at he
      rcases he with ⟨f, -, rfl⟩ | rfl | he
      · exact hclose f
      · exact hline.1 hi
      · exact ih _ e he

theorem mem_of_line_mem_pieces {ls : List Text} {l : Text}
    (h : .line l ∈ (events [] ls).map Event.piece) : l ∈ ls ∧ item? l = none := by
  obtain ⟨e, he, hpiece⟩ := List.mem_map.1 h
  exact forall_mem_pieces (P := fun p => ∀ l, p = .line l → l ∈ ls ∧ item? l = none)
    (fun _ _ h => by cases h) (fun _ _ h => by cases h)
    (fun _ hl hnone _ h => by cases h; exact ⟨hl, hnone⟩) (fun _ _ _ _ _ h => by cases h)
    [] e he l hpiece

theorem return_not_mem_tag (k : Kind) : '\r' ∉ openTag k.tag ∧ '\r' ∉ closeTag k.tag := by
  cases k <;> decide

/-- What an item says has no return, not even if its line ends in one. -/
theorem return_not_mem_content {l : Text} {i : Item}
    (hinner : l.head? = some '<' ∨ '\r' ∉ l.dropLast) (h : '\r' ∈ l → ¬ IsBare (dropReturns l))
    (hi : item? l = some i) : '\r' ∉ i.content := by
  rw [← item?_dropReturns hinner h] at hi
  obtain ⟨indent, m, b, rest, hl, -, -, -, hcontent⟩ := item?_eq_some hi
  intro hm
  rw [hcontent] at hm
  refine return_not_mem_dropReturns l ?_
  rw [hl]
  simp [mem_of_mem_trim hm]

theorem pieces_dropReturns {ls : List Text}
    (h : ∀ l ∈ ls, item? (dropReturns l) = item? l ∧ ∀ i ∈ item? l, '\r' ∉ i.content) : ∀ stack,
    (events stack (ls.map dropReturns)).map Event.piece =
      ((events stack ls).map Event.piece).map Piece.withoutReturns := by
  have hopen : ∀ f, (Event.opens f).piece.withoutReturns = (Event.opens f).piece := fun f =>
    congrArg Piece.markup (dropReturns_eq_self (return_not_mem_tag f.kind).1)
  have hclose : ∀ f, (Event.closes f).piece.withoutReturns = (Event.closes f).piece := fun f =>
    congrArg Piece.markup (dropReturns_eq_self (return_not_mem_tag f.kind).2)
  induction ls with
  | nil =>
    intro stack
    simp [events, hclose]
  | cons l ls ih =>
    rw [List.forall_mem_cons] at h
    have ih := ih h.2
    obtain ⟨⟨hl, hcontent⟩, -⟩ := h
    intro stack
    rw [List.map_cons, events, events, hl]
    cases hi : item? l with
    | none =>
      simp only [List.map_append, List.map_cons, List.map_map, Function.comp_def, hclose, ih]
      rfl
    | some i =>
      have hitem : (Event.item i).piece.withoutReturns = (Event.item i).piece := by
        refine congrArg Piece.markup ?_
        rw [dropReturns_element (by decide), dropReturns_eq_self (hcontent i hi)]
      simp only [List.map_append, List.map_cons, List.map_map, Function.comp_def, hclose, hopen,
        hitem, ih]

/-- Lists go well with returns if no item above the last line is bare. -/
theorem lists_dropReturns {t : Text} (h : Tidy t)
    (hbare : ∀ l ∈ (lines (dropReturns t)).dropLast, ¬ IsBare l) :
    lists (dropReturns t) = dropReturns (lists t) ∧ Tidy (lists t) := by
  have hbare : ∀ l ∈ lines t, '\r' ∈ l → ¬ IsBare (dropReturns l) := by
    intro l hl hr
    rcases h.inner l hl with hhead | hinner
    · obtain ⟨u, rfl⟩ := List.head?_eq_some_iff.1 hhead
      rw [dropReturns_tag]
      exact not_isBare_tag _
    · exact hbare _ (h.dropReturns_mem_dropLast hl hinner hr)
  have hline : ∀ l ∈ lines t, item? (dropReturns l) = item? l ∧ ∀ i ∈ item? l, '\r' ∉ i.content :=
    fun l hl => ⟨item?_dropReturns (h.inner l hl) (hbare l hl),
      fun i hi => return_not_mem_content (h.inner l hl) (hbare l hl) hi⟩
  refine LineScan.run_dropReturns (Q := scan) ?_ ?_ h ?_ (pieces_dropReturns hline [])
  · exact fun ls l hl => takes_concat_iff.2 (Option.isSome_iff_ne_none.2 hl)
  · exact fun ls l hl => (mem_of_line_mem_pieces hl).1
  · intro m hm
    obtain ⟨e, he, hpiece⟩ := List.mem_map.1 hm
    refine forall_mem_pieces (P := fun p => ∀ m, p = .markup m → Returns ['\n', '<'] none m)
      ?_ ?_ ?_ ?_ [] e he m hpiece
    · rintro f _ ⟨⟩
      exact returns_of_not_mem (return_not_mem_tag f.kind).1
    · rintro f _ ⟨⟩
      exact returns_of_not_mem (return_not_mem_tag f.kind).2
    · rintro l hl hnone _ ⟨⟩
    · rintro l hl i hi _ ⟨⟩
      exact (returns_of_not_mem ((hline l hl).2 i hi)).element (by decide)

end Listing

end MarkdownPreview

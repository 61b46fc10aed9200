import MarkdownPreview.Markup.Piece
import MarkdownPreview.Text.Line
import MarkdownPreview.Text.Pattern
/-!
# What a line break separates

A text with a line break in it is two texts, one above the other. The lines of the two do not mix
(`lines_append_break`), a change line by line changes them apart (`mapLines_append_break`), pieces
print one after the other (`print_append`), and a rewriting whose spans stay on one side of the
break rewrites them apart (`replace_append_break`).

`Line.Cut` says what the lines of a text look like, and lines that look like that are cut into
themselves again when they are printed (`Line.Cut.ofText_print`).
-/

namespace MarkdownPreview

namespace Text

/-! ## Lines -/

theorem lines_append_break (s t : Text) : lines (s ++ '\n' :: t) = lines s ++ lines t :=
  List.splitOn_append_cons_self s t

theorem lines_ne_nil (t : Text) : lines t ≠ [] := List.splitOn_ne_nil '\n' t

/-- A part of a text cut at some characters has none of them, and all that it has is in the text. -/
theorem mem_splitOnP {p : Char → Bool} {t part : Text} (h : part ∈ t.splitOnP p) :
    ∀ x ∈ part, p x = false ∧ x ∈ t := by
  induction t generalizing part with
  | nil => simp_all
  | cons c t ih =>
    rw [List.splitOnP_cons_eq_if_modifyHead] at h
    obtain ⟨first, rest, ht⟩ := List.exists_cons_of_ne_nil (List.splitOnP_ne_nil p t)
    rw [ht] at h ih
    have hrest : ∀ part ∈ first :: rest, ∀ x ∈ part, p x = false ∧ x ∈ c :: t :=
      fun part hpart x hx => ⟨(ih hpart x hx).1, List.mem_cons_of_mem _ (ih hpart x hx).2⟩
    by_cases hc : p c = true
    · rw [if_pos hc] at h
      rcases List.mem_cons.1 h with rfl | h
      · simp
      · exact hrest part h
    · rw [if_neg hc, List.modifyHead_cons] at h
      rcases List.mem_cons.1 h with rfl | h
      · intro x hx
        rcases List.mem_cons.1 hx with rfl | hx
        · exact ⟨by simpa using hc, List.mem_cons_self⟩
        · exact hrest first List.mem_cons_self x hx
      · exact hrest part (List.mem_cons_of_mem _ h)

theorem mem_splitOn {a : Char} {t part : Text} (h : part ∈ t.splitOn a) :
    a ∉ part ∧ ∀ x ∈ part, x ∈ t := by
  have hmem := mem_splitOnP h
  exact ⟨fun ha => by simpa using (hmem a ha).1, fun x hx => (hmem x hx).2⟩

/-- No line has a break in it. -/
theorem break_not_mem_of_mem_lines {t l : Text} (h : l ∈ lines t) : '\n' ∉ l := (mem_splitOn h).1

theorem lines_of_break_not_mem {t : Text} (h : '\n' ∉ t) :
    lines t = [t] := List.splitOn_eq_singleton h

theorem joinLines_cons_cons (l l' : Text) (ls : List Text) :
    joinLines (l :: l' :: ls) = l ++ '\n' :: joinLines (l' :: ls) := by
  simp [joinLines]

theorem isInfix_joinLines {ls : List Text} {l : Text} (h : l ∈ ls) : l <:+: joinLines ls := by
  induction ls with
  | nil => simp at h
  | cons a ls ih =>
    cases ls with
    | nil =>
      rw [List.mem_singleton.1 h]
      simp [joinLines]
    | cons b ls =>
      rw [joinLines_cons_cons]
      rcases List.mem_cons.1 h with rfl | h
      · exact (List.prefix_append _ _).isInfix
      · exact (ih h).trans ⟨a ++ ['\n'], [], by simp⟩

theorem isInfix_of_mem_lines {t l : Text} (h : l ∈ lines t) : l <:+: t := by
  have hjoin := isInfix_joinLines h
  rwa [joinLines_lines] at hjoin

/-- A part of a text stands on one side of every character that it lacks. -/
theorem isInfix_or_of_append_cons {c : Char} {y a b : Text} (h : y <:+: a ++ c :: b) (hy : c ∉ y) :
    y <:+: a ∨ y <:+: b := by
  have hnil : ∀ z, z <+: c :: b → c ∉ z → z = [] := by
    intro z hz hc
    rcases List.prefix_cons_iff.1 hz with rfl | ⟨w, rfl, -⟩
    · rfl
    · exact absurd List.mem_cons_self hc
  rcases List.infix_append_iff.1 h with h | h | ⟨y1, y2, rfl, h1, h2⟩
  · exact Or.inl h
  · rcases List.infix_cons_iff.1 h with h | h
    · rw [hnil y h hy]
      exact Or.inl (List.nil_infix)
    · exact Or.inr h
  · rw [hnil y2 h2 fun hm => hy (List.mem_append_right _ hm), List.append_nil]
    exact Or.inl h1.isInfix

theorem exists_mem_lines_of_isInfix {y t : Text} (h : y <:+: t) (hy : '\n' ∉ y) :
    ∃ l ∈ lines t, y <:+: l := by
  have hlines : ∀ ls : List Text, ls ≠ [] → y <:+: joinLines ls → ∃ l ∈ ls, y <:+: l := by
    intro ls
    induction ls with
    | nil => intro hne; exact absurd rfl hne
    | cons a ls ih =>
      intro _ h
      cases ls with
      | nil => exact ⟨a, List.mem_cons_self, by simpa [joinLines] using h⟩
      | cons b ls =>
        rw [joinLines_cons_cons] at h
        rcases isInfix_or_of_append_cons h hy with h | h
        · exact ⟨a, List.mem_cons_self, h⟩
        · obtain ⟨l, hl, h⟩ := ih (by simp) h
          exact ⟨l, List.mem_cons_of_mem _ hl, h⟩
  rw [← joinLines_lines t] at h
  exact hlines (lines t) (lines_ne_nil t) h

/-! ## Lines with their breaks -/

namespace Line

/-- A line is a part of its text. -/
theorem isInfix_body {t : Text} {l : Line} (h : l ∈ ofText t) : l.body <:+: t := by
  obtain ⟨above, below, hlines⟩ := List.append_of_mem h
  have hprint := print_ofText t
  rw [hlines] at hprint
  refine ⟨print above, l.endingText ++ print below, ?_⟩
  rw [← hprint]
  simp [print]

theorem ofText_cons {c : Char} (hc : c ≠ '\n' ∧ c ≠ '\r') (t : Text) :
    ofText (c :: t) = consFirst c (ofText t) := by
  rw [ofText.eq_3 _ _ (by simp [hc.2]), if_neg hc.1, if_neg hc.2]

theorem ofText_of_break_not_mem {t : Text} (ht : '\n' ∉ t ∧ '\r' ∉ t) :
    ofText t = [⟨t, none⟩] := by
  induction t with
  | nil => rfl
  | cons c t ih =>
    simp only [List.mem_cons, not_or] at ht
    rw [ofText_cons ⟨Ne.symm ht.1.1, Ne.symm ht.2.1⟩, ih ⟨ht.1.2, ht.2.2⟩]
    rfl

/-- Put a text in front of the first line. -/
def prepend (s : Text) : List Line → List Line
  | [] => [⟨s, none⟩]
  | l :: ls => ⟨s ++ l.body, l.ending⟩ :: ls

theorem prepend_consFirst (s : Text) (c : Char) (ls : List Line) :
    prepend s (consFirst c ls) = prepend (s ++ [c]) ls := by
  cases ls <;> simp [prepend, consFirst]

theorem ofText_ne_nil (t : Text) : ofText t ≠ [] := by
  fun_induction ofText t with
  | case5 c t _ _ _ ih => cases h : ofText t <;> simp [consFirst]
  | _ => simp

theorem prepend_nil (t : Text) : prepend [] (ofText t) = ofText t := by
  obtain ⟨l, ls, h⟩ := List.exists_cons_of_ne_nil (ofText_ne_nil t)
  simp [h, prepend]

/-- The text of some lines after each of them was changed. -/
def printMap (f : Text → Text) (ls : List Line) : Text :=
  print (ls.map fun l => { l with body := f l.body })

theorem printMap_prepend_cons (f : Text → Text) (s : Text) (l : Line) (ls : List Line) :
    printMap f (prepend s (l :: ls)) = f (s ++ l.body) ++ l.endingText ++ printMap f ls := by
  simp [printMap, prepend, print, endingText]

theorem printMap_nil (f : Text → Text) : printMap f [] = [] := rfl

theorem printMap_ofText (f : Text → Text) (t : Text) : printMap f (ofText t) = mapLines f t := rfl

/-- The lines above a break and the lines below it are changed apart. A `'\r'` before the break
joins it, which is no matter as long as the empty line between the two stays empty. The induction is
on the text above, with `s` the part of the current line that was read already. -/
theorem printMap_append_break {f : Text → Text} (hf : f [] = []) (a b : Text) : ∀ s : Text,
    printMap f (prepend s (ofText (a ++ '\n' :: b))) =
      printMap f (prepend s (ofText a)) ++ '\n' :: mapLines f b := by
  fun_induction ofText a with
  | case1 =>
    intro s
    simp [ofText, printMap_prepend_cons, endingText, LineBreak.text, printMap_nil, printMap_ofText]
  | case2 t ih =>
    intro s
    have h := ih []
    simp only [prepend_nil, printMap_ofText] at h
    simp [ofText, printMap_prepend_cons, printMap_ofText, h, endingText]
  | case3 t hlf ih =>
    intro s
    have h := ih []
    simp only [prepend_nil, printMap_ofText] at h
    simp [ofText, printMap_prepend_cons, printMap_ofText, h, endingText]
  | case4 t hcr hlf ih =>
    intro s
    cases t with
    | nil =>
      have hempty : printMap f [⟨[], none⟩] = [] := by simp [printMap, print, hf, endingText]
      simp [ofText, printMap_prepend_cons, endingText, LineBreak.text, hempty, printMap_ofText]
    | cons d t =>
      have hd : d ≠ '\n' := fun e => hcr t rfl (by rw [e])
      have hline : ∀ u, ofText ('\r' :: d :: u) = ⟨[], some .cr⟩ :: ofText (d :: u) := by
        intro u; rw [ofText.eq_3 _ _ (by simp_all)]; simp
      have h := ih []
      simp only [prepend_nil, printMap_ofText, List.cons_append] at h
      simp only [List.cons_append, hline, printMap_prepend_cons, printMap_ofText, h,
        List.append_assoc]
  | case5 c t hcr hlf hne ih =>
    intro s
    have hline : ofText (c :: t ++ '\n' :: b) = consFirst c (ofText (t ++ '\n' :: b)) := by
      rw [List.cons_append, ofText.eq_3 _ _ (by simp_all)]; simp [hlf, hne]
    rw [hline, prepend_consFirst, prepend_consFirst]
    exact ih _

/-- Lines as a text is cut into them: none has a break in it, only the last has none behind it, and
an empty line that ends with `'\n'` does not stand below a lone `'\r'`. -/
inductive Cut : List Line → Prop
  | last {body : Text} : '\n' ∉ body ∧ '\r' ∉ body → Cut [⟨body, none⟩]
  | above {body : Text} {b : LineBreak} {ls : List Line} : '\n' ∉ body ∧ '\r' ∉ body →
    (b = .cr → ls.head? ≠ some ⟨[], some .lf⟩) → Cut ls → Cut (⟨body, some b⟩ :: ls)

theorem Cut.ending_ne_none {ls : List Line} (h : Cut ls) : ∀ l ∈ ls.dropLast, l.ending ≠ none := by
  induction h with
  | last => simp
  | @above body b ls _ _ hls ih =>
    have hne : ls ≠ [] := by cases hls <;> simp
    rw [List.dropLast_cons_of_ne_nil hne, List.forall_mem_cons]
    exact ⟨by simp, ih⟩

theorem Cut.consFirst {c : Char} (hc : c ≠ '\n' ∧ c ≠ '\r') {ls : List Line} (h : Cut ls) :
    Cut (consFirst c ls) := by
  have hbody : ∀ {body : Text}, '\n' ∉ body ∧ '\r' ∉ body → '\n' ∉ c :: body ∧ '\r' ∉ c :: body :=
    fun hb => by simp [hb.1, hb.2, Ne.symm hc.1, Ne.symm hc.2]
  cases h with
  | last hb => exact .last (hbody hb)
  | above hb hcr hls => exact .above (hbody hb) hcr hls

theorem cut_ofText (t : Text) : Cut (ofText t) := by
  fun_induction ofText t with
  | case1 => exact .last (by simp)
  | case2 t ih => exact .above (by simp) (by simp) ih
  | case3 t _ ih => exact .above (by simp) (by simp) ih
  | case4 t hcr _ ih =>
    refine .above (by simp) (fun _ hfirst => ?_) ih
    obtain ⟨ls, hls⟩ := List.head?_eq_some_iff.1 hfirst
    have ht := print_ofText t
    rw [hls] at ht
    exact hcr (print ls) rfl ht.symm
  | case5 c t _ hlf hne ih => exact ih.consFirst ⟨hlf, hne⟩

/-- Lines that print as a text that starts with `'\n'` start with an empty line that it ends. -/
theorem Cut.head?_print {ls : List Line} (h : Cut ls) (hprint : (print ls).head? = some '\n') :
    ls.head? = some ⟨[], some .lf⟩ := by
  cases h with
  | @last body hbody =>
    cases body with
    | nil => simp [print, endingText] at hprint
    | cons c body => simp_all [print]
  | @above body b ls hbody _ _ =>
    cases body with
    | nil => cases b <;> simp_all [print, endingText, LineBreak.text]
    | cons c body => simp_all [print]

theorem ofText_append_ending {body : Text} (hbody : '\n' ∉ body ∧ '\r' ∉ body) (b : LineBreak)
    {t : Text} (ht : b = .cr → t.head? ≠ some '\n') :
    ofText (body ++ b.text ++ t) = ⟨body, some b⟩ :: ofText t := by
  induction body with
  | nil =>
    cases b with
    | crlf => rfl
    | lf => exact ofText.eq_3 _ _ (by simp)
    | cr =>
      have hnext : ∀ u, t ≠ '\n' :: u := by
        rintro u rfl
        exact ht rfl rfl
      exact ofText.eq_3 _ _ fun u _ hu => hnext u hu
  | cons c body ih =>
    simp only [List.mem_cons, not_or] at hbody
    rw [List.cons_append, List.cons_append,
      ofText_cons ⟨Ne.symm hbody.1.1, Ne.symm hbody.2.1⟩, ih ⟨hbody.1.2, hbody.2.2⟩]
    rfl

/-- Printed lines are cut into the same lines again. -/
theorem Cut.ofText_print {ls : List Line} (h : Cut ls) : ofText (print ls) = ls := by
  induction h with
  | last hbody => simpa [print, endingText] using ofText_of_break_not_mem hbody
  | @above body b ls hbody hcr hls ih =>
    have hbreak := ofText_append_ending hbody b fun hb => mt hls.head?_print (hcr hb)
    rwa [ih] at hbreak

end Line

/-- Lines above and below a break are changed apart. -/
theorem mapLines_append_break {f : Text → Text} (hf : f [] = []) (a b : Text) :
    mapLines f (a ++ '\n' :: b) = mapLines f a ++ '\n' :: mapLines f b := by
  have h := Line.printMap_append_break hf a b []
  rwa [Line.prepend_nil, Line.prepend_nil] at h

/-! ## Rewritings -/

/-- A rewriting whose spans stay on one side of a break rewrites the two sides apart. `P` is what is
known of the text that is still to be read. -/
theorem Pattern.replace_append_break {p : Pattern} {P : Text → Prop}
    (hspan : ∀ t b, P t → p.spanAt? (t ++ '\n' :: b) =
      (p.spanAt? t).map fun (out, rest) => (out, rest ++ '\n' :: b))
    (hrest : ∀ t out rest, P t → p.spanAt? t = some (out, rest) → P rest)
    (htail : ∀ c t, P (c :: t) → p.spanAt? (c :: t) = none → P t) :
    ∀ (t b : Text), P t → p.replace (t ++ '\n' :: b) = p.replace t ++ '\n' :: p.replace b := by
  intro t
  induction hn : t.length using Nat.strongRecOn generalizing t with
  | ind n ih =>
    intro b ht
    have hb := hspan t b ht
    cases hs : p.spanAt? t with
    | some s =>
      obtain ⟨out, rest⟩ := s
      rw [hs] at hb
      have hlt := p.length_lt hs
      rw [replace_of_spanAt? hb, replace_of_spanAt? hs,
        ih rest.length (by omega) rest rfl b (hrest t out rest ht hs)]
      simp
    | none =>
      rw [hs] at hb
      cases t with
      | nil => rw [List.nil_append, replace_cons (by simpa using hb), replace_nil, List.nil_append]
      | cons c t =>
        rw [List.cons_append, replace_cons (by simpa using hb), replace_cons hs,
          ih t.length (by simp at hn; omega) t rfl b (htail c t ht hs), List.cons_append]

end Text

/-! ## Pieces -/

namespace Piece

/-- What comes between some pieces and the ones after them: a break after a line, nothing after
markup. -/
def gap (ps : List Piece) : Text :=
  match ps.getLast? with
  | some (.line _) => ['\n']
  | _ => []

theorem gap_append_line (ps : List Piece) (l : Text) : gap (ps ++ [.line l]) = ['\n'] := by
  simp [gap]

theorem print_append {qs : List Piece} (h : qs ≠ []) : ∀ ps : List Piece,
    print (ps ++ qs) = print ps ++ gap ps ++ print qs
  | [] => by simp [print, gap]
  | [.markup m] => by simp [print, gap]
  | [.line l] => by
    obtain ⟨q, qs, rfl⟩ := List.exists_cons_of_ne_nil h
    simp [print, gap]
  | .markup m :: p :: ps => by
    have ih := print_append h (p :: ps)
    simp only [List.cons_append, print_markup, gap, List.getLast?_cons_cons] at ih ⊢
    rw [ih]
    simp
  | .line l :: p :: ps => by
    have ih := print_append h (p :: ps)
    simp only [List.cons_append, print_line_cons, gap, List.getLast?_cons_cons] at ih ⊢
    rw [ih]
    simp

end Piece

end MarkdownPreview

import Mathlib.Data.List.Forall2
import MarkdownPreview.Proofs.Idempotence
/-!
# Rewriting whole lines

Rules and headings are looked for with a pattern that is anchored at both ends of a line.
`Rewritten` says what a search that walks over a text leaves of it: where a line starts and a match
ends with the line, the match is replaced and the walk goes on behind it, elsewhere one character is
copied. `StartsLine` and `EndsLine` are the two anchors; between `'\r'` and `'\n'` neither holds.

Main result `lines_rewritten`: for rules and headings this walk changes a text line by line. A text is
cut into lines in one way, every line keeps its ending, exactly the lines that the pattern matches
are replaced (`Line.Becomes`), and the search has no other outcome. A match has no break in it, so
one that starts and ends with a line is that line (`eq_of_endsLine`); the step lemma for the walk over
one line is `rewritten_body`.
-/

namespace MarkdownPreview

open Text

namespace Text

/-! ## Anchors -/

/-- Behind the character `before`, or at the start of the text, a line starts. -/
def StartsLine (before : Option Char) (t : Text) : Prop :=
  before = none ∨ before = some '\n' ∨ before = some '\r' ∧ t.head? ≠ some '\n'

/-- Behind the character `before` a line ends, and `t` is left. -/
def EndsLine (before : Option Char) (t : Text) : Prop :=
  t = [] ∨ t.head? = some '\r' ∨ t.head? = some '\n' ∧ before ≠ some '\r'

/-- A match of a whole line at the start of `t`: `m` is matched, replaced by `w`, and `rest` is left.
The pattern is `M`, which says what it matches and what replaces that. -/
structure MatchAt (M : Text → Text → Prop) (before : Option Char) (t m w rest : Text) : Prop where
  eq_append : t = m ++ rest
  starts : StartsLine before t
  matched : M m w
  ends : EndsLine (m.getLast?.or before) rest

/-- What a search for a pattern leaves of a text that stands behind the character `before`. -/
inductive Rewritten (M : Text → Text → Prop) : Option Char → Text → Text → Prop
  /-- The text ends. -/
  | done {before : Option Char} : Rewritten M before [] []
  /-- A match is replaced, and the search goes on behind it. -/
  | replaced {before : Option Char} {t m w rest out : Text} : MatchAt M before t m w rest →
    Rewritten M (m.getLast?.or before) rest out → Rewritten M before t (w ++ out)
  /-- Where nothing is matched, a character is copied. -/
  | copied {before : Option Char} {c : Char} {t out : Text} :
    (∀ m w rest, ¬ MatchAt M before (c :: t) m w rest) → Rewritten M (some c) t out →
    Rewritten M before (c :: t) (c :: out)

/-- A pattern for whole lines: a match is not empty and has no break in it, and it is replaced in one
way. -/
structure LinePattern (M : Text → Text → Prop) : Prop where
  ne_nil : ∀ {m w}, M m w → m ≠ []
  break_not_mem : ∀ {m w}, M m w → '\n' ∉ m ∧ '\r' ∉ m
  unique : ∀ {m w w'}, M m w → M m w' → w = w'

theorem EndsLine.takeWhile {before : Option Char} {m rest : Text} (hm : '\n' ∉ m ∧ '\r' ∉ m)
    (h : EndsLine before rest) :
    (m ++ rest).takeWhile (fun c => c != '\n' && c != '\r') = m := by
  have hpos : ∀ c ∈ m, (c != '\n' && c != '\r') = true := by
    intro c hc
    simp [ne_of_mem_of_not_mem hc hm.1, ne_of_mem_of_not_mem hc hm.2]
  have hrest : rest.takeWhile (fun c => c != '\n' && c != '\r') = [] := by
    rcases h with rfl | h | ⟨h, -⟩
    · rfl
    · obtain ⟨u, rfl⟩ := List.head?_eq_some_iff.1 h
      rfl
    · obtain ⟨u, rfl⟩ := List.head?_eq_some_iff.1 h
      rfl
  rw [List.takeWhile_append_of_pos hpos, hrest, List.append_nil]

/-- Two parts without a break that end with the line are the same. -/
theorem eq_of_endsLine {before before' : Option Char} {m m' rest rest' : Text}
    (hm : '\n' ∉ m ∧ '\r' ∉ m) (hm' : '\n' ∉ m' ∧ '\r' ∉ m') (h : EndsLine before rest)
    (h' : EndsLine before' rest') (heq : m ++ rest = m' ++ rest') : m = m' ∧ rest = rest' := by
  have hpart := congrArg (List.takeWhile fun c => c != '\n' && c != '\r') heq
  rw [h.takeWhile hm, h'.takeWhile hm'] at hpart
  subst hpart
  exact ⟨rfl, List.append_cancel_left heq⟩

section
variable {M : Text → Text → Prop} (hM : LinePattern M)
include hM

theorem MatchAt.unique {before : Option Char} {t m w rest m' w' rest' : Text}
    (h : MatchAt M before t m w rest) (h' : MatchAt M before t m' w' rest') :
    m = m' ∧ w = w' ∧ rest = rest' := by
  obtain ⟨rfl, rfl⟩ := eq_of_endsLine (hM.break_not_mem h.matched) (hM.break_not_mem h'.matched)
    h.ends h'.ends (h.eq_append.symm.trans h'.eq_append)
  exact ⟨rfl, hM.unique h.matched h'.matched, rfl⟩

/-- The search has one outcome. -/
theorem Rewritten.unique {before : Option Char} {t out out' : Text} (h : Rewritten M before t out)
    (h' : Rewritten M before t out') : out = out' := by
  induction h generalizing out' with
  | done =>
    cases h' with
    | done => rfl
    | replaced hmatch _ =>
      exact absurd (List.append_eq_nil_iff.1 hmatch.eq_append.symm).1 (hM.ne_nil hmatch.matched)
  | replaced hmatch _ ih =>
    cases h' with
    | done =>
      exact absurd (List.append_eq_nil_iff.1 hmatch.eq_append.symm).1 (hM.ne_nil hmatch.matched)
    | replaced hmatch' h' =>
      obtain ⟨rfl, rfl, rfl⟩ := hmatch.unique hM hmatch'
      rw [ih h']
    | copied hnone _ => exact absurd hmatch (hnone _ _ _)
  | copied hnone _ ih =>
    cases h' with
    | replaced hmatch' _ => exact absurd hmatch' (hnone _ _ _)
    | copied _ h' => rw [ih h']

/-! ## The walk over a line -/

/-- A break is copied. -/
theorem Rewritten.copy_break {before : Option Char} {c : Char} {t out : Text}
    (hc : c = '\n' ∨ c = '\r') (h : Rewritten M (some c) t out) :
    Rewritten M before (c :: t) (c :: out) := by
  refine .copied (fun m w rest hmatch => ?_) h
  obtain ⟨d, m', rfl⟩ := List.exists_cons_of_ne_nil (hM.ne_nil hmatch.matched)
  obtain ⟨hlf, hcr⟩ := hM.break_not_mem hmatch.matched
  obtain ⟨rfl, -⟩ := List.cons.inj hmatch.eq_append
  rcases hc with rfl | rfl
  · exact hlf List.mem_cons_self
  · exact hcr List.mem_cons_self

omit hM in
/-- Inside a line everything is copied. -/
theorem Rewritten.copy_inside {u out : Text} : ∀ {x : Text} {c : Char},
    ('\n' ∉ x ∧ '\r' ∉ x) → c ≠ '\n' ∧ c ≠ '\r' → Rewritten M (x.getLast?.or (some c)) u out →
    Rewritten M (some c) (x ++ u) (x ++ out)
  | [], _, _, _, h => h
  | d :: x, c, hx, hc, h => by
    simp only [List.mem_cons, not_or] at hx
    refine .copied (fun m w rest hmatch => ?_) (copy_inside ⟨hx.1.2, hx.2.2⟩
      ⟨Ne.symm hx.1.1, Ne.symm hx.2.1⟩ ?_)
    · rcases hmatch.starts with hstart | hstart | ⟨hstart, -⟩
      · simp at hstart
      · exact hc.1 (Option.some.inj hstart)
      · exact hc.2 (Option.some.inj hstart)
    · rw [List.getLast?_cons] at h
      simpa using h

/-- A line is replaced as a whole or copied. -/
theorem rewritten_body {f : Text → Text} {before : Option Char} {body u out : Text}
    (hf : M body (f body) ∨ (∀ w, ¬ M body w) ∧ f body = body) (hbody : '\n' ∉ body ∧ '\r' ∉ body)
    (hstarts : StartsLine before (body ++ u)) (hends : EndsLine (body.getLast?.or before) u)
    (h : Rewritten M (body.getLast?.or before) u out) :
    Rewritten M before (body ++ u) (f body ++ out) := by
  rcases hf with hmatched | ⟨hnone, heq⟩
  · exact .replaced ⟨rfl, hstarts, hmatched, hends⟩ h
  · rw [heq]
    cases body with
    | nil => exact h
    | cons c x =>
      refine .copied (fun m w rest hmatch => ?_) ?_
      · obtain ⟨rfl, -⟩ := eq_of_endsLine (hM.break_not_mem hmatch.matched) hbody hmatch.ends hends
          hmatch.eq_append.symm
        exact hnone w hmatch.matched
      · simp only [List.mem_cons, not_or] at hbody
        refine .copy_inside ⟨hbody.1.2, hbody.2.2⟩ ⟨Ne.symm hbody.1.1, Ne.symm hbody.2.1⟩ ?_
        rw [List.getLast?_cons] at h
        simpa using h

/-! ## The walk over a text -/

/-- The change of a line that a pattern stands for: what it matches is replaced, another line is left
alone. -/
def Changes (M : Text → Text → Prop) (f : Text → Text) : Prop :=
  ∀ l, '\n' ∉ l ∧ '\r' ∉ l → M l (f l) ∨ (∀ w, ¬ M l w) ∧ f l = l

omit hM in
/-- Behind the break of a line the next line starts. -/
theorem startsLine_print {b : LineBreak} {ls : List Line} (hls : Line.Cut ls)
    (hcr : b = .cr → ls.head? ≠ some ⟨[], some .lf⟩) :
    StartsLine b.text.getLast? (Line.print ls) := by
  cases b with
  | lf => exact Or.inr (Or.inl rfl)
  | crlf => exact Or.inr (Or.inl rfl)
  | cr => exact Or.inr (Or.inr ⟨rfl, mt hls.head?_print (hcr rfl)⟩)

omit hM in
/-- Before its break a line ends: a `'\n'` that belongs to a `'\r'` is the break of no line. -/
theorem endsLine_ending {before : Option Char} {body : Text} (hbody : '\r' ∉ body) {b : LineBreak}
    {t : Text} (hstarts : StartsLine before (body ++ (b.text ++ t))) :
    EndsLine (body.getLast?.or before) (b.text ++ t) := by
  cases b with
  | crlf => exact Or.inr (Or.inl rfl)
  | cr => exact Or.inr (Or.inl rfl)
  | lf =>
    refine Or.inr (Or.inr ⟨rfl, fun hlast => ?_⟩)
    cases hbefore : body.getLast? with
    | some c =>
      rw [hbefore, Option.some_or, Option.some.injEq] at hlast
      exact hbody (hlast ▸ List.mem_of_getLast? hbefore)
    | none =>
      rw [hbefore, Option.none_or] at hlast
      rw [List.getLast?_eq_none_iff.1 hbefore, hlast] at hstarts
      simp [StartsLine, LineBreak.text] at hstarts

theorem Rewritten.copy_ending {before : Option Char} {t out : Text} (b : LineBreak)
    (h : Rewritten M b.text.getLast? t out) : Rewritten M before (b.text ++ t) (b.text ++ out) := by
  cases b with
  | lf => exact h.copy_break hM (Or.inl rfl)
  | cr => exact h.copy_break hM (Or.inr rfl)
  | crlf =>
    have hlf : Rewritten M (some '\r') ('\n' :: t) ('\n' :: out) := h.copy_break hM (Or.inl rfl)
    exact hlf.copy_break hM (Or.inr rfl)

/-- The search changes the lines of a text one by one. -/
theorem rewritten_printMap {f : Text → Text} (hf : Changes M f) {ls : List Line} (hls : Line.Cut ls) :
    ∀ {before : Option Char}, StartsLine before (Line.print ls) →
      Rewritten M before (Line.print ls) (Line.printMap f ls) := by
  induction hls with
  | @last body hbody =>
    intro before hstarts
    have hprint : Line.print [⟨body, none⟩] = body ++ [] ∧
        Line.printMap f [⟨body, none⟩] = f body ++ [] := by
      simp [Line.print, Line.printMap, Line.endingText]
    rw [hprint.1] at hstarts
    rw [hprint.1, hprint.2]
    exact rewritten_body hM (hf body hbody) hbody hstarts (Or.inl rfl) .done
  | @above body b ls hbody hcr hls ih =>
    intro before hstarts
    have hprint : Line.print (⟨body, some b⟩ :: ls) = body ++ (b.text ++ Line.print ls) ∧
        Line.printMap f (⟨body, some b⟩ :: ls) = f body ++ (b.text ++ Line.printMap f ls) := by
      simp [Line.print, Line.printMap, Line.endingText]
    rw [hprint.1] at hstarts
    rw [hprint.1, hprint.2]
    exact rewritten_body hM (hf body hbody) hbody hstarts (endsLine_ending hbody.2 hstarts)
      (.copy_ending hM b (ih (startsLine_print hls hcr)))

/-- A search for a pattern for whole lines is the change of each line. -/
theorem rewritten_iff {f : Text → Text} (hf : Changes M f) {t out : Text} :
    Rewritten M none t out ↔ mapLines f t = out := by
  have hlines : Rewritten M none t (mapLines f t) := by
    have hprint : Rewritten M none (Line.print (Line.ofText t)) (Line.printMap f (Line.ofText t)) :=
      rewritten_printMap hM hf (Line.cut_ofText t) (Or.inl rfl)
    rwa [Line.print_ofText, Line.printMap_ofText] at hprint
  constructor
  · exact fun h => hlines.unique hM h
  · rintro rfl
    exact hlines

end

/-- What becomes of a line: it keeps its ending, and it is replaced if the pattern matches it, else it
is left alone. -/
def Line.Becomes (M : Text → Text → Prop) (l r : Line) : Prop :=
  r.ending = l.ending ∧ (M l.body r.body ∨ (∀ w, ¬ M l.body w) ∧ r.body = l.body)

theorem Line.Cut.break_not_mem {ls : List Line} (h : Cut ls) :
    ∀ l ∈ ls, '\n' ∉ l.body ∧ '\r' ∉ l.body := by
  induction h with
  | last hbody => simpa using hbody
  | above hbody _ _ ih => exact List.forall_mem_cons.2 ⟨hbody, ih⟩

theorem becomes_mapLines {M : Text → Text → Prop} {f : Text → Text} (hf : Changes M f)
    (htags : WritesTags f) (t : Text) :
    List.Forall₂ (Line.Becomes M) (Line.ofText t) (Line.ofText (mapLines f t)) := by
  rw [htags.ofText_mapLines, List.forall₂_map_right_iff]
  exact List.forall₂_same.2 fun l hl => ⟨rfl, hf l.body ((Line.cut_ofText t).break_not_mem l hl)⟩

/-- A text is cut into lines in one way. -/
theorem Line.ofText_eq_iff {t : Text} {ls : List Line} : ofText t = ls ↔ Cut ls ∧ print ls = t := by
  constructor
  · rintro rfl
    exact ⟨cut_ofText t, print_ofText t⟩
  · rintro ⟨hcut, rfl⟩
    exact hcut.ofText_print

end Text

/-! ## Rules -/

namespace Rule

/-- A rule is three or more of one of `-`, `*` and `_`; it is replaced by `<hr>`. -/
def Matches (m w : Text) : Prop :=
  (∃ c ∈ ['-', '*', '_'], ∃ n, 3 ≤ n ∧ m = List.replicate n c) ∧ w = "<hr>".toList

theorem isRule_iff {l : Text} :
    isRule l = true ↔ ∃ c ∈ ['-', '*', '_'], ∃ n, 3 ≤ n ∧ l = List.replicate n c := by
  simp only [isRule, Bool.and_eq_true, decide_eq_true_eq, List.any_eq_true, List.all_eq_true,
    beq_iff_eq]
  constructor
  · rintro ⟨hlength, c, hc, hall⟩
    exact ⟨c, hc, l.length, hlength, List.eq_replicate_of_mem hall⟩
  · rintro ⟨c, hc, n, hn, rfl⟩
    refine ⟨by simpa using hn, c, hc, fun x hx => (List.mem_replicate.1 hx).2⟩

theorem linePattern_matches : LinePattern Matches where
  ne_nil := by
    rintro _ _ ⟨⟨c, -, n, hn, rfl⟩, -⟩
    rw [Ne, List.replicate_eq_nil_iff]
    omega
  break_not_mem := by
    rintro _ _ ⟨⟨c, hc, n, -, rfl⟩, -⟩
    simp only [List.mem_cons, List.not_mem_nil, or_false] at hc
    rcases hc with rfl | rfl | rfl <;> simp [List.mem_replicate]
  unique := by
    rintro _ _ _ ⟨-, rfl⟩ ⟨-, rfl⟩
    rfl

theorem changes_line : Changes Matches line := by
  intro l _
  by_cases hl : isRule l = true
  · exact Or.inl ⟨isRule_iff.1 hl, by rw [line, if_pos hl]⟩
  · exact Or.inr ⟨fun w hw => hl (isRule_iff.2 hw.1), by rw [line, if_neg hl]⟩

end Rule

/-! ## Headings -/

namespace Heading

/-- A heading is one or more `#`, a space or a tab and a rest that is not empty and stands on the same
line; it is replaced by the trimmed rest as an element, the number of `#` being its level, six at
most. -/
def Matches (m w : Text) : Prop :=
  ∃ k b rest, 1 ≤ k ∧ (b = ' ' ∨ b = '\t') ∧ rest ≠ [] ∧ ('\n' ∉ rest ∧ '\r' ∉ rest) ∧
    m = List.replicate k '#' ++ b :: rest ∧
    w = element ('h' :: decimal (min k 6)) (trim rest)

theorem linePattern_matches : LinePattern Matches where
  ne_nil := by
    rintro _ _ ⟨k, b, rest, -, -, -, -, rfl, -⟩
    simp
  break_not_mem := by
    rintro _ _ ⟨k, b, rest, -, hb, -, hrest, rfl, -⟩
    rcases hb with rfl | rfl <;> simp [List.mem_replicate, hrest]
  unique := by
    rintro _ _ _ ⟨k, b, rest, hk, hb, hne, -, rfl, rfl⟩ ⟨k', b', rest', hk', hb', hne', -, heq, rfl⟩
    have hread := ofLine?_replicate hk hb hne
    rw [heq, ofLine?_replicate hk' hb' hne', Option.some.injEq, Heading.mk.injEq] at hread
    rw [show min k 6 = min k' 6 from hread.1.symm, hread.2]

/-- A heading line is matched, and what replaces it is its element. -/
theorem matches_of_ofLine? {l : Text} {h : Heading} (hl : '\n' ∉ l ∧ '\r' ∉ l)
    (hh : ofLine? l = some h) : Matches l h.html := by
  obtain ⟨n, b, rest, hn, hb, hrest, rfl, rfl⟩ := ofLine?_eq_some_iff.1 hh
  refine ⟨n, b, rest, hn, hb, hrest, ?_, rfl, rfl⟩
  constructor
  · exact fun hm => hl.1 (by simp [hm])
  · exact fun hm => hl.2 (by simp [hm])

theorem changes_line : Changes Matches line := by
  intro l hl
  unfold line
  cases hh : ofLine? l with
  | some h => exact Or.inl (matches_of_ofLine? hl hh)
  | none =>
    refine Or.inr ⟨?_, rfl⟩
    rintro _ ⟨k, b, rest, hk, hb, hrest, -, rfl, -⟩
    simp [ofLine?_replicate hk hb hrest] at hh

end Heading

/-! ## The two passes -/

/-- **Rules and headings are found line by line.** A text is cut into lines, each with the `"\r\n"`,
`'\n'` or lone `'\r'` that ends it, in one way. In what the two passes write every line has kept its
ending; a line that is a rule or a heading is replaced, and every other line is left alone. A search
for the anchored pattern over the whole text has this outcome and no other. -/
theorem lines_rewritten (t : Text) :
    (∀ s ls, Line.ofText s = ls ↔ Line.Cut ls ∧ Line.print ls = s) ∧
      List.Forall₂ (Line.Becomes Rule.Matches) (Line.ofText t)
        (Line.ofText (Rule.horizontalRules t)) ∧
      List.Forall₂ (Line.Becomes Heading.Matches) (Line.ofText t)
        (Line.ofText (Heading.headings t)) ∧
      (∀ out, Rewritten Rule.Matches none t out ↔ Rule.horizontalRules t = out) ∧
      ∀ out, Rewritten Heading.Matches none t out ↔ Heading.headings t = out :=
  ⟨fun _ _ => Line.ofText_eq_iff,
    becomes_mapLines Rule.changes_line Rule.writesTags_line t,
    becomes_mapLines Heading.changes_line Heading.writesTags_line t,
    fun _ => rewritten_iff Rule.linePattern_matches Rule.changes_line,
    fun _ => rewritten_iff Heading.linePattern_matches Heading.changes_line⟩

/-- Three kinds of breaks: the empty line between the two breaks of `"\r\r\n"` is a line. -/
example : Heading.headings "# a\r\r\n##\tb \n#\r####### c".toList =
    "<h1>a</h1>\r\r\n<h2>b</h2>\n#\r<h6>c</h6>".toList := by decide +kernel

end MarkdownPreview

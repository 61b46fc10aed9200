import Mathlib.Data.List.Forall2
import MarkdownPreview.Proofs.LineScan
/-!
# The depth of quotes

A quote pass that reads line after line keeps the number of quotes that are open. `Follows` says
without it what is written: how many tags stand before a line depends on its own depth and on the
depth of the line above it, and on nothing else, where a line that is no quote has depth 0.

Main result `quotes_follow`: there is one such reading of the lines of a text, what is written is
printed from it, and its tags are balanced. The key notion is `rise`, how many more quotes are opened
than closed: along a reading it never falls below zero, it is the depth of each line where the line
is written, and it is zero at the end (`Follows.balanced`). The step lemma is `Balanced.append_line`,
for the tags before one line and the line.
-/

namespace MarkdownPreview.QuoteLine

open Text

/-! ## Quote lines -/

/-- The line is `d` times `>`, one blank and the rest, neither the marker nor the rest empty. -/
def IsQuoted (l : Text) (d : Nat) (rest : Text) : Prop :=
  1 ≤ d ∧ rest ≠ [] ∧ ∃ b, isBlank b = true ∧ l = List.replicate d '>' ++ b :: rest

/-- Quote lines are read as they are written. -/
theorem isQuoted_iff {l : Text} {q : QuoteLine} :
    IsQuoted l q.depth q.content ↔ ofLine? l = some q := ofLine?_eq_some_iff.symm

theorem ofLine?_eq_none_iff {l : Text} : ofLine? l = none ↔ ∀ d rest, ¬ IsQuoted l d rest := by
  constructor
  · intro hnone d rest hl
    have hsome : ofLine? l = some ⟨d, rest⟩ := isQuoted_iff.1 hl
    simp [hnone] at hsome
  · intro hnone
    cases h : ofLine? l with
    | none => rfl
    | some q => exact absurd (isQuoted_iff.2 h) (hnone q.depth q.content)

/-! ## What is written -/

/-- What is written for the lines of a text, one thing after the other. -/
inductive Event
  /-- The innermost quote ends. -/
  | closes
  /-- A quote starts inside those that are open. -/
  | opens
  /-- What a quote line says. -/
  | quoted (line : QuoteLine)
  /-- A line that is no quote, and whether it is the last one of the text. -/
  | line (text : Text) (last : Bool)
  deriving DecidableEq, Repr

namespace Event

/-- The text of an event. -/
def text : Event → Text
  | .closes => closeTag "blockquote".toList
  | .opens => openTag "blockquote".toList
  | .quoted q => q.content ++ "<br>".toList
  | .line l last => if last then l else l ++ ['\n']

/-- The depth a line is written at. -/
def depth? : Event → Option Nat
  | .closes => none
  | .opens => none
  | .quoted q => some q.depth
  | .line _ _ => some 0

/-- The event is what is written for a line itself. -/
def IsFor (l : Text) : Event → Prop
  | .quoted q => IsQuoted l q.depth q.content
  | .line text _ => text = l ∧ ∀ d rest, ¬ IsQuoted l d rest
  | _ => False

end Event

/-- The tags that lead from depth `e` to depth `d`: the quotes of the first that are too many end,
those of the second that are missing start. -/
def tags (e d : Nat) : List Event :=
  List.replicate (e - d) .closes ++ List.replicate (d - e) .opens

/-- To depth 0 every quote ends. -/
theorem tags_zero (e : Nat) : tags e 0 = List.replicate e .closes := by
  rw [tags, Nat.sub_zero, Nat.zero_sub, List.replicate_zero, List.append_nil]

/-- What is written for some lines below a line of depth `e`. -/
inductive Follows : Nat → List Text → List Event → Prop
  /-- At the end as many quotes end as are open. -/
  | done (e : Nat) : Follows e [] (List.replicate e .closes)
  /-- Before a quote line as many quotes end or start as it is shallower or deeper. -/
  | quoted {e : Nat} {l : Text} {ls : List Text} {es : List Event} {q : QuoteLine} :
    IsQuoted l q.depth q.content → Follows q.depth ls es →
    Follows e (l :: ls) (tags e q.depth ++ .quoted q :: es)
  /-- Before another line every quote ends. -/
  | line {e : Nat} {l : Text} {ls : List Text} {es : List Event} :
    (∀ d rest, ¬ IsQuoted l d rest) → Follows 0 ls es →
    Follows e (l :: ls) (List.replicate e .closes ++ .line l ls.isEmpty :: es)

theorem exists_follows (ls : List Text) : ∀ e : Nat, ∃ es, Follows e ls es := by
  induction ls with
  | nil => exact fun e => ⟨_, .done e⟩
  | cons l ls ih =>
    intro e
    cases hl : ofLine? l with
    | some q =>
      obtain ⟨es, hes⟩ := ih q.depth
      exact ⟨_, .quoted (isQuoted_iff.2 hl) hes⟩
    | none =>
      obtain ⟨es, hes⟩ := ih 0
      exact ⟨_, .line (ofLine?_eq_none_iff.1 hl) hes⟩

theorem Follows.unique {e : Nat} {ls : List Text} {es es' : List Event} (h : Follows e ls es)
    (h' : Follows e ls es') : es = es' := by
  induction h generalizing es' with
  | done e => cases h'; rfl
  | @quoted e l ls es q hl _ ih =>
    cases h' with
    | @quoted _ _ _ _ q' hl' h' =>
      have hq : ofLine? l = some q := isQuoted_iff.1 hl
      rw [isQuoted_iff.1 hl', Option.some.injEq] at hq
      subst hq
      rw [ih h']
    | line hl' _ => exact absurd hl (hl' _ _)
  | line hl _ ih =>
    cases h' with
    | quoted hl' _ => exact absurd hl' (hl _ _)
    | line _ h' => rw [ih h']

/-! ## Printing -/

theorem print_replicate (tag : Text) (ps : List Piece) : ∀ n : Nat,
    Piece.print (List.replicate n (.markup tag) ++ ps) =
      (List.replicate n tag).flatten ++ Piece.print ps
  | 0 => rfl
  | n + 1 => by
    rw [List.replicate_succ, List.cons_append, Piece.print_markup, print_replicate tag ps n,
      List.replicate_succ, List.flatten_cons, List.append_assoc]

theorem print_step (source target : Nat) (ps : List Piece) :
    Piece.print (step source target ++ ps) =
      (tags source target).flatMap Event.text ++ Piece.print ps := by
  rw [step, List.append_assoc, print_replicate, print_replicate, tags, List.flatMap_append,
    List.flatMap_replicate, List.flatMap_replicate, Event.text, Event.text, List.append_assoc]

/-- A line keeps its break as long as there is a line below it. -/
theorem print_line_pieces (l : Text) (ls : List Text) :
    Piece.print (.line l :: pieces 0 ls) =
      (Event.line l ls.isEmpty).text ++ Piece.print (pieces 0 ls) := by
  cases ls with
  | nil => simp [pieces, step, Piece.print, Event.text]
  | cons l' ls =>
    obtain ⟨p, ps, hps⟩ := List.exists_cons_of_ne_nil (pieces_ne_nil (List.cons_ne_nil l' ls) 0)
    rw [hps, Piece.print_line_cons]
    simp [Event.text]

theorem Follows.print_pieces {e : Nat} {ls : List Text} {es : List Event} (h : Follows e ls es) :
    Piece.print (pieces e ls) = es.flatMap Event.text := by
  induction h with
  | done e =>
    have hstep := print_step e 0 []
    rwa [List.append_nil, Piece.print, List.append_nil, tags_zero] at hstep
  | quoted hl _ ih =>
    rw [pieces, isQuoted_iff.1 hl]
    simp only [print_step, Piece.print_markup, ih, List.flatMap_append, List.flatMap_cons, Event.text]
  | line hl _ ih =>
    rw [pieces, ofLine?_eq_none_iff.2 hl]
    simp only [print_step, print_line_pieces, ih, tags_zero, List.flatMap_append, List.flatMap_cons]

/-! ## Open quotes -/

/-- How many more quotes some events open than they close. -/
def rise (es : List Event) : Int := es.count .opens - es.count .closes

@[simp] theorem rise_nil : rise [] = 0 := rfl

@[simp] theorem rise_append (es es' : List Event) : rise (es ++ es') = rise es + rise es' := by
  simp only [rise, List.count_append, Int.natCast_add]
  omega

@[simp] theorem rise_closes (n : Nat) : rise (List.replicate n .closes) = -n := by
  simp [rise, List.count_replicate]

@[simp] theorem rise_opens (n : Nat) : rise (List.replicate n .opens) = n := by
  simp [rise, List.count_replicate]

/-- What is written for a line opens and closes nothing. -/
theorem rise_line {x : Event} {d : Nat} (hx : x.depth? = some d) (es : List Event) :
    rise (x :: es) = rise es := by
  cases x with
  | closes => simp [Event.depth?] at hx
  | opens => simp [Event.depth?] at hx
  | quoted q => simp [rise]
  | line l last => simp [rise]

/-- The tags of some events, with `e` quotes open before them, are balanced. -/
structure Balanced (e : Nat) (es : List Event) : Prop where
  /-- No quote is closed that is not open. -/
  nonneg : ∀ before, before <+: es → 0 ≤ e + rise before
  /-- A line stands in as many quotes as it is deep. -/
  depth : ∀ before x behind (d : Nat), es = before ++ x :: behind → x.depth? = some d →
    e + rise before = d
  /-- At the end no quote is open. -/
  closed : e + rise es = 0

/-- A part at the start of two lists ends in the first or goes on in the second. -/
theorem prefix_append_cases {es es' before : List Event} (h : before <+: es ++ es') :
    before <+: es ∨ ∃ more, before = es ++ more ∧ more <+: es' := by
  rcases List.prefix_or_prefix_of_prefix h (List.prefix_append es es') with hle | ⟨more, rfl⟩
  · exact Or.inl hle
  · exact Or.inr ⟨more, rfl, (List.prefix_append_right_inj es).1 h⟩

/-- On the way from one depth to another no quote is closed that is not open. -/
theorem nonneg_of_prefix_tags {e d : Nat} {before : List Event} (h : before <+: tags e d) :
    0 ≤ e + rise before := by
  rcases prefix_append_cases h with hcloses | ⟨more, rfl, hopens⟩
  · obtain ⟨hle, heq⟩ := List.prefix_replicate_iff.1 hcloses
    rw [heq, rise_closes]
    omega
  · obtain ⟨-, heq⟩ := List.prefix_replicate_iff.1 hopens
    rw [heq, rise_append, rise_closes, rise_opens]
    omega

theorem rise_tags (e d : Nat) : e + rise (tags e d) = d := by
  rw [tags, rise_append, rise_closes, rise_opens]
  omega

/-- No line is among the tags. -/
theorem depth?_eq_none_of_mem_tags {e d : Nat} {x : Event} (h : x ∈ tags e d) : x.depth? = none := by
  rcases List.mem_append.1 h with h | h
  · rw [(List.mem_replicate.1 h).2, Event.depth?]
  · rw [(List.mem_replicate.1 h).2, Event.depth?]

/-- The step from one line to the next: the tags before a line lead to its depth. -/
theorem Balanced.append_line {d : Nat} {x : Event} {es : List Event} (hx : x.depth? = some d)
    (h : Balanced d es) (e : Nat) : Balanced e (tags e d ++ x :: es) where
  nonneg before hbefore := by
    rcases prefix_append_cases hbefore with htags | ⟨more, rfl, hline⟩
    · exact nonneg_of_prefix_tags htags
    · rw [rise_append, ← Int.add_assoc, rise_tags]
      rcases List.prefix_cons_iff.1 hline with rfl | ⟨later, rfl, hlater⟩
      · simp
      · rw [rise_line hx]
        exact h.nonneg later hlater
  depth before y behind n heq hy := by
    rcases List.append_eq_append_iff.1 heq with ⟨more, rfl, hline⟩ | ⟨more, htags, hline⟩
    · rw [rise_append, ← Int.add_assoc, rise_tags]
      rcases List.cons_eq_append_iff.1 hline with ⟨rfl, hcons⟩ | ⟨later, rfl, hlater⟩
      · obtain ⟨rfl, -⟩ := List.cons.inj hcons
        rw [hx, Option.some.injEq] at hy
        simp [hy]
      · rw [rise_line hx]
        exact h.depth later y behind n hlater hy
    · rcases List.cons_eq_append_iff.1 hline with ⟨rfl, hcons⟩ | ⟨later, rfl, -⟩
      · obtain ⟨rfl, -⟩ := List.cons.inj hcons
        rw [List.append_nil] at htags
        rw [hx, Option.some.injEq] at hy
        rw [← htags, rise_tags, hy]
      · have hmem : y ∈ tags e d := by simp [htags]
        simp [depth?_eq_none_of_mem_tags hmem] at hy
  closed := by
    rw [rise_append, ← Int.add_assoc, rise_tags, rise_line hx]
    exact h.closed

theorem balanced_tags_zero (e : Nat) : Balanced e (tags e 0) where
  nonneg _ hbefore := nonneg_of_prefix_tags hbefore
  depth before x behind d heq hx := by
    have hmem : x ∈ tags e 0 := by simp [heq]
    simp [depth?_eq_none_of_mem_tags hmem] at hx
  closed := rise_tags e 0

theorem Follows.balanced {e : Nat} {ls : List Text} {es : List Event} (h : Follows e ls es) :
    Balanced e es := by
  induction h with
  | done e =>
    rw [← tags_zero]
    exact balanced_tags_zero e
  | @quoted e _ _ _ _ _ _ ih => exact ih.append_line rfl e
  | @line e _ _ _ _ _ ih =>
    rw [← tags_zero]
    exact ih.append_line rfl e

/-! ## The whole pass -/

/-- Without the tags the line is left of what is written for it. -/
theorem filter_append_line {x : Event} {d : Nat} (hx : x.depth? = some d) (e : Nat)
    (es : List Event) :
    (tags e d ++ x :: es).filter (·.depth?.isSome) = x :: es.filter (·.depth?.isSome) := by
  have htags : (tags e d).filter (·.depth?.isSome) = [] := by
    rw [List.filter_eq_nil_iff]
    intro y hy
    simp [depth?_eq_none_of_mem_tags hy]
  rw [List.filter_append, htags, List.nil_append, List.filter_cons_of_pos (by simp [hx])]

/-- The lines of a text are written in their order, each once. -/
theorem Follows.lines {e : Nat} {ls : List Text} {es : List Event} (h : Follows e ls es) :
    List.Forall₂ Event.IsFor ls (es.filter (·.depth?.isSome)) := by
  induction h with
  | done e => simp [Event.depth?]
  | @quoted e _ _ _ q hl _ ih =>
    rw [filter_append_line (x := .quoted q) rfl]
    exact .cons hl ih
  | @line e l ls _ hl _ ih =>
    rw [← tags_zero, filter_append_line (x := .line l ls.isEmpty) rfl]
    exact .cons ⟨rfl, hl⟩ ih

/-- **Quotes follow the depths of their lines.** A quote line is one or more `>`, a blank and a rest
that is not empty. The lines of a text are written in one way: before a quote line as many quotes end
or start as its depth and that of the line above differ by, before another line all of them end, and
at the end all of them end. The tags are balanced, and each line is written once, in its place and in
as many quotes as it is deep. -/
theorem quotes_follow (t : Text) :
    (∀ l q, ofLine? l = some q ↔ IsQuoted l q.depth q.content) ∧
      ∃ es, Follows 0 (Text.lines t) es ∧ (∀ other, Follows 0 (Text.lines t) other → other = es) ∧
        blockquotes t = es.flatMap Event.text ∧ Balanced 0 es ∧
        List.Forall₂ Event.IsFor (Text.lines t) (es.filter (·.depth?.isSome)) := by
  refine ⟨fun _ _ => ofLine?_eq_some_iff, ?_⟩
  obtain ⟨es, h⟩ := exists_follows (Text.lines t) 0
  exact ⟨es, h, fun _ hother => hother.unique h, h.print_pieces, h.balanced, h.lines⟩

/-- From depth 3 to depth 1 two quotes end; the plain line ends the last one and keeps its break. -/
example : blockquotes ">>> a\n> b\nc\n>d".toList =
    "<blockquote><blockquote><blockquote>a<br></blockquote></blockquote>b<br></blockquote>c\n>d".toList := by
  decide +kernel

end MarkdownPreview.QuoteLine

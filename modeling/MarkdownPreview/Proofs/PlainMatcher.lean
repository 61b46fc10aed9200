import MarkdownPreview.Proofs.SpanShape
/-!
# The plain matcher

What a style of span should read, by trying everything: at each position each delimiter in turn, for
a delimiter each length of the body from one on, until what was tried is on one line and has the
delimiter behind it. `tokens` reads a text that way, span by span and character by character.

Main result `styles_eq_tokens`: strong text, emphasis and code, which look for the next delimiter
only and stop at a line break on the way to it, write what the plain matcher reads, as any other
style does (`format_eq_tokens`). The two agree on one body because a length tried behind a character
is one less than the same length tried in front of it (`find?_succ`, `closing?_eq_find?`).
-/

namespace MarkdownPreview.Delimited

open Text

/-! ## Trying all lengths -/

/-- The first `n` characters of a text can be a body: they are on one line and the delimiter follows
them. -/
def IsBody (mark inner : Text) (n : Nat) : Prop := '\n' ∉ inner.take n ∧ mark <+: inner.drop n

instance (mark inner : Text) (n : Nat) : Decidable (IsBody mark inner n) :=
  inferInstanceAs (Decidable (_ ∧ _))

/-- The length of the shortest body: one, two, three and so on are tried, as long as something is
left for the delimiter. -/
def bodyLength? (mark inner : Text) : Option Nat :=
  (List.range' 1 (inner.length - 1)).find? (IsBody mark inner ·)

/-- The body of the span a delimiter opens at the start of a text; if `mayDouble` is off, the
delimiter may not stand there twice. -/
def plainBody? (mayDouble : Bool) (mark t : Text) : Option Text :=
  let inner := t.drop mark.length
  if mark <+: t ∧ (mayDouble = false → ¬ mark <+: inner) then
    (bodyLength? mark inner).map inner.take
  else none

/-- The span a text starts with: the first delimiter that opens one, and the body. -/
def plainSpan? (marks : List Text) (mayDouble : Bool) (t : Text) : Option (Text × Text) :=
  marks.findSome? fun mark => (plainBody? mayDouble mark t).map fun body => (mark, body)

/-! ## Spans and copied characters -/

/-- What is read of a text. -/
inductive Token
  /-- A body between two delimiters. -/
  | span (mark body : Text)
  /-- A character that opens no span. -/
  | copied (c : Char)
  deriving DecidableEq, Repr

/-- The text a token is read from. -/
def Token.read : Token → Text
  | .span mark body => mark ++ body ++ mark
  | .copied c => [c]

/-- What is written for a token: a body in its markup, a character as it is. -/
def Token.written (write : Text → Text) : Token → Text
  | .span _ body => write body
  | .copied c => [c]

variable {marks : List Text} {mayDouble : Bool}

theorem bodyLength?_eq_some {mark inner : Text} {n : Nat} (h : bodyLength? mark inner = some n) :
    0 < n ∧ n < inner.length ∧ IsBody mark inner n := by
  have hmem := List.mem_range'_1.1 (List.mem_of_find?_eq_some h)
  have hbody := List.find?_some h
  exact ⟨by omega, by omega, of_decide_eq_true hbody⟩

theorem plainBody?_eq_some {mark t body : Text}
    (h : plainBody? mayDouble mark t = some body) : body ≠ [] ∧ mark ++ body ++ mark <+: t := by
  simp only [plainBody?] at h
  split at h
  · next hmark =>
    obtain ⟨inner, rfl⟩ := hmark.1
    rw [List.drop_left] at h
    obtain ⟨n, hn, rfl⟩ := Option.map_eq_some_iff.1 h
    obtain ⟨hpos, hlength, -, rest, hrest⟩ := bodyLength?_eq_some hn
    refine ⟨List.ne_nil_of_length_pos (by rw [List.length_take]; omega), rest, ?_⟩
    rw [List.append_assoc, List.append_assoc, hrest, List.take_append_drop]
  · simp at h

/-- A span stands at the start of the text and is not empty. -/
theorem plainSpan?_eq_some {mark t body : Text}
    (h : plainSpan? marks mayDouble t = some (mark, body)) :
    body ≠ [] ∧ (Token.span mark body).read <+: t := by
  obtain ⟨mark', -, h⟩ := List.exists_of_findSome?_eq_some h
  obtain ⟨body', hbody, he⟩ := Option.map_eq_some_iff.1 h
  simp only [Prod.mk.injEq] at he
  obtain ⟨rfl, rfl⟩ := he
  exact plainBody?_eq_some hbody

theorem length_drop_span {mark t body : Text}
    (h : plainSpan? marks mayDouble t = some (mark, body)) :
    (t.drop (Token.span mark body).read.length).length < t.length := by
  obtain ⟨hbody, hread⟩ := plainSpan?_eq_some h
  have hpos := List.length_pos_iff.2 hbody
  have hle := hread.length_le
  simp only [List.length_drop, Token.read, List.length_append] at hle ⊢
  omega

/-- Read a text from left to right: where a span opens it is read and matching goes on right after
it, elsewhere one character is copied. -/
def tokens (marks : List Text) (mayDouble : Bool) (t : Text) : List Token :=
  match _h : plainSpan? marks mayDouble t with
  | some (mark, body) =>
    .span mark body :: tokens marks mayDouble (t.drop (Token.span mark body).read.length)
  | none =>
    match t with
    | [] => []
    | c :: t => .copied c :: tokens marks mayDouble t
termination_by t.length
decreasing_by
  · exact length_drop_span ‹_›
  · exact Nat.lt_succ_self _

/-! ## The nearest delimiter is the shortest body -/

/-- A length is tried on the text after a character as one less on the text behind it, if the
character is no line break. -/
theorem find?_succ (mark : Text) (c : Char) (t : Text) (k : Nat) :
    (List.range' 1 k).find? (IsBody mark (c :: t) ·) =
      if c = '\n' then none else ((List.range k).find? (IsBody mark t ·)).map (· + 1) := by
  have hstep : ∀ n, IsBody mark (c :: t) (1 + n) ↔ c ≠ '\n' ∧ IsBody mark t n := by
    intro n
    simp [IsBody, Nat.add_comm 1 n, and_assoc, eq_comm]
  rw [List.range'_eq_map_range, List.find?_map]
  simp only [Function.comp_def, hstep]
  split
  · next hc => simp [hc]
  · next hc => simp [hc, Nat.add_comm 1]

/-- The next delimiter on the line ends the shortest text that has one behind it. -/
theorem closing?_eq_find? (mark t : Text) :
    closing? mark t = ((List.range t.length).find? (IsBody mark t ·)).map fun n =>
      (t.take n, t.drop (n + mark.length)) := by
  induction t with
  | nil => rfl
  | cons c t ih =>
    have hzero : IsBody mark (c :: t) 0 ↔ mark <+: c :: t := by simp [IsBody]
    rw [closing?, List.length_cons, List.range_eq_range', List.range'_succ, List.find?_cons]
    by_cases hmark : mark <+: c :: t
    · obtain ⟨rest, hrest⟩ := hmark
      have hbody : IsBody mark (c :: t) 0 := hzero.2 ⟨rest, hrest⟩
      rw [← hrest] at hbody ⊢
      simp [hbody, isPrefixOf?_append]
    · have hbody : ¬ IsBody mark (c :: t) 0 := mt hzero.1 hmark
      simp only [hbody, decide_false, Nat.zero_add, find?_succ, ih, isPrefixOf?_eq_none_iff.2 hmark]
      split
      · rfl
      · simp [Function.comp_def, Nat.add_right_comm]

/-- A body is the shortest one: its first character may start a delimiter, the others may not. -/
theorem body?_eq_bodyLength? (mark inner : Text) :
    body? mark inner = (bodyLength? mark inner).map fun n =>
      (inner.take n, inner.drop (n + mark.length)) := by
  cases inner with
  | nil => rfl
  | cons c t =>
    rw [bodyLength?, List.length_cons, Nat.add_sub_cancel, find?_succ, body?, closing?_eq_find?]
    split
    · rfl
    · simp [Function.comp_def, Nat.add_right_comm]

theorem bodyAt?_eq_plainBody? (s : Delimited) (mark t : Text) :
    s.bodyAt? mark t = (plainBody? s.bodyMayStartWithMark mark t).map fun body =>
      (body, t.drop (Token.span mark body).read.length) := by
  by_cases hmark : mark <+: t
  · obtain ⟨inner, rfl⟩ := hmark
    simp only [bodyAt?, plainBody?, isPrefixOf?_append, Option.bind_some, List.drop_left,
      List.prefix_append, true_and, body?_eq_bodyLength?, List.isPrefixOf_iff_prefix]
    by_cases hstart : s.bodyMayStartWithMark = false ∧ mark <+: inner
    · have hopen : ¬ (s.bodyMayStartWithMark = false → ¬ mark <+: inner) :=
        fun h => h hstart.1 hstart.2
      rw [if_pos hstart, if_neg hopen, Option.map_none]
    · have hopen : s.bodyMayStartWithMark = false → ¬ mark <+: inner :=
        fun hstyle hinner => hstart ⟨hstyle, hinner⟩
      rw [if_neg hstart, if_pos hopen, Option.map_map]
      refine Option.map_congr fun n hn => ?_
      obtain ⟨-, hlength, -⟩ := bodyLength?_eq_some hn
      have htake : (inner.take n).length = n := List.length_take_of_le hlength.le
      simp only [Function.comp_apply, Token.read, List.length_append, htake, Nat.add_assoc,
        List.drop_length_add_append]
  · rw [bodyAt?, isPrefixOf?_eq_none_iff.2 hmark, plainBody?, if_neg fun h => hmark h.1]
    rfl

theorem spanAt?_eq_plainSpan? (s : Delimited) (t : Text) :
    s.spanAt? t = (plainSpan? s.marks s.bodyMayStartWithMark t).map fun (mark, body) =>
      (s.write body, t.drop (Token.span mark body).read.length) := by
  simp only [spanAt?, plainSpan?, List.map_findSome?, bodyAt?_eq_plainBody?, Option.map_map,
    Function.comp_def]

/-! ## The whole text -/

/-- The tokens of a text are read one after the other, none twice and nothing between them. -/
theorem flatMap_read (marks : List Text) (mayDouble : Bool) (t : Text) :
    (tokens marks mayDouble t).flatMap Token.read = t := by
  fun_induction tokens marks mayDouble t with
  | case1 t mark body h ih =>
    obtain ⟨-, hread⟩ := plainSpan?_eq_some h
    rw [List.flatMap_cons, ih, List.prefix_iff_eq_append.1 hread]
  | case2 => rfl
  | case3 c t h ih => rw [List.flatMap_cons, ih]; rfl

/-- A style is what the plain matcher reads, token by token. -/
theorem format_eq_tokens (s : Delimited) (t : Text) :
    s.format t = (tokens s.marks s.bodyMayStartWithMark t).flatMap (Token.written s.write) := by
  fun_induction tokens s.marks s.bodyMayStartWithMark t with
  | case1 t mark body h ih =>
    have hspan : s.spanAt? t = some (s.write body, t.drop (Token.span mark body).read.length) := by
      rw [spanAt?_eq_plainSpan?, h]
      rfl
    rw [format, Pattern.replace_of_spanAt? hspan, List.flatMap_cons, ← ih]
    rfl
  | case2 => exact Pattern.replace_nil s.pattern
  | case3 c t h ih =>
    have hspan : s.spanAt? (c :: t) = none := by rw [spanAt?_eq_plainSpan?, h]; rfl
    rw [format, Pattern.replace_cons hspan, List.flatMap_cons, ← ih]
    rfl

/-- **The three styles are what the plain matcher reads.** Written are the bodies of the spans in
their markup, those of code encoded, and the other characters as they are; and the tokens that are
read, whatever the delimiters, are all of the text in its order. -/
theorem styles_eq_tokens (t : Text) :
    strong.format t = (tokens ["**".toList, "__".toList] false t).flatMap
        (Token.written (element "strong".toList)) ∧
      emphasis.format t = (tokens ["*".toList, "_".toList] false t).flatMap
        (Token.written (element "em".toList)) ∧
      code.format t = (tokens ["`".toList] true t).flatMap
        (Token.written fun body => element "code".toList (Entity.encode body)) ∧
      ∀ marks mayDouble, (tokens marks mayDouble t).flatMap Token.read = t :=
  ⟨format_eq_tokens strong t, format_eq_tokens emphasis t, format_eq_tokens code t,
    fun marks mayDouble => flatMap_read marks mayDouble t⟩

/-- Four asterisks open no span at the first of them, one at the second does. -/
example : tokens ["**".toList, "__".toList] false "****a**".toList =
    [.copied '*', .span "**".toList "*a".toList] := by cbv

end MarkdownPreview.Delimited

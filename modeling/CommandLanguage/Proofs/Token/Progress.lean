import CommandLanguage.Proofs.Text.Block
import CommandLanguage.Proofs.Token.Layout
import Mathlib.Data.Nat.Find

/-!
# Scanning on

The scanner may be asked for tokens without end: behind a fault it goes on where the fault left it,
and behind the source it finds its end again. Each call passes over some trivia and over the text of
the token that it returns, so no text is lost, and the line of a token counts the line feeds before
its text.
-/

set_option autoImplicit false

namespace CommandLanguage

open Text

namespace Text

variable {s t : Text}

theorem IsTrivia.append (hs : IsTrivia s) (ht : IsTrivia t) : IsTrivia (s ++ t) := by
  induction hs with
  | nil => exact ht
  | blank blank _ ih => exact .blank blank ih
  | comment inLine _ ih =>
    rw [List.cons_append, List.append_assoc]
    exact .comment inLine ih

theorem IsTrivia.append_final (hs : IsTrivia s) (ht : IsFinalTrivia t) : IsFinalTrivia (s ++ t) := by
  rcases ht with ht | ⟨before, body, hb, inLine, rfl⟩
  · exact .inl (hs.append ht)
  · refine .inr ⟨s ++ before, body, hs.append hb, inLine, ?_⟩
    rw [List.append_assoc]

/-- A comment takes all the text, or ends at a line feed. -/
theorem comment_cases (t : Text) : IsFinalTrivia (unit '#' :: t) ∨
    ∃ body rest, unit '#' :: t = (unit '#' :: (body ++ [lineFeed])) ++ rest ∧ lineFeed ∉ body := by
  have inLine : lineFeed ∉ t.takeWhile (· ≠ lineFeed) := by
    intro hm
    simpa using List.mem_takeWhile_imp hm
  have split := List.takeWhile_append_dropWhile (p := (· ≠ lineFeed)) (l := t)
  cases hd : t.dropWhile (· ≠ lineFeed) with
  | nil =>
    rw [hd, List.append_nil] at split
    rw [split] at inLine
    exact .inl (.inr ⟨[], t, .nil, inLine, rfl⟩)
  | cons u rest =>
    have hu : u = lineFeed := by
      simpa using head?_dropWhile (p := (· ≠ lineFeed)) t u (by rw [hd]; rfl)
    subst hu
    refine .inr ⟨t.takeWhile (· ≠ lineFeed), rest, ?_, inLine⟩
    rw [hd] at split
    simpa using split.symm

/-- A text is trivia, or a token stands behind some trivia. -/
theorem trivia_cases (t : Text) : IsFinalTrivia t ∨
    ∃ trivia u rest, t = trivia ++ u :: rest ∧ IsTrivia trivia ∧ isBlank u = false ∧
      u ≠ unit '#' := by
  -- One unit of white space or one comment is taken off the front.
  induction hn : t.length using Nat.strongRecOn generalizing t with
  | ind n ih =>
    have behind {front rest : Text} (hf : IsTrivia front) (nonempty : front ≠ [])
        (ht : t = front ++ rest) : IsFinalTrivia t ∨ ∃ trivia u rest, t = trivia ++ u :: rest ∧
          IsTrivia trivia ∧ isBlank u = false ∧ u ≠ unit '#' := by
      have hlt : rest.length < n := by
        have := List.length_pos_iff.mpr nonempty
        rw [← hn, ht, List.length_append]
        omega
      rw [ht]
      rcases ih rest.length hlt rest rfl with hr | ⟨trivia, u, others, rfl, htrivia, hu⟩
      · exact .inl (hf.append_final hr)
      · exact .inr ⟨front ++ trivia, u, others, by simp, hf.append htrivia, hu⟩
    cases t with
    | nil => exact .inl (.inl .nil)
    | cons u rest =>
      by_cases blank : isBlank u = true
      · have alone : IsTrivia [u] := .blank blank .nil
        exact behind alone (by simp) rfl
      · by_cases hash : u = unit '#'
        · subst hash
          rcases comment_cases rest with hf | ⟨body, others, ht, inLine⟩
          · exact .inl hf
          · exact behind (.comment inLine .nil) (by simp) ht
        · exact .inr ⟨[], u, rest, rfl, .nil, eq_false_of_ne_true blank, hash⟩

theorem eq_of_splitAtTripleQuote {before after : Text}
    (h : splitAtTripleQuote t = some (before, after)) : t = before ++ (tripleQuote ++ after) := by
  induction t generalizing before with
  | nil => cases h
  | cons u rest ih =>
    unfold splitAtTripleQuote at h
    split at h
    · next start =>
      cases h
      obtain ⟨behind, hb⟩ := List.isPrefixOf_iff_prefix.mp start
      rw [← hb, ← (List.cons.inj hb).2]
      rfl
    · obtain ⟨⟨inner, _⟩, hs, he⟩ := Option.map_eq_some_iff.mp h
      cases he
      rw [List.cons_append, ← ih hs]

end Text

/-- A word or a number is all of the text, which what stands behind does not continue. -/
structure TokenKind.Fills (kind : TokenKind) (text behind : Text) : Prop where
  word : ∀ name, kind = .identifier name →
    text = name ∧ ∀ u ∈ behind.head?, isIdentifierPart u = false
  number : ∀ digits, kind = .number digits → text = digits ∧ ∀ u ∈ behind.head?, isDigit u = false

namespace Cursor

/-- The place after so many calls. -/
def after (c : Cursor) : Nat → Cursor
  | 0 => c
  | n + 1 => (c.after n).next.2

/-- The token that the next call returns after so many. -/
def nth (c : Cursor) (n : Nat) : Token := (c.after n).next.1

/-- What a call passes over: trivia, whose last comment may end with the source, and the text of the
token that it returns, which is empty only for the end of the source. -/
structure Passes (c : Cursor) (trivia text : Text) : Prop where
  rest_eq : c.rest = trivia ++ (text ++ c.next.2.rest)
  begins : c.next.1.line = c.line + trivia.lineFeeds
  line_eq : c.next.2.line = c.line + (trivia ++ text).lineFeeds
  final : IsFinalTrivia trivia
  starts : ∀ u ∈ text.head?, isBlank u = false ∧ u ≠ unit '#'
  more : c.next.1.kind ≠ .endOfInput → IsTrivia trivia ∧ text ≠ []
  ended : c.next.1.kind = .endOfInput → text = [] ∧ c.next.2.rest = []
  fills : c.next.1.kind.Fills text c.next.2.rest

/-- A string is read up to its closing quotes; where they lack, up to the end of the line or of the
source. -/
theorem exists_string_text (rest : Text) (line : Int) :
    ∃ text, rest = text ++ (string rest line).2.rest ∧
      (string rest line).2.line = line + text.lineFeeds ∧
      ((∃ value, (string rest line).1 = .string value) ∨
        ∃ cause, (string rest line).1 = .fault cause) := by
  unfold string
  split
  · next opening =>
    obtain ⟨body, rfl⟩ := List.isPrefixOf_iff_prefix.mp opening
    have none : lineFeeds [quote, quote] = 0 := by decide
    have closing : lineFeeds tripleQuote = 0 := by decide
    have hdrop : ([quote, quote] ++ body).drop 2 = body := rfl
    rw [hdrop]
    cases hs : splitAtTripleQuote body with
    | none =>
      refine ⟨[quote, quote] ++ body, by simp, ?_, .inr ⟨_, rfl⟩⟩
      rw [lineFeeds_append, none, Int.zero_add]
    | some parts =>
      obtain ⟨raw, behind⟩ := parts
      refine ⟨[quote, quote] ++ (raw ++ tripleQuote), ?_, ?_, .inl ⟨_, rfl⟩⟩
      · simp [eq_of_splitAtTripleQuote hs]
      · rw [lineFeeds_append, lineFeeds_append, none, closing, Int.zero_add, Int.add_zero]
  · have plain : lineFeeds (rest.takeWhile isStringPart) = 0 := by
      apply lineFeeds_of_not_mem
      intro hm
      exact absurd (List.mem_takeWhile_imp hm) (by decide)
    have whole := List.takeWhile_append_dropWhile (p := isStringPart) (l := rest)
    split
    · next hd =>
      rw [hd] at whole
      exact ⟨rest.takeWhile isStringPart, whole.symm, by simp [plain], .inr ⟨_, rfl⟩⟩
    · next v behind hd =>
      rw [hd] at whole
      split
      · next hv =>
        subst hv
        refine ⟨rest.takeWhile isStringPart ++ [quote], by simpa using whole.symm, ?_, .inl ⟨_, rfl⟩⟩
        rw [lineFeeds_append, plain]
        simp [lineFeeds_cons_of_ne (show quote ≠ lineFeed by decide)]
      · exact ⟨rest.takeWhile isStringPart, whole.symm, by simp [plain], .inr ⟨_, rfl⟩⟩

theorem exists_token_text {u : CodeUnit} (inLine : u ≠ lineFeed) (rest : Text) (line : Int) :
    ∃ text, rest = text ++ (token u rest line).2.rest ∧
      (token u rest line).2.line = line + lineFeeds (u :: text) ∧
      (token u rest line).1 ≠ .endOfInput ∧
      (token u rest line).1.Fills (u :: text) (token u rest line).2.rest := by
  have run {p : CodeUnit → Bool} (hp : p lineFeed = false) : lineFeeds (rest.takeWhile p) = 0 := by
    apply lineFeeds_of_not_mem
    intro hm
    have := List.mem_takeWhile_imp hm
    rw [hp] at this
    cases this
  have whole {p : CodeUnit → Bool} : rest = rest.takeWhile p ++ rest.dropWhile p :=
    List.takeWhile_append_dropWhile.symm
  have other {kind : TokenKind} {text behind : Text} (word : ∀ name, kind ≠ .identifier name)
      (number : ∀ digits, kind ≠ .number digits) : kind.Fills text behind :=
    ⟨fun name h => absurd h (word name), fun digits h => absurd h (number digits)⟩
  have hfeeds (t : Text) : lineFeeds (u :: t) = t.lineFeeds := lineFeeds_cons_of_ne inLine t
  unfold token
  split
  · obtain ⟨text, hrest, hline, hkind⟩ := exists_string_text rest line
    rcases hkind with ⟨_, hk⟩ | ⟨_, hk⟩
    · exact ⟨text, hrest, by rw [hline, hfeeds], by simp [hk], other (by simp [hk]) (by simp [hk])⟩
    · exact ⟨text, hrest, by rw [hline, hfeeds], by simp [hk], other (by simp [hk]) (by simp [hk])⟩
  · split
    · exact ⟨[], rfl, by simp [hfeeds], by simp, other (by simp) (by simp)⟩
    · split
      · refine ⟨rest.takeWhile isDigit, whole, ?_, by simp, ⟨by simp, ?_⟩⟩
        · rw [hfeeds, run (by decide), Int.add_zero]
        · rintro _ ⟨⟩
          exact ⟨rfl, head?_dropWhile rest⟩
      · split
        · refine ⟨rest.takeWhile isIdentifierPart, whole, ?_, by simp, ⟨?_, by simp⟩⟩
          · rw [hfeeds, run (by decide), Int.add_zero]
          · rintro _ ⟨⟩
            exact ⟨rfl, head?_dropWhile rest⟩
        · exact ⟨[], rfl, by simp [hfeeds], by simp, other (by simp) (by simp)⟩

theorem exists_passes (c : Cursor) : ∃ trivia text, c.Passes trivia text := by
  rcases trivia_cases c.rest with final | ⟨trivia, u, rest, hrest, htrivia, blank, hash⟩
  · refine ⟨c.rest, [], ?_⟩
    have hnext := next_of_final final
    exact
      { rest_eq := by simp [hnext]
        begins := by rw [hnext]
        line_eq := by simp [hnext]
        final
        starts := by simp
        more := fun more => absurd (by rw [hnext]) more
        ended := fun _ => by simp [hnext]
        fills := by rw [hnext]; exact ⟨by simp, by simp⟩ }
  · have inLine : u ≠ lineFeed := by
      rintro rfl
      exact absurd blank (by decide)
    have hskip : skipTrivia false c.rest c.line = ⟨u :: rest, c.line + trivia.lineFeeds⟩ := by
      rw [hrest, skipTrivia_append htrivia, skipTrivia_stops blank hash]
    obtain ⟨text, htext, hline, hkind, fills⟩ :=
      exists_token_text inLine rest (c.line + trivia.lineFeeds)
    have hnext : c.next = (⟨(token u rest (c.line + trivia.lineFeeds)).1, c.line + trivia.lineFeeds⟩,
        (token u rest (c.line + trivia.lineFeeds)).2) := by
      simp only [next, hskip]
    refine ⟨trivia, u :: text, ?_⟩
    exact
      { rest_eq := by rw [hnext, hrest, List.cons_append, ← htext]
        begins := by rw [hnext]
        line_eq := by rw [hnext, lineFeeds_append, ← Int.add_assoc]; exact hline
        final := .inl htrivia
        starts := by
          rintro _ ⟨⟩
          exact ⟨blank, hash⟩
        more := fun _ => ⟨htrivia, List.cons_ne_nil u text⟩
        ended := fun ended => absurd (by rw [hnext] at ended; exact ended) hkind
        fills := by rw [hnext]; exact fills }

/-- What has been passed over stands in front of the place, and its line feeds give the line. -/
theorem exists_before (source : Text) (n : Nat) :
    ∃ before, source = before ++ ((start source).after n).rest ∧
      ((start source).after n).line = 1 + before.lineFeeds := by
  induction n with
  | zero => exact ⟨[], rfl, rfl⟩
  | succ n ih =>
    obtain ⟨before, hsource, hline⟩ := ih
    obtain ⟨trivia, text, passes⟩ := ((start source).after n).exists_passes
    refine ⟨before ++ (trivia ++ text), ?_, ?_⟩
    · rw [List.append_assoc, List.append_assoc, after, ← passes.rest_eq]
      exact hsource
    · rw [after, passes.line_eq, hline, lineFeeds_append before, Int.add_assoc]

/-- How many units of a source stand in front of the place after so many calls. -/
def position (source : Text) (n : Nat) : Nat :=
  source.length - ((start source).after n).rest.length

theorem rest_eq_drop (source : Text) (n : Nat) :
    ((start source).after n).rest = source.drop (position source n) ∧
      ((start source).after n).line = 1 + lineFeeds (source.take (position source n)) := by
  obtain ⟨before, hsource, hline⟩ := exists_before source n
  have hposition : position source n = before.length := by
    have := congrArg List.length hsource
    rw [List.length_append] at this
    unfold position
    omega
  generalize ((start source).after n).rest = rest at hsource
  rw [hposition, hline, hsource, List.drop_left, List.take_left]
  exact ⟨rfl, rfl⟩

section Calls
variable {c : Cursor} {n : Nat}

theorem length_after_le (more : ∀ m < n, (c.nth m).kind ≠ .endOfInput) :
    (c.after n).rest.length + n ≤ c.rest.length := by
  induction n with
  | zero => exact Nat.le_refl _
  | succ n ih =>
    have hn := ih fun m hm => more m (Nat.lt_succ_of_lt hm)
    have hlt := (c.after n).next_shorter (more n (Nat.lt_succ_self n))
    simp only [after]
    omega

/-- Behind the end of the source every call returns it again. -/
theorem nth_of_ended (ended : (c.nth n).kind = .endOfInput) {m : Nat} (h : n ≤ m) :
    c.nth m = c.nth n := by
  have next_of_ended {d : Cursor} (hd : d.next.1.kind = .endOfInput) :
      d.next.2.next.1 = d.next.1 := by
    obtain ⟨trivia, text, passes⟩ := d.exists_passes
    obtain ⟨rfl, hrest⟩ := passes.ended hd
    have hline : d.next.2.line = d.next.1.line := by
      rw [passes.line_eq, passes.begins, List.append_nil]
    rw [next_of_final (by rw [hrest]; exact .inl .nil), hrest, lineFeeds_nil, Int.add_zero, hline,
      ← hd]
  induction h with
  | refl => rfl
  | @step m _ ih =>
    rw [← ih]
    exact next_of_ended (by rw [← nth, ih]; exact ended)

theorem exists_ended (c : Cursor) : ∃ n ≤ c.rest.length,
    (∀ m < n, (c.nth m).kind ≠ .endOfInput) ∧ (c.nth n).kind = .endOfInput := by
  have some : ∃ n, (c.nth n).kind = .endOfInput := by
    by_contra none
    have more (m : Nat) : (c.nth m).kind ≠ .endOfInput := fun hm => none ⟨m, hm⟩
    have := length_after_le (n := c.rest.length + 1) fun m _ => more m
    omega
  have before : ∀ m < Nat.find some, (c.nth m).kind ≠ .endOfInput := fun _ => Nat.find_min some
  have := length_after_le before
  exact ⟨Nat.find some, by omega, before, Nat.find_spec some⟩

end Calls

/-- Asked for tokens without end, the scanner loses no text: what stands behind its place is the
rest of the source, and each call passes over trivia and the text of its token, which gets the line
that the line feeds in front of the text make. Every call takes some text until the end of the source
is returned, after one call more than the source has units at the latest; from then on all calls
return it. -/
theorem scanning_on_loses_no_text (source : Text) :
    (∀ n, position source n ≤ source.length ∧
      ((start source).after n).rest = source.drop (position source n) ∧
      (((start source).nth n).kind ≠ .endOfInput → position source n < position source (n + 1)) ∧
      ∃ trivia text, ((start source).after n).Passes trivia text ∧
        ((start source).nth n).line = 1 + lineFeeds (source.take (position source n) ++ trivia)) ∧
    ∃ last ≤ source.length, (∀ n < last, ((start source).nth n).kind ≠ .endOfInput) ∧
      ∀ n, last ≤ n → (start source).nth n = ⟨.endOfInput, 1 + source.lineFeeds⟩ := by
  have passed (n : Nat) : ∃ trivia text, ((start source).after n).Passes trivia text ∧
      ((start source).nth n).line = 1 + lineFeeds (source.take (position source n) ++ trivia) := by
    obtain ⟨trivia, text, passes⟩ := ((start source).after n).exists_passes
    refine ⟨trivia, text, passes, ?_⟩
    rw [nth, passes.begins, (rest_eq_drop source n).2, lineFeeds_append, Int.add_assoc]
  constructor
  · intro n
    refine ⟨Nat.sub_le _ _, (rest_eq_drop source n).1, ?_, passed n⟩
    intro more
    have hlt := ((start source).after n).next_shorter more
    have hle := congrArg List.length (rest_eq_drop source n).1
    rw [List.length_drop] at hle
    unfold position at hle ⊢
    simp only [after]
    omega
  · obtain ⟨last, hlast, before, ended⟩ := exists_ended (start source)
    refine ⟨last, hlast, before, ?_⟩
    intro n hn
    -- The trivia in front of the end are all that is left of the source.
    obtain ⟨trivia, text, passes, hline⟩ := passed last
    obtain ⟨rfl, hrest⟩ := passes.ended ended
    have htrivia : source.take (position source last) ++ trivia = source := by
      have := passes.rest_eq
      rw [hrest, List.append_nil, List.append_nil, (rest_eq_drop source last).1] at this
      rw [← this, List.take_append_drop]
    rw [htrivia] at hline
    rw [nth_of_ended ended hn, ← ended, ← hline]

/-- A fault in the middle of a line does not keep the next call from what stands behind it. -/
example : (List.range 4).map (start "\"a\n%b").nth =
    [⟨.fault .unterminatedString, 1⟩, ⟨.fault (.unexpectedUnit (unit '%')), 2⟩,
      ⟨.identifier "b", 2⟩, ⟨.endOfInput, 2⟩] := by decide

end Cursor

end CommandLanguage

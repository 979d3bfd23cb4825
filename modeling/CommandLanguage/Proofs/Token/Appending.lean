import CommandLanguage.Proofs.Declaration.Meaning
import CommandLanguage.Proofs.Token.Progress

/-!
# Scanning what is appended

A line feed ends every token but a block, and no block is open behind the last token of a source. So
the tokens of a source with more text on further lines are those of the source and then those of the
text, and the latter stand on later lines.
-/

set_option autoImplicit false

namespace CommandLanguage

open Text

namespace Text

variable {t before after : Text}

theorem IsFinalTrivia.append_lineFeed (h : IsFinalTrivia t) : IsTrivia (t ++ [lineFeed]) := by
  have feed : IsTrivia [lineFeed] := .blank (by decide) .nil
  rcases h with h | ⟨before, body, h, inLine, rfl⟩
  · exact h.append feed
  · have comment : IsTrivia (unit '#' :: (body ++ [lineFeed])) := .comment inLine .nil
    rw [List.append_assoc]
    exact h.append comment

/-- A run of units that no line feed belongs to ends with its line. -/
theorem span_append_lineFeed {p : CodeUnit → Bool} (stops : p lineFeed = false) (t tail : Text) :
    (t ++ lineFeed :: tail).takeWhile p = t.takeWhile p ∧
      (t ++ lineFeed :: tail).dropWhile p = t.dropWhile p ++ lineFeed :: tail := by
  induction t with
  | nil => simp [stops]
  | cons u t ih =>
    by_cases hu : p u = true
    · simp [hu, ih]
    · simp [hu]

/-- What was found to end a block ends it as well if the text is longer. -/
theorem splitAtTripleQuote_longer (h : splitAtTripleQuote t = some (before, after)) (tail : Text) :
    splitAtTripleQuote (t ++ tail) = some (before, after ++ tail) := by
  have first : EndsAtFirstQuotes before := by
    intro front behind he
    apply length_le_of_splitAtTripleQuote h
    rw [eq_of_splitAtTripleQuote h, ← List.append_assoc, he, List.append_assoc, List.append_assoc]
  rw [eq_of_splitAtTripleQuote h, List.append_assoc, List.append_assoc,
    first.splitAtTripleQuote_eq]

end Text

namespace Cursor

/-- The place, if more text follows on the next line. -/
def followedBy (c : Cursor) (tail : Text) : Cursor := ⟨c.rest ++ lineFeed :: tail, c.line⟩

/-- The first place of the text on the next line. -/
def below (c : Cursor) (tail : Text) : Cursor := ⟨tail, c.line + c.rest.lineFeeds + 1⟩

variable {rest : Text} {line : Int} {u : CodeUnit} {c : Cursor}

theorem opens_append_iff (rest tail : Text) :
    [quote, quote].isPrefixOf (rest ++ lineFeed :: tail) = [quote, quote].isPrefixOf rest := by
  have apart : ¬ quote = lineFeed := by decide
  match rest with
  | [] => simp [List.isPrefixOf, apart]
  | [u] => simp [List.isPrefixOf, apart]
  | u :: v :: rest => simp [List.isPrefixOf]

theorem string_append (more : (string rest line).1.isLast = false) (tail : Text) :
    string (rest ++ lineFeed :: tail) line =
      ((string rest line).1, (string rest line).2.followedBy tail) := by
  unfold string at more ⊢
  rw [opens_append_iff]
  split
  · next opening =>
    obtain ⟨body, rfl⟩ := List.isPrefixOf_iff_prefix.mp opening
    rw [if_pos opening] at more
    have within : ([quote, quote] ++ body ++ lineFeed :: tail).drop 2 = body ++ lineFeed :: tail := rfl
    have alone : ([quote, quote] ++ body).drop 2 = body := rfl
    rw [alone] at more
    rw [within, alone]
    cases hs : splitAtTripleQuote body with
    | none =>
      rw [hs] at more
      cases more
    | some parts => simp only [splitAtTripleQuote_longer hs, followedBy]
  · next opening =>
    rw [if_neg opening] at more
    obtain ⟨htake, hdrop⟩ := span_append_lineFeed (p := isStringPart) (by decide) rest tail
    rw [htake, hdrop]
    cases hd : rest.dropWhile isStringPart with
    | nil =>
      rw [hd] at more
      cases more
    | cons v after =>
      rw [hd] at more
      by_cases hv : v = quote
      · simp [hv, followedBy]
      · simp [hv, TokenKind.isLast] at more

theorem token_append (more : (token u rest line).1.isLast = false) (tail : Text) :
    token u (rest ++ lineFeed :: tail) line =
      ((token u rest line).1, (token u rest line).2.followedBy tail) := by
  unfold token at more ⊢
  split
  · next hu =>
    rw [if_pos hu] at more
    exact string_append more tail
  · next hu =>
    rw [if_neg hu] at more
    split
    · rfl
    · split
      · obtain ⟨htake, hdrop⟩ := span_append_lineFeed (p := isDigit) (by decide) rest tail
        rw [htake, hdrop]
        rfl
      · split
        · obtain ⟨htake, hdrop⟩ := span_append_lineFeed (p := isIdentifierPart) (by decide) rest tail
          rw [htake, hdrop]
          rfl
        · simp_all [TokenKind.isLast]

theorem next_append (more : c.next.1.kind.isLast = false) (tail : Text) :
    (c.followedBy tail).next = (c.next.1, c.next.2.followedBy tail) := by
  rcases trivia_cases c.rest with final | ⟨trivia, u, rest, hrest, htrivia, blank, hash⟩
  · rw [next_of_final final] at more
    cases more
  · have alone : skipTrivia false c.rest c.line = ⟨u :: rest, c.line + trivia.lineFeeds⟩ := by
      rw [hrest, skipTrivia_append htrivia, skipTrivia_stops blank hash]
    have within : skipTrivia false (c.followedBy tail).rest (c.followedBy tail).line =
        ⟨u :: (rest ++ lineFeed :: tail), c.line + trivia.lineFeeds⟩ := by
      rw [followedBy, hrest, List.append_assoc, skipTrivia_append htrivia, List.cons_append,
        skipTrivia_stops blank hash]
    have hnext : c.next = (⟨(token u rest (c.line + trivia.lineFeeds)).1, c.line + trivia.lineFeeds⟩,
        (token u rest (c.line + trivia.lineFeeds)).2) := by
      simp only [next, alone]
    rw [hnext] at more ⊢
    simp only [next, within, token_append more tail]

theorem next_below (ended : c.next.1.kind = .endOfInput) (tail : Text) :
    (c.followedBy tail).next = (c.below tail).next := by
  have final : IsFinalTrivia c.rest := by
    obtain ⟨trivia, text, passes⟩ := c.exists_passes
    obtain ⟨rfl, hrest⟩ := passes.ended ended
    have all := passes.rest_eq
    rw [hrest, List.append_nil, List.append_nil] at all
    exact all ▸ passes.final
  have skipped : skipTrivia false (c.followedBy tail).rest (c.followedBy tail).line =
      skipTrivia false (c.below tail).rest (c.below tail).line := by
    rw [followedBy, List.append_cons, skipTrivia_append final.append_lineFeed, lineFeeds_append,
      ← Int.add_assoc]
    rfl
  simp only [next, skipped]

/-- The line feeds of a token count for the lines behind it. -/
theorem line_add_lineFeeds_next (c : Cursor) :
    c.next.2.line + c.next.2.rest.lineFeeds = c.line + c.rest.lineFeeds := by
  obtain ⟨trivia, text, passes⟩ := c.exists_passes
  have feeds := congrArg lineFeeds passes.rest_eq
  rw [← List.append_assoc, lineFeeds_append] at feeds
  rw [passes.line_eq, feeds, Int.add_assoc]

theorem tokens_eq_of_next_eq {d : Cursor} (h : c.next = d.next) : c.tokens = d.tokens := by
  rw [tokens, h, ← tokens]

theorem tokens_append (h : Faultless c.tokens) (tail : Text) :
    (c.followedBy tail).tokens = c.tokens.dropLast ++ (c.below tail).tokens := by
  induction c using tokens.induct with
  | case1 c last =>
    have only : c.tokens = [c.next.1] := by rw [tokens, if_pos last]
    rw [only] at h ⊢
    have ended := TokenKind.eq_endOfInput last (h c.next.1 List.mem_cons_self)
    exact tokens_eq_of_next_eq (next_below ended tail)
  | case2 c more ih =>
    have begun : c.tokens = c.next.1 :: c.next.2.tokens := by rw [tokens, if_neg more]
    have nonempty : c.next.2.tokens ≠ [] := by
      obtain ⟨body, last, he, _⟩ := c.next.2.exists_last
      simp [he]
    rw [begun] at h ⊢
    have others := ih (List.forall_mem_cons.mp h).2
    have next := next_append (eq_false_of_ne_true more) tail
    have same : c.next.2.below tail = c.below tail := by
      rw [below, below, line_add_lineFeeds_next]
    rw [tokens, next, if_neg more, others, same, List.dropLast_cons_of_ne_nil nonempty,
      List.cons_append]

theorem lineFeeds_nonneg (t : Text) : 0 ≤ t.lineFeeds := Int.natCast_nonneg _

theorem lines_of_mem_tokens : ∀ token ∈ c.tokens,
    c.line ≤ token.line ∧ token.line ≤ c.line + c.rest.lineFeeds := by
  have first (c : Cursor) :
      c.line ≤ c.next.1.line ∧ c.next.1.line ≤ c.line + c.rest.lineFeeds := by
    obtain ⟨trivia, text, passes⟩ := c.exists_passes
    have feeds := congrArg lineFeeds passes.rest_eq
    rw [lineFeeds_append] at feeds
    have := lineFeeds_nonneg trivia
    have := lineFeeds_nonneg (text ++ c.next.2.rest)
    rw [passes.begins, feeds]
    omega
  induction c using tokens.induct with
  | case1 c last =>
    rw [tokens, if_pos last, List.forall_mem_singleton]
    exact first c
  | case2 c more ih =>
    rw [tokens, if_neg more, List.forall_mem_cons]
    refine ⟨first c, fun token hm => ?_⟩
    obtain ⟨trivia, text, passes⟩ := c.exists_passes
    have := lineFeeds_nonneg (trivia ++ text)
    have forward : c.line ≤ c.next.2.line := by
      rw [passes.line_eq]
      omega
    have := ih token hm
    rw [line_add_lineFeeds_next] at this
    omega

end Cursor

/-- The tokens of a source with a text on further lines. -/
theorem exists_scan_append {source : Text} (h : Faultless (scan source)) (more : Text) :
    ∃ others, scan (source ++ lineFeed :: more) = (scan source).dropLast ++ others ∧
      ∀ token ∈ (scan source).dropLast, ∀ other ∈ others, token.line < other.line := by
  refine ⟨((Cursor.start source).below more).tokens, Cursor.tokens_append h more, ?_⟩
  intro token ht other ho
  have before := (Cursor.lines_of_mem_tokens token (List.mem_of_mem_dropLast ht)).2
  have behind := (Cursor.lines_of_mem_tokens other ho).1
  have below : ((Cursor.start source).below more).line =
    (Cursor.start source).line + (Cursor.start source).rest.lineFeeds + 1 := rfl
  omega

end CommandLanguage

import CommandLanguage.Proofs.Declaration.Names

/-!
# Laying out tokens

A lexeme is a token as it is written, and trivia are the white space and the comments around it.
Scanning a source that was laid out from lexemes and trivia gives back the tokens of the lexemes,
each with the line on which it begins, whatever trivia were chosen.
-/

set_option autoImplicit false

namespace CommandLanguage

open Text

namespace Text

def tripleQuote : Text := [quote, quote, quote]

section Ranges
variable {u : CodeUnit}

theorem range_of_isIdentifierStart (h : isIdentifierStart u = true) :
    u.toNat = 0x2E ∨ 0x41 ≤ u.toNat ∧ u.toNat ≤ 0x7A := by
  simp [isIdentifierStart, isLetter, UInt16.le_iff_toNat_le, ← UInt16.toNat_inj] at h
  omega

theorem range_of_isIdentifierPart (h : isIdentifierPart u = true) :
    0x2D ≤ u.toNat ∧ u.toNat ≤ 0x7A := by
  simp [isIdentifierPart, isIdentifierStart, isDigit, isLetter, UInt16.le_iff_toNat_le,
    ← UInt16.toNat_inj] at h
  omega

theorem range_of_isDigit (h : isDigit u = true) : 0x30 ≤ u.toNat ∧ u.toNat ≤ 0x39 := by
  simpa [isDigit, UInt16.le_iff_toNat_le] using h

theorem range_of_isBlank (h : isBlank u = true) : u.toNat ≤ 0x20 ∨ 0xA0 ≤ u.toNat := by
  simp [isBlank, UInt16.le_iff_toNat_le, ← UInt16.toNat_inj] at h
  omega

theorem isBlank_eq_false (low : 0x20 < u.toNat) (high : u.toNat < 0xA0) : isBlank u = false := by
  refine Bool.eq_false_iff.mpr fun h => ?_
  have := range_of_isBlank h
  omega

theorem ne_of_toNat_ne {v : CodeUnit} (h : u.toNat ≠ v.toNat) : u ≠ v := fun he => h (he ▸ rfl)

end Ranges

@[simp] theorem lineFeeds_nil : lineFeeds [] = 0 := rfl

@[simp] theorem lineFeeds_append (s t : Text) : (s ++ t).lineFeeds = s.lineFeeds + t.lineFeeds := by
  simp [lineFeeds]

@[simp] theorem lineFeeds_lineFeed_cons (t : Text) :
    lineFeeds (lineFeed :: t) = 1 + t.lineFeeds := by
  simp [lineFeeds, Int.add_comm]

theorem lineFeeds_cons_of_ne {u : CodeUnit} (h : u ≠ lineFeed) (t : Text) :
    lineFeeds (u :: t) = t.lineFeeds := by
  simp [lineFeeds, List.count_cons_of_ne h]

theorem lineFeeds_of_not_mem {t : Text} (h : lineFeed ∉ t) : t.lineFeeds = 0 := by
  simp [lineFeeds, List.count_eq_zero_of_not_mem h]

theorem lineFeeds_comment {body : Text} (h : lineFeed ∉ body) :
    lineFeeds (unit '#' :: body) = 0 := by
  rw [lineFeeds_cons_of_ne (by decide), lineFeeds_of_not_mem h]

/-- White space, and comments with the line feed that ends them. -/
inductive IsTrivia : Text → Prop where
  | nil : IsTrivia []
  | blank {u : CodeUnit} {rest : Text} (blank : isBlank u = true) (others : IsTrivia rest) :
      IsTrivia (u :: rest)
  | comment {body rest : Text} (inLine : lineFeed ∉ body) (others : IsTrivia rest) :
      IsTrivia (unit '#' :: (body ++ lineFeed :: rest))

/-- Trivia whose last comment may end with the text. -/
def IsFinalTrivia (t : Text) : Prop :=
  IsTrivia t ∨ ∃ before body, IsTrivia before ∧ lineFeed ∉ body ∧ t = before ++ unit '#' :: body

/-- The text continues no token: it is over, or it goes on with white space or a comment. -/
def SetsApart (t : Text) : Prop := ∀ u ∈ t.head?, isBlank u = true ∨ u = unit '#'

theorem IsTrivia.setsApart {t after : Text} (h : IsTrivia t) (nonempty : t ≠ []) :
    SetsApart (t ++ after) := by
  cases h with
  | nil => exact absurd rfl nonempty
  | blank blank _ =>
    rintro _ ⟨⟩
    exact .inl blank
  | comment _ _ =>
    rintro _ ⟨⟩
    exact .inr rfl

theorem IsFinalTrivia.setsApart {t : Text} (h : IsFinalTrivia t) : SetsApart t := by
  rcases h with h | ⟨before, body, h, _, rfl⟩
  · by_cases hn : t = []
    · simp [hn, SetsApart]
    · rw [← List.append_nil t]
      exact h.setsApart hn
  · by_cases hn : before = []
    · simp [hn, SetsApart]
    · exact h.setsApart hn

theorem SetsApart.head?_ne {t : Text} (h : SetsApart t) {u : CodeUnit} (range : 0x20 < u.toNat)
    (bound : u.toNat < 0xA0) (differs : u ≠ unit '#') : t.head? ≠ some u := by
  intro he
  rcases h u he with hb | hc
  · exact absurd hb (by simp [isBlank_eq_false range bound])
  · exact differs hc

end Text

namespace Cursor

variable {t rest : Text} {line : Int}

theorem skipTrivia_comment {body : Text} (h : lineFeed ∉ body) :
    skipTrivia false (unit '#' :: (body ++ rest)) line = skipTrivia true rest line := by
  have inside : skipTrivia true (body ++ rest) line = skipTrivia true rest line := by
    induction body with
    | nil => rfl
    | cons u body ih =>
      have hu : u ≠ lineFeed := Ne.symm (List.ne_of_not_mem_cons h)
      simp [skipTrivia, hu, ih (List.not_mem_of_not_mem_cons h)]
  rw [← inside, skipTrivia]
  rfl

theorem skipTrivia_lineFeed (inComment : Bool) :
    skipTrivia inComment (lineFeed :: rest) line = skipTrivia false rest (line + 1) := by
  simp [skipTrivia]

theorem skipTrivia_append (h : IsTrivia t) :
    skipTrivia false (t ++ rest) line = skipTrivia false rest (line + t.lineFeeds) := by
  induction h generalizing line with
  | nil => simp
  | @blank u others blank _ ih =>
    by_cases hu : u = lineFeed
    · subst hu
      rw [lineFeeds_lineFeed_cons, ← Int.add_assoc, ← ih, List.cons_append, skipTrivia_lineFeed]
    · rw [lineFeeds_cons_of_ne hu, ← ih]
      simp [skipTrivia, hu, blank]
  | @comment body others inLine _ ih =>
    have hcount : lineFeeds (unit '#' :: (body ++ lineFeed :: others)) = 1 + lineFeeds others := by
      rw [← List.cons_append, lineFeeds_append, lineFeeds_comment inLine, Int.zero_add,
        lineFeeds_lineFeed_cons]
    rw [hcount, ← Int.add_assoc, ← ih, List.cons_append, List.append_assoc,
      skipTrivia_comment inLine, List.cons_append, skipTrivia_lineFeed]

theorem skipTrivia_final (h : IsFinalTrivia t) :
    skipTrivia false t line = ⟨[], line + t.lineFeeds⟩ := by
  rcases h with h | ⟨before, body, h, inLine, rfl⟩
  · rw [← List.append_nil t, skipTrivia_append h, List.append_nil]
    rfl
  · have hcomment : skipTrivia false (unit '#' :: (body ++ [])) (line + before.lineFeeds) =
        skipTrivia true [] (line + before.lineFeeds) := skipTrivia_comment inLine
    rw [List.append_nil] at hcomment
    rw [lineFeeds_append, lineFeeds_comment inLine, Int.add_zero, skipTrivia_append h, hcomment]
    rfl

end Cursor

/-- A token as it is written. -/
inductive Lexeme where
  | word (name : Text)
  | number (digits : Text)
  | equalsSign
  | quoted (body : Text)
  | block (body : Text)
  deriving DecidableEq

/-- The first three quotes in a row behind the opening ones are those that close the block. -/
def EndsAtFirstQuotes (body : Text) : Prop :=
  ∀ before after, body ++ tripleQuote = before ++ (tripleQuote ++ after) →
    body.length ≤ before.length

theorem EndsAtFirstQuotes.splitAtTripleQuote_eq {body : Text} (h : EndsAtFirstQuotes body)
    (after : Text) :
    splitAtTripleQuote (body ++ (tripleQuote ++ after)) = some (body, after) := by
  induction body with
  | nil => rfl
  | cons u body ih =>
    have hstart : ¬ tripleQuote <+: u :: (body ++ (tripleQuote ++ after)) := by
      intro hp
      have hq : tripleQuote <+: u :: (body ++ tripleQuote) := by
        refine List.prefix_of_prefix_length_le hp ⟨after, by simp⟩ ?_
        simp [tripleQuote]
      obtain ⟨behind, hb⟩ := hq
      have := h [] behind hb.symm
      simp at this
    have hbody : EndsAtFirstQuotes body := fun before behind he => by
      have := h (u :: before) behind (by rw [List.cons_append, he, List.cons_append])
      simpa using this
    rw [List.cons_append, splitAtTripleQuote, if_neg, ih hbody]
    · rfl
    · rwa [List.isPrefixOf_iff_prefix]

theorem length_le_of_splitAtTripleQuote {t before after : Text}
    (h : splitAtTripleQuote t = some (before, after)) {other behind : Text}
    (ht : t = other ++ (tripleQuote ++ behind)) : before.length ≤ other.length := by
  induction t generalizing before other with
  | nil => cases h
  | cons u rest ih =>
    unfold splitAtTripleQuote at h
    split at h
    · cases h
      exact Nat.zero_le _
    · next hstart =>
      obtain ⟨⟨inner, _⟩, hs, he⟩ := Option.map_eq_some_iff.mp h
      cases he
      cases other with
      | nil =>
        rw [List.isPrefixOf_iff_prefix, ht] at hstart
        exact absurd (List.prefix_append tripleQuote behind) hstart
      | cons v other =>
        cases ht
        exact Nat.succ_le_succ (ih hs rfl)

instance : DecidablePred EndsAtFirstQuotes := fun body =>
  decidable_of_iff (splitAtTripleQuote (body ++ tripleQuote) = some (body, []))
    ⟨fun h _ _ he => length_le_of_splitAtTripleQuote h he, fun h => h.splitAtTripleQuote_eq []⟩

namespace Lexeme

def text : Lexeme → Text
  | .word name => name
  | .number digits => digits
  | .equalsSign => [unit '=']
  | .quoted body => quote :: (body ++ [quote])
  | .block body => tripleQuote ++ (body ++ tripleQuote)

def kind : Lexeme → TokenKind
  | .word name => .identifier name
  | .number digits => .number digits
  | .equalsSign => .equals
  | .quoted body => .string body
  | .block body => .string (blockBody body)

/-- A string on one line holds neither quotes nor line feeds. -/
def WellFormed : Lexeme → Prop
  | .word name => IsIdentifier name
  | .number digits => digits ≠ [] ∧ ∀ u ∈ digits, isDigit u = true
  | .equalsSign => True
  | .quoted body => quote ∉ body ∧ lineFeed ∉ body
  | .block body => EndsAtFirstQuotes body

instance : DecidablePred WellFormed
  | .word name => inferInstanceAs (Decidable (IsIdentifier name))
  | .number digits =>
    have : Decidable (∀ u ∈ digits, isDigit u = true) := List.decidableBAll _ digits
    inferInstanceAs (Decidable (digits ≠ [] ∧ ∀ u ∈ digits, isDigit u = true))
  | .equalsSign => inferInstanceAs (Decidable True)
  | .quoted body => inferInstanceAs (Decidable (quote ∉ body ∧ lineFeed ∉ body))
  | .block body => inferInstanceAs (Decidable (EndsAtFirstQuotes body))

/-- Only a block runs over several lines. -/
theorem lineFeeds_text {lexeme : Lexeme} (h : lexeme.WellFormed) :
    lexeme.text.lineFeeds = match lexeme with
      | .block body => body.lineFeeds
      | _ => 0 := by
  cases lexeme with
  | word name =>
    cases name with
    | nil => exact h.elim
    | cons u name =>
      refine lineFeeds_of_not_mem fun hm => ?_
      rcases List.mem_cons.mp hm with he | hm
      · exact absurd (he ▸ h.1) (by decide)
      · exact absurd (h.2 _ hm) (by decide)
  | number digits => exact lineFeeds_of_not_mem fun hm => absurd (h.2 _ hm) (by decide)
  | equalsSign => rfl
  | quoted body =>
    rw [text, lineFeeds_cons_of_ne (by decide), lineFeeds_append, lineFeeds_of_not_mem h.2]
    rfl
  | block body =>
    have hq : lineFeeds tripleQuote = 0 := by decide
    simp [text, hq]

end Lexeme

namespace Cursor

variable {u : CodeUnit} {body name rest after : Text} {line : Int}

theorem string_quoted (plain : quote ∉ body) (inLine : lineFeed ∉ body) (apart : SetsApart after) :
    string (body ++ quote :: after) line = (.string body, ⟨after, line⟩) := by
  have hopen : ¬ [quote, quote].isPrefixOf (body ++ quote :: after) = true := by
    rw [List.isPrefixOf_iff_prefix]
    rintro ⟨behind, hb⟩
    cases body with
    | nil =>
      have hq : after.head? = some quote := by
        simp only [List.nil_append, List.cons_append, List.cons.injEq, true_and] at hb
        rw [← hb]
        rfl
      exact apart.head?_ne (by decide) (by decide) (by decide) hq
    | cons u body =>
      simp only [List.cons_append, List.cons.injEq] at hb
      exact plain (hb.1 ▸ List.mem_cons_self)
  have hpart : ∀ u ∈ body, isStringPart u = true := by
    intro u hu
    have hq : u ≠ quote := fun he => plain (he ▸ hu)
    have hl : u ≠ lineFeed := fun he => inLine (he ▸ hu)
    simp [isStringPart, hq, hl]
  have hstop : isStringPart quote = false := by decide
  rw [string, if_neg hopen, List.dropWhile_append_of_pos hpart, List.takeWhile_append_of_pos hpart,
    List.dropWhile_cons_of_neg (by simp [hstop]), List.takeWhile_cons_of_neg (by simp [hstop])]
  simp

/-- A run of units of a class that no trivia begin with ends where the trivia begin. -/
theorem span_of_setsApart {p : CodeUnit → Bool}
    (range : ∀ u, p u = true → 0x23 < u.toNat ∧ u.toNat < 0xA0) (run : ∀ u ∈ name, p u = true)
    (apart : SetsApart after) :
    (name ++ after).takeWhile p = name ∧ (name ++ after).dropWhile p = after := by
  rw [List.takeWhile_append_of_pos run, List.dropWhile_append_of_pos run]
  cases after with
  | nil => simp
  | cons u after =>
    have hstop : ¬ p u = true := by
      intro hu
      obtain ⟨low, high⟩ := range u hu
      refine apart.head?_ne (by omega) high ?_ rfl
      rintro rfl
      exact absurd low (by decide)
    rw [List.takeWhile_cons_of_neg hstop, List.dropWhile_cons_of_neg hstop, List.append_nil]
    exact ⟨rfl, rfl⟩

theorem range_of_part : ∀ u, isIdentifierPart u = true → 0x23 < u.toNat ∧ u.toNat < 0xA0 := by
  intro u hu
  have := range_of_isIdentifierPart hu
  omega

theorem range_of_digit : ∀ u, isDigit u = true → 0x23 < u.toNat ∧ u.toNat < 0xA0 := by
  intro u hu
  have := range_of_isDigit hu
  omega

theorem token_word (start : isIdentifierStart u = true)
    (part : ∀ v ∈ name, isIdentifierPart v = true) (apart : SetsApart after) :
    token u (name ++ after) line = (.identifier (u :: name), ⟨after, line⟩) := by
  have range := range_of_isIdentifierStart start
  have hq : u ≠ quote := ne_of_toNat_ne (by simp [quote]; omega)
  have he : u ≠ unit '=' := ne_of_toNat_ne (by simp; omega)
  have hd : ¬ isDigit u = true := fun hd => by
    have := range_of_isDigit hd
    omega
  obtain ⟨htake, hdrop⟩ := span_of_setsApart range_of_part part apart
  rw [token, if_neg hq, if_neg he, if_neg hd, if_pos start, htake, hdrop]

theorem token_number (first : isDigit u = true) (others : ∀ v ∈ name, isDigit v = true)
    (apart : SetsApart after) :
    token u (name ++ after) line = (.number (u :: name), ⟨after, line⟩) := by
  have range := range_of_isDigit first
  have hq : u ≠ quote := ne_of_toNat_ne (by simp [quote]; omega)
  have he : u ≠ unit '=' := ne_of_toNat_ne (by simp; omega)
  obtain ⟨htake, hdrop⟩ := span_of_setsApart range_of_digit others apart
  rw [token, if_neg hq, if_neg he, if_pos first, htake, hdrop]

theorem token_block (first : EndsAtFirstQuotes body) (after : Text) :
    token quote (quote :: quote :: (body ++ (tripleQuote ++ after))) line =
      (.string (blockBody body), ⟨after, line + body.lineFeeds⟩) := by
  rw [token, if_pos rfl, string, if_pos (by simp [List.isPrefixOf])]
  simp only [List.drop_succ_cons, List.drop_zero, first.splitAtTripleQuote_eq after]

/-- A written token is read where it ends, if what follows sets it apart. -/
theorem token_text {lexeme : Lexeme} (h : lexeme.WellFormed) (apart : SetsApart after)
    (line : Int) : ∃ u rest,
      lexeme.text ++ after = u :: rest ∧ isBlank u = false ∧ u ≠ unit '#' ∧
        token u rest line = (lexeme.kind, ⟨after, line + lexeme.text.lineFeeds⟩) := by
  rw [Lexeme.lineFeeds_text h]
  cases lexeme with
  | word name =>
    cases name with
    | nil => exact h.elim
    | cons u name =>
      have range := range_of_isIdentifierStart h.1
      refine ⟨u, name ++ after, rfl, isBlank_eq_false (by omega) (by omega),
        ne_of_toNat_ne (by simp; omega), ?_⟩
      rw [token_word h.1 h.2 apart, Int.add_zero]
      rfl
  | number digits =>
    cases digits with
    | nil => exact absurd rfl h.1
    | cons u digits =>
      obtain ⟨first, others⟩ := List.forall_mem_cons.mp h.2
      have range := range_of_isDigit first
      refine ⟨u, digits ++ after, rfl, isBlank_eq_false (by omega) (by omega),
        ne_of_toNat_ne (by simp; omega), ?_⟩
      rw [token_number first others apart, Int.add_zero]
      rfl
  | equalsSign =>
    refine ⟨unit '=', after, rfl, by decide, by decide, ?_⟩
    rw [token, if_neg (by decide), if_pos rfl, Int.add_zero]
    rfl
  | quoted body =>
    refine ⟨quote, body ++ quote :: after, by simp [Lexeme.text], by decide, by decide, ?_⟩
    rw [token, if_pos rfl, string_quoted h.1 h.2 apart, Int.add_zero]
    rfl
  | block body =>
    refine ⟨quote, quote :: quote :: (body ++ (tripleQuote ++ after)),
      by simp [Lexeme.text, tripleQuote], by decide, by decide, ?_⟩
    rw [token_block h after]
    rfl

theorem skipTrivia_stops {rest : Text} (blank : isBlank u = false) (hash : u ≠ unit '#') :
    skipTrivia false (u :: rest) line = ⟨u :: rest, line⟩ := by
  have hl : u ≠ lineFeed := by
    rintro rfl
    exact absurd blank (by decide)
  rw [skipTrivia, if_neg hl, if_neg (by simp [blank]), if_neg hash]

theorem next_layout {trivia : Text} {lexeme : Lexeme} (ht : IsTrivia trivia)
    (h : lexeme.WellFormed) (apart : SetsApart after) (line : Int) :
    next ⟨trivia ++ lexeme.text ++ after, line⟩ = (⟨lexeme.kind, line + trivia.lineFeeds⟩,
      ⟨after, line + (trivia ++ lexeme.text).lineFeeds⟩) := by
  obtain ⟨u, rest, htext, blank, hash, htoken⟩ :=
    token_text h apart (line + trivia.lineFeeds)
  have hskip : skipTrivia false (trivia ++ lexeme.text ++ after) line =
      ⟨u :: rest, line + trivia.lineFeeds⟩ := by
    rw [List.append_assoc, skipTrivia_append ht, htext, skipTrivia_stops blank hash]
  simp only [next, hskip, htoken, lineFeeds_append, Int.add_assoc]

theorem next_of_final {c : Cursor} (h : IsFinalTrivia c.rest) :
    c.next = (⟨.endOfInput, c.line + c.rest.lineFeeds⟩, ⟨[], c.line + c.rest.lineFeeds⟩) := by
  simp only [next, skipTrivia_final h]

theorem tokens_final {trivia : Text} (h : IsFinalTrivia trivia) :
    tokens ⟨trivia, line⟩ = [⟨.endOfInput, line + trivia.lineFeeds⟩] := by
  rw [tokens, next_of_final h]
  rfl

end Cursor

theorem Lexeme.isLast_kind (lexeme : Lexeme) : lexeme.kind.isLast = false := by
  cases lexeme <;> rfl

/-- The source in which every lexeme stands behind its trivia and the final trivia come last. -/
def layOut (pieces : List (Text × Lexeme)) (final : Text) : Text :=
  pieces.flatMap (fun piece => piece.1 ++ piece.2.text) ++ final

/-- Lexemes may be laid out with these trivia: some stand between any two of them. -/
structure IsLayout (pieces : List (Text × Lexeme)) (final : Text) : Prop where
  wellFormed : ∀ piece ∈ pieces, piece.2.WellFormed
  trivia : ∀ piece ∈ pieces, IsTrivia piece.1
  between : ∀ piece ∈ pieces.tail, piece.1 ≠ []
  final : IsFinalTrivia final

/-- The tokens of lexemes laid out behind some text: each begins on the line after those that end
before it. -/
def tokensBehind (before : Text) : List (Text × Lexeme) → Text → List Token
  | [], final => [⟨.endOfInput, 1 + (before ++ final).lineFeeds⟩]
  | (trivia, lexeme) :: others, final =>
    ⟨lexeme.kind, 1 + (before ++ trivia).lineFeeds⟩ ::
      tokensBehind (before ++ (trivia ++ lexeme.text)) others final

section Pieces
variable {trivia final : Text} {lexeme : Lexeme} {pieces : List (Text × Lexeme)}

theorem layOut_cons : layOut ((trivia, lexeme) :: pieces) final =
    trivia ++ lexeme.text ++ layOut pieces final := by
  simp [layOut]

theorem IsLayout.of_cons {piece : Text × Lexeme} (h : IsLayout (piece :: pieces) final) :
    IsLayout pieces final where
  wellFormed := (List.forall_mem_cons.mp h.wellFormed).2
  trivia := (List.forall_mem_cons.mp h.trivia).2
  between := fun p hp => h.between p (List.mem_of_mem_tail hp)
  final := h.final

theorem IsLayout.setsApart {piece : Text × Lexeme} (h : IsLayout (piece :: pieces) final) :
    SetsApart (layOut pieces final) := by
  cases pieces with
  | nil => exact h.final.setsApart
  | cons next pieces =>
    have hmem : next ∈ next :: pieces := List.mem_cons_self
    have ht := h.of_cons.trivia next hmem
    rw [layOut_cons, List.append_assoc]
    exact ht.setsApart (h.between next hmem)

theorem tokens_layOut (h : IsLayout pieces final) (before : Text) :
    Cursor.tokens ⟨layOut pieces final, 1 + before.lineFeeds⟩ = tokensBehind before pieces final := by
  -- The text before varies with the pieces left; its line feeds are the line of the cursor.
  induction pieces generalizing before with
  | nil =>
    rw [layOut, List.flatMap_nil, List.nil_append, Cursor.tokens_final h.final, tokensBehind,
      lineFeeds_append, Int.add_assoc]
  | cons piece pieces ih =>
    obtain ⟨trivia, lexeme⟩ := piece
    have ht : IsTrivia trivia := h.trivia _ List.mem_cons_self
    have hl : lexeme.WellFormed := h.wellFormed _ List.mem_cons_self
    have hnext := Cursor.next_layout ht hl h.setsApart (1 + before.lineFeeds)
    have hrest := ih h.of_cons (before ++ (trivia ++ lexeme.text))
    rw [lineFeeds_append, ← Int.add_assoc] at hrest
    rw [layOut_cons, Cursor.tokens, hnext, if_neg (by simp [lexeme.isLast_kind]), hrest,
      tokensBehind, lineFeeds_append before trivia, Int.add_assoc]

end Pieces

/-- Scanning gives back the lexemes of every layout, in order and with their lines. -/
theorem scan_layOut {pieces : List (Text × Lexeme)} {final : Text} (h : IsLayout pieces final) :
    scan (layOut pieces final) = tokensBehind [] pieces final :=
  tokens_layOut h []

/-- An empty string before a block that begins with a quote, with lines ended in trivia, in a
comment and in the block. -/
theorem scan_quotes_and_comments :
    scan "# \"\"\" #\na \"\"\n\t\"\"\"\"x\n y\"\"\"#\n07\r= #" =
      [⟨.identifier "a", 2⟩, ⟨.string [], 2⟩, ⟨.string "\"x\ny", 3⟩, ⟨.number "07", 5⟩,
        ⟨.equals, 5⟩, ⟨.endOfInput, 5⟩] := by
  have blank {trivia : Text} (h : trivia.all isBlank = true) : IsTrivia trivia := by
    induction trivia with
    | nil => exact .nil
    | cons u trivia ih =>
      obtain ⟨hu, h⟩ := Bool.and_eq_true_iff.mp h
      exact .blank hu (ih h)
  have comment (body : Text) (h : lineFeed ∉ body) : IsTrivia (unit '#' :: (body ++ [lineFeed])) :=
    .comment h .nil
  have layout : IsLayout [("# \"\"\" #\n", .word "a"), (" ", .quoted ""),
      ("\n\t", .block "\"x\n y"), ("#\n", .number "07"), ("\r", .equalsSign)] " #" := by
    refine ⟨by decide, ?_, by decide, .inr ⟨" ", "", blank (by decide), by decide, rfl⟩⟩
    simp only [List.forall_mem_cons]
    exact ⟨comment " \"\"\" #" (by decide), blank (by decide), blank (by decide),
      comment [] (by decide), blank (by decide), by simp⟩
  exact (scan_layOut layout).trans (by decide)

end CommandLanguage

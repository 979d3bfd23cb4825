import CommandLanguage.Text.Block
import CommandLanguage.Token

/-!
# Scanning a source

A cursor is a place in a source: the text that is left and the line it is on. `Cursor.next`
reads one token; it may be called again after a fault, and at the end of the input it stays
where it is. Every other call leaves strictly less text (`Cursor.next_shorter`), so `scan`, which
stops at the end of the input or at the first fault, needs no bound.
-/

set_option autoImplicit false

namespace CommandLanguage

namespace Text

/-- The first code unit of an identifier. -/
def isIdentifierStart (u : CodeUnit) : Bool := isLetter u || u == unit '_' || u == unit '.'

/-- Any further code unit of an identifier. -/
def isIdentifierPart (u : CodeUnit) : Bool :=
  isIdentifierStart u || isDigit u || u == unit ':' || u == unit '-'

def quote : CodeUnit := unit '"'

/-- Neither ends a string on one line nor breaks the line. -/
def isStringPart (u : CodeUnit) : Bool := u != quote && u != lineFeed

/-- What precedes and what follows the first three quotes in a row. -/
def splitAtTripleQuote : Text → Option (Text × Text)
  | [] => none
  | u :: rest =>
    if [quote, quote, quote].isPrefixOf (u :: rest) then some ([], rest.drop 2)
    else (splitAtTripleQuote rest).map fun (before, after) => (u :: before, after)

/-- How many lines a text ends. -/
def lineFeeds (t : Text) : Int := t.count lineFeed

end Text

open Text

structure Cursor where
  rest : Text
  /-- The line on which it begins. -/
  line : Int
  deriving DecidableEq

namespace Cursor

def start (source : Text) : Cursor := ⟨source, 1⟩

/-- Skips white space and comments; a comment runs from `#` up to the end of its line. -/
def skipTrivia (inComment : Bool) : Text → Int → Cursor
  | [], line => ⟨[], line⟩
  | u :: rest, line =>
    if u = lineFeed then skipTrivia false rest (line + 1)
    else if inComment || isBlank u then skipTrivia inComment rest line
    else if u = unit '#' then skipTrivia true rest line
    else ⟨u :: rest, line⟩

/-- Reads a string from behind its opening quote, on one line or between triple quotes. -/
def string (rest : Text) (line : Int) : TokenKind × Cursor :=
  if [quote, quote].isPrefixOf rest then
    match splitAtTripleQuote (rest.drop 2) with
    | some (raw, after) => (.string (blockBody raw), ⟨after, line + lineFeeds raw⟩)
    | none => (.fault .unterminatedBlock, ⟨[], line + lineFeeds (rest.drop 2)⟩)
  else
    match rest.dropWhile isStringPart with
    | [] => (.fault .unterminatedString, ⟨[], line⟩)
    | u :: after =>
      if u = quote then (.string (rest.takeWhile isStringPart), ⟨after, line⟩)
      else (.fault .unterminatedString, ⟨u :: after, line⟩)

/-- Reads the token that begins with a code unit that is neither white space nor a comment. -/
def token (u : CodeUnit) (rest : Text) (line : Int) : TokenKind × Cursor :=
  if u = quote then string rest line
  else if u = unit '=' then (.equals, ⟨rest, line⟩)
  else if isDigit u then
    (.number (u :: rest.takeWhile isDigit), ⟨rest.dropWhile isDigit, line⟩)
  else if isIdentifierStart u then
    (.identifier (u :: rest.takeWhile isIdentifierPart), ⟨rest.dropWhile isIdentifierPart, line⟩)
  else (.fault (.unexpectedUnit u), ⟨rest, line⟩)

/-- The next token and the place behind it. -/
def next (c : Cursor) : Token × Cursor :=
  let here := skipTrivia false c.rest c.line
  match here.rest with
  | [] => (⟨.endOfInput, here.line⟩, here)
  | u :: rest =>
    let (kind, after) := token u rest here.line
    (⟨kind, here.line⟩, after)

theorem length_skipTrivia_le (inComment : Bool) (t : Text) (line : Int) :
    (skipTrivia inComment t line).rest.length ≤ t.length := by
  induction t generalizing inComment line with
  | nil => simp [skipTrivia]
  | cons u rest ih =>
    unfold skipTrivia
    split
    · exact Nat.le_succ_of_le (ih ..)
    · split
      · exact Nat.le_succ_of_le (ih ..)
      · split
        · exact Nat.le_succ_of_le (ih ..)
        · exact Nat.le_refl _

theorem length_after_splitAtTripleQuote {t before after : Text}
    (h : splitAtTripleQuote t = some (before, after)) : after.length ≤ t.length := by
  induction t generalizing before after with
  | nil => simp [splitAtTripleQuote] at h
  | cons u rest ih =>
    unfold splitAtTripleQuote at h
    split at h
    · simp only [Option.some.injEq, Prod.mk.injEq] at h
      rw [← h.2]
      simp only [List.length_drop, List.length_cons]
      omega
    · obtain ⟨⟨b, a⟩, hs, he⟩ := Option.map_eq_some_iff.1 h
      simp only [Prod.mk.injEq] at he
      have := ih hs
      rw [← he.2]
      exact Nat.le_succ_of_le this

theorem length_dropWhile_le (p : CodeUnit → Bool) (t : Text) :
    (t.dropWhile p).length ≤ t.length :=
  (List.dropWhile_suffix p).length_le

theorem length_string_le (rest : Text) (line : Int) :
    (string rest line).2.rest.length ≤ rest.length := by
  unfold string
  split
  · have hd : (rest.drop 2).length ≤ rest.length := by simp
    split
    · next hs => exact Nat.le_trans (length_after_splitAtTripleQuote hs) hd
    · exact Nat.zero_le _
  · have hd := length_dropWhile_le isStringPart rest
    split
    · exact Nat.zero_le _
    · next hs =>
      rw [hs] at hd
      split
      · exact Nat.le_of_succ_le hd
      · exact hd

theorem length_token_le (u : CodeUnit) (rest : Text) (line : Int) :
    (token u rest line).2.rest.length ≤ rest.length := by
  unfold token
  split
  · exact length_string_le ..
  · split
    · exact Nat.le_refl _
    · split
      · exact length_dropWhile_le ..
      · split
        · exact length_dropWhile_le ..
        · exact Nat.le_refl _

/-- Reading a token other than the end of the input leaves strictly less text. -/
theorem next_shorter (c : Cursor) (h : c.next.1.kind ≠ .endOfInput) :
    c.next.2.rest.length < c.rest.length := by
  have hskip := length_skipTrivia_le false c.rest c.line
  unfold next at h ⊢
  simp only at h ⊢
  split
  · next hr => simp [hr] at h
  · next u rest hr =>
    have ht := length_token_le u rest (skipTrivia false c.rest c.line).line
    rw [hr, List.length_cons] at hskip
    exact Nat.lt_of_le_of_lt ht hskip

/-- The tokens from a place on, up to the end of the input or the first fault. -/
def tokens (c : Cursor) : List Token :=
  if c.next.1.kind.isLast then [c.next.1] else c.next.1 :: tokens c.next.2
termination_by c.rest.length
decreasing_by
  rename_i h
  exact c.next_shorter fun he => h (by simp [he, TokenKind.isLast])

end Cursor

def scan (source : Text) : List Token := (Cursor.start source).tokens

end CommandLanguage

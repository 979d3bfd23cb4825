import CommandLanguage.Text.Quoted
import Mathlib.Tactic.SplitIfs

/-!
# Reading quoted literals

A literal is read up to its closing quote: an escape gives the code unit it stands for, any other
code unit stands for itself, and control characters are not allowed. A quoted text reads back as
the text, whatever follows the literal.
-/

set_option autoImplicit false

namespace CommandLanguage.Text

/-- The value of a hexadecimal digit, of either case. -/
def digitValue? (u : CodeUnit) : Option Nat :=
  if isDigit u then some (u.toNat - 48)
  else if unit 'a' ≤ u ∧ u ≤ unit 'f' then some (u.toNat - 87)
  else if unit 'A' ≤ u ∧ u ≤ unit 'F' then some (u.toNat - 55)
  else none

def hexUnit? (a b c d : CodeUnit) : Option CodeUnit := do
  let a ← digitValue? a
  let b ← digitValue? b
  let c ← digitValue? c
  let d ← digitValue? d
  some (UInt16.ofNat (4096 * a + 256 * b + 16 * c + d))

/-- The code unit that a letter behind a backslash gives. -/
def shortUnit? (u : CodeUnit) : Option CodeUnit :=
  if u = unit '"' ∨ u = unit '\\' ∨ u = unit '/' then some u
  else if u = unit 'b' then some 0x08
  else if u = unit 't' then some 0x09
  else if u = unit 'n' then some 0x0A
  else if u = unit 'f' then some 0x0C
  else if u = unit 'r' then some 0x0D
  else none

/-- Reads the rest of a literal; gives its text and what follows the closing quote. -/
def readQuotes : Text → Option (Text × Text)
  | [] => none
  | u :: rest =>
    if u = unit '"' then some ([], rest)
    else if u = unit '\\' then
      match rest with
      | [] => none
      | e :: rest =>
        if e = unit 'u' then
          match rest with
          | a :: b :: c :: d :: rest => do
            let v ← hexUnit? a b c d
            let (t, behind) ← readQuotes rest
            some (v :: t, behind)
          | _ => none
        else do
          let v ← shortUnit? e
          let (t, behind) ← readQuotes rest
          some (v :: t, behind)
    else if u < 0x20 then none
    else do
      let (t, behind) ← readQuotes rest
      some (u :: t, behind)

/-- Reads a literal; gives its text and what follows it. -/
def readLiteral : Text → Option (Text × Text)
  | [] => none
  | u :: rest => if u = unit '"' then readQuotes rest else none

variable {u v : CodeUnit} {t rest behind : Text}

theorem digitValue?_hexDigit : ∀ n < 16, digitValue? (hexDigit n) = some n := by decide

theorem hexUnit?_hexDigit (u : CodeUnit) :
    hexUnit? (hexDigit (u.toNat / 4096)) (hexDigit (u.toNat / 256 % 16))
      (hexDigit (u.toNat / 16 % 16)) (hexDigit (u.toNat % 16)) = some u := by
  have hu : u.toNat < 65536 := u.toNat_lt
  have sum : 4096 * (u.toNat / 4096) + 256 * (u.toNat / 256 % 16) + 16 * (u.toNat / 16 % 16) +
      u.toNat % 16 = u.toNat := by omega
  rw [hexUnit?, digitValue?_hexDigit _ (by omega), digitValue?_hexDigit _ (by omega),
    digitValue?_hexDigit _ (by omega), digitValue?_hexDigit _ (by omega)]
  change some (UInt16.ofNat _) = _
  rw [sum, UInt16.ofNat_toNat]

theorem readQuotes_quote (behind : Text) : readQuotes (unit '"' :: behind) = some ([], behind) := by
  rw [readQuotes.eq_def]
  exact if_pos rfl

theorem readQuotes_plain (quote : u ≠ unit '"') (backslash : u ≠ unit '\\') (control : ¬ u < 0x20)
    (h : readQuotes rest = some (t, behind)) : readQuotes (u :: rest) = some (u :: t, behind) := by
  rw [readQuotes.eq_def]
  simp only [if_neg quote, if_neg backslash, if_neg control, h]
  rfl

theorem readQuotes_short {e : CodeUnit} (he : e ≠ unit 'u') (gives : shortUnit? e = some u)
    (h : readQuotes rest = some (t, behind)) :
    readQuotes (unit '\\' :: e :: rest) = some (u :: t, behind) := by
  rw [readQuotes.eq_def]
  simp only [if_neg (show unit '\\' ≠ unit '"' by decide), if_pos, if_neg he, gives, h]
  rfl

theorem readQuotes_hexEscape (h : readQuotes rest = some (t, behind)) :
    readQuotes (hexEscape u ++ rest) = some (u :: t, behind) := by
  change readQuotes (unit '\\' :: unit 'u' :: _ :: _ :: _ :: _ :: rest) = _
  rw [readQuotes.eq_def]
  simp only [if_neg (show unit '\\' ≠ unit '"' by decide), if_pos, hexUnit?_hexDigit, h]
  rfl

theorem readQuotes_escapeUnit (h : readQuotes rest = some (t, behind)) :
    readQuotes (escapeUnit u ++ rest) = some (u :: t, behind) := by
  unfold escapeUnit
  simp only [beq_iff_eq]
  split_ifs with quote backslash h8 h9 hA hC hD special
  · exact quote ▸ readQuotes_short (by decide) (by decide) h
  · exact backslash ▸ readQuotes_short (by decide) (by decide) h
  · exact h8 ▸ readQuotes_short (by decide) (by decide) h
  · exact h9 ▸ readQuotes_short (by decide) (by decide) h
  · exact hA ▸ readQuotes_short (by decide) (by decide) h
  · exact hC ▸ readQuotes_short (by decide) (by decide) h
  · exact hD ▸ readQuotes_short (by decide) (by decide) h
  · exact readQuotes_hexEscape h
  · simp only [Bool.or_eq_true, decide_eq_true_eq, not_or] at special
    exact readQuotes_plain quote backslash special.1.1 h

theorem readQuotes_of_surrogate (half : isHighSurrogate u || isLowSurrogate u)
    (h : readQuotes rest = some (t, behind)) : readQuotes (u :: rest) = some (u :: t, behind) := by
  have large : 0xD800 ≤ u := by
    simp only [isHighSurrogate, isLowSurrogate, Bool.or_eq_true, Bool.and_eq_true,
      decide_eq_true_eq] at half
    rcases half with ⟨large, _⟩ | ⟨large, _⟩
    · exact large
    · exact UInt16.le_trans (by decide) large
  apply readQuotes_plain _ _ _ h
  · rintro rfl
    exact absurd large (by decide)
  · rintro rfl
    exact absurd large (by decide)
  · intro small
    exact absurd (UInt16.lt_of_le_of_lt large small) (by decide)

theorem readQuotes_escape (t behind : Text) :
    readQuotes (escape t ++ unit '"' :: behind) = some (t, behind) := by
  unfold escape
  -- By the recursion of the escape: only a half that stands alone is escaped, a whole pair is read
  -- as it is.
  induction t using escapeBy.induct with
  | case1 => exact readQuotes_quote behind
  | case2 u =>
    rw [escapeBy]
    exact readQuotes_escapeUnit (readQuotes_quote behind)
  | case3 u v rest pair ih =>
    obtain ⟨high, low⟩ := Bool.and_eq_true_iff.mp pair
    rw [escapeBy, if_pos pair]
    apply readQuotes_of_surrogate (by rw [high, Bool.true_or])
    exact readQuotes_of_surrogate (by rw [low, Bool.or_true]) ih
  | case4 u v rest pair ih =>
    rw [escapeBy, if_neg pair, List.append_assoc]
    exact readQuotes_escapeUnit ih

theorem length_readQuotes_lt {value : Text} (h : readQuotes t = some (value, behind)) :
    behind.length < t.length := by
  fun_induction readQuotes t generalizing value behind with
  | case1 => cases h
  | case2 rest =>
    cases h
    exact Nat.lt_succ_self _
  | case3 => cases h
  | case4 a b c d rest _ ih =>
    simp only [Option.bind_eq_bind, Option.bind_eq_some_iff] at h
    obtain ⟨_, _, ⟨t, after⟩, read, he⟩ := h
    cases he
    have := ih read
    simp only [List.length_cons]
    omega
  | case5 => cases h
  | case6 e rest _ _ ih =>
    simp only [Option.bind_eq_bind, Option.bind_eq_some_iff] at h
    obtain ⟨_, _, ⟨t, after⟩, read, he⟩ := h
    cases he
    have := ih read
    simp only [List.length_cons]
    omega
  | case7 => cases h
  | case8 u rest _ _ _ ih =>
    simp only [Option.bind_eq_bind, Option.bind_eq_some_iff] at h
    obtain ⟨⟨t, after⟩, read, he⟩ := h
    cases he
    exact Nat.lt_succ_of_lt (ih read)

/-- A quoted text is read as the text, up to the quote that closes it. -/
theorem readLiteral_quoted (t behind : Text) :
    readLiteral (t.quoted ++ behind) = some (t, behind) := by
  change readLiteral (unit '"' :: ((escape t ++ [unit '"']) ++ behind)) = _
  rw [readLiteral, if_pos rfl, List.append_assoc]
  exact readQuotes_escape t behind

end CommandLanguage.Text

import CommandLanguage.Proofs.Text.Quoted
import CommandLanguage.Text.Displayed
import Mathlib.Data.List.TakeWhile

/-!
# Reading literals between apostrophes

A module name is written between apostrophes. A backslash begins an escape: a letter may stand for a
control character, hexadecimal digits for the code unit that they denote, and the end of a line for
nothing; most other units stand for themselves. A text that is put between apostrophes as it is reads
as itself exactly if it holds neither an apostrophe nor a backslash, and no line ends in it.
-/

set_option autoImplicit false

namespace CommandLanguage.Text

/-- What ends a line of a program, and with it a comment that runs to the end of its line. -/
def isLineTerminator (u : CodeUnit) : Bool :=
  u == lineFeed || u == unit '\r' || u == 0x2028 || u == 0x2029

/-- The control character that a letter behind a backslash stands for. -/
def controlUnit? (u : CodeUnit) : Option CodeUnit :=
  if u = unit 'b' then some 0x08
  else if u = unit 't' then some 0x09
  else if u = unit 'n' then some 0x0A
  else if u = unit 'v' then some 0x0B
  else if u = unit 'f' then some 0x0C
  else if u = unit 'r' then some 0x0D
  else none

/-- One code unit below U+10000, a surrogate pair from there on. -/
def codePoint (n : Nat) : Text :=
  if n < 0x10000 then [UInt16.ofNat n]
  else [UInt16.ofNat (0xD800 + (n - 0x10000) / 0x400), UInt16.ofNat (0xDC00 + (n - 0x10000) % 0x400)]

def isHexDigit (u : CodeUnit) : Bool := (digitValue? u).isSome

/-- The number that a run of hexadecimal digits denotes. -/
def hexValue (digits : Text) : Nat :=
  digits.foldl (fun value digit => 16 * value + (digitValue? digit).getD 0) 0

def greatestCodePoint : Nat := 0x10FFFF

/-- Reads what stands behind `\u`: four hexadecimal digits, or the digits of a code point in braces. -/
def readCodePoint : Text → Option (Text × Text)
  | [] => none
  | a :: rest =>
    if a = 0x7B then
      match rest.dropWhile isHexDigit with
      | [] => none
      | u :: behind =>
        if u = 0x7D ∧ rest.takeWhile isHexDigit ≠ [] ∧
            hexValue (rest.takeWhile isHexDigit) ≤ greatestCodePoint then
          some (codePoint (hexValue (rest.takeWhile isHexDigit)), behind)
        else none
    else
      match rest with
      | b :: c :: d :: behind => (hexUnit? a b c d).map fun u => ([u], behind)
      | _ => none

/-- Reads what stands behind a backslash; gives the units that it stands for and what follows. -/
def readEscape : Text → Option (Text × Text)
  | [] => none
  | u :: rest =>
    if u = unit '\r' ∧ rest.head? = some lineFeed then some ([], rest.tail)
    else if isLineTerminator u then some ([], rest)
    else if u = unit 'x' then
      match rest with
      | a :: b :: behind => (hexUnit? (unit '0') (unit '0') a b).map fun u => ([u], behind)
      | _ => none
    else if u = unit 'u' then readCodePoint rest
    else if isDigit u then
      if u = unit '0' ∧ ¬ (rest.head?.any isDigit) then some ([0], rest) else none
    else some ([(controlUnit? u).getD u], rest)

section Escapes
variable {t value behind : Text}

/-- What an escape takes: only an apostrophe that is itself the escape is among it. -/
structure Escaped (t value behind : Text) : Prop where
  taken : ∃ front, t = front ++ behind ∧ front ≠ [] ∧ value.length ≤ front.length ∧
    (front = [apostrophe] ∨ apostrophe ∉ front)

theorem length_codePoint_le (n : Nat) : (codePoint n).length ≤ 2 := by
  unfold codePoint
  split
  · exact Nat.le_succ 1
  · exact Nat.le_refl 2

theorem isHexDigit_of_hexUnit? {a b c d u : CodeUnit} (h : hexUnit? a b c d = some u) :
    isHexDigit a = true ∧ isHexDigit b = true ∧ isHexDigit c = true ∧ isHexDigit d = true := by
  simp only [hexUnit?, Option.bind_eq_bind, Option.bind_eq_some_iff] at h
  obtain ⟨_, ha, _, hb, _, hc, _, hd, _⟩ := h
  simp [isHexDigit, ha, hb, hc, hd]

theorem ne_of_isHexDigit {u : CodeUnit} (h : isHexDigit u = true) : apostrophe ≠ u := by
  rintro rfl
  exact absurd h (by decide)

theorem exists_of_readCodePoint (h : readCodePoint t = some (value, behind)) :
    ∃ front, t = front ++ behind ∧ value.length ≤ front.length ∧ apostrophe ∉ front := by
  unfold readCodePoint at h
  split at h
  · cases h
  · next a rest =>
    split at h
    · next brace =>
      subst brace
      have whole := List.takeWhile_append_dropWhile (p := isHexDigit) (l := rest)
      split at h
      · cases h
      · next u after hd =>
        split at h
        · next closed =>
          obtain ⟨rfl, some, _⟩ := closed
          cases h
          rw [hd] at whole
          refine ⟨0x7B :: rest.takeWhile isHexDigit ++ [0x7D], by simp [whole], ?_, ?_⟩
          · have := length_codePoint_le (hexValue (rest.takeWhile isHexDigit))
            simp only [List.length_append, List.length_cons, List.length_nil]
            omega
          · intro hm
            simp only [List.cons_append, List.mem_cons, List.mem_append, List.not_mem_nil,
              or_false] at hm
            rcases hm with hm | hm | hm
            · exact absurd hm (by decide)
            · exact ne_of_isHexDigit (List.mem_takeWhile_imp hm) rfl
            · exact absurd hm (by decide)
        · cases h
    · split at h
      · next b c d after =>
        obtain ⟨u, hu, he⟩ := Option.map_eq_some_iff.mp h
        cases he
        obtain ⟨ha, hb, hc, hd⟩ := isHexDigit_of_hexUnit? hu
        refine ⟨[a, b, c, d], rfl, by simp, ?_⟩
        simp [ne_of_isHexDigit ha, ne_of_isHexDigit hb, ne_of_isHexDigit hc, ne_of_isHexDigit hd]
      · cases h

theorem escaped_of_readEscape (h : readEscape t = some (value, behind)) :
    Escaped t value behind := by
  unfold readEscape at h
  split at h
  · cases h
  · next u rest =>
    split_ifs at h with crlf terminator hex code digit zero
    · obtain ⟨rfl, hhead⟩ := crlf
      cases h
      refine ⟨[unit '\r', lineFeed], ?_, by simp, by simp, .inr (by decide)⟩
      cases rest with
      | nil => cases hhead
      | cons v rest =>
        cases hhead
        rfl
    · cases h
      refine ⟨[u], rfl, by simp, by simp, .inr ?_⟩
      rw [List.mem_singleton]
      rintro rfl
      exact absurd terminator (by decide)
    · subst hex
      split at h
      · next a b after =>
        obtain ⟨v, hv, he⟩ := Option.map_eq_some_iff.mp h
        cases he
        obtain ⟨_, _, ha, hb⟩ := isHexDigit_of_hexUnit? hv
        refine ⟨[unit 'x', a, b], rfl, by simp, by simp, .inr ?_⟩
        simp only [List.mem_cons, List.not_mem_nil, or_false, not_or]
        exact ⟨by decide, ne_of_isHexDigit ha, ne_of_isHexDigit hb⟩
      · cases h
    · subst code
      obtain ⟨front, rfl, length, plain⟩ := exists_of_readCodePoint h
      refine ⟨unit 'u' :: front, rfl, by simp, Nat.le_succ_of_le length, .inr ?_⟩
      exact List.not_mem_cons_of_ne_of_not_mem (by decide) plain
    · cases h
      refine ⟨[u], rfl, by simp, by simp, .inr ?_⟩
      rw [zero.1]
      decide
    · cases h
      refine ⟨[u], rfl, by simp, by simp, ?_⟩
      by_cases hu : u = apostrophe
      · exact .inl (congrArg (fun v => [v]) hu)
      · exact .inr (by simpa using Ne.symm hu)

theorem length_readEscape_lt (h : readEscape t = some (value, behind)) :
    behind.length < t.length := by
  obtain ⟨front, rfl, nonempty, _⟩ := (escaped_of_readEscape h).taken
  have := List.length_pos_iff.mpr nonempty
  rw [List.length_append]
  omega

end Escapes

/-- Reads the rest of a literal between apostrophes; gives its text and what follows the closing
apostrophe. -/
def readApostrophes (t : Text) : Option (Text × Text) :=
  match t with
  | [] => none
  | u :: rest =>
    if u = apostrophe then some ([], rest)
    else if u = unit '\\' then
      match _ : readEscape rest with
      | none => none
      | some (value, behind) => (readApostrophes behind).map fun (t, after) => (value ++ t, after)
    else if u = lineFeed ∨ u = unit '\r' then none
    else (readApostrophes rest).map fun (t, after) => (u :: t, after)
termination_by t.length
decreasing_by
  · next h => exact Nat.lt_succ_of_lt (length_readEscape_lt h)
  · exact Nat.lt_succ_self _

/-- Between apostrophes the unit stands for itself. -/
def isVerbatim (u : CodeUnit) : Bool :=
  u != apostrophe && u != unit '\\' && u != lineFeed && u != unit '\r'

variable {u : CodeUnit} {s t rest behind after value : Text}

theorem readApostrophes_apostrophe (behind : Text) :
    readApostrophes (apostrophe :: behind) = some ([], behind) := by
  rw [readApostrophes, if_pos rfl]

theorem readApostrophes_verbatim (h : isVerbatim u = true) (rest : Text) :
    readApostrophes (u :: rest) =
      (readApostrophes rest).map fun (t, after) => (u :: t, after) := by
  simp only [isVerbatim, Bool.and_eq_true, bne_iff_ne] at h
  obtain ⟨⟨⟨plain, unescaped⟩, feed⟩, carriage⟩ := h
  rw [readApostrophes, if_neg plain, if_neg unescaped, if_neg (not_or.mpr ⟨feed, carriage⟩)]

theorem readApostrophes_backslash (rest : Text) :
    readApostrophes (unit '\\' :: rest) = (readEscape rest).bind fun (value, behind) =>
      (readApostrophes behind).map fun (t, after) => (value ++ t, after) := by
  rw [readApostrophes, if_neg (by decide), if_pos rfl]
  split
  · next h => rw [h]; rfl
  · next h => rw [h]; rfl

theorem readApostrophes_of_verbatim (h : ∀ u ∈ s, isVerbatim u = true) (behind : Text) :
    readApostrophes (s ++ apostrophe :: behind) = some (s, behind) := by
  induction s with
  | nil => exact readApostrophes_apostrophe behind
  | cons u s ih =>
    obtain ⟨hu, hs⟩ := List.forall_mem_cons.mp h
    rw [List.cons_append, readApostrophes_verbatim hu, ih hs]
    rfl

/-- What was written of a text that is read: an escape is longer than what it gives, and reading goes
on behind every apostrophe in it. -/
structure WrittenAs (raw value after : Text) : Prop where
  length_le : value.length ≤ raw.length
  verbatim : value.length = raw.length → ∀ u ∈ raw, isVerbatim u = true
  goesOn : ∀ front behind, raw = front ++ apostrophe :: behind →
    readApostrophes (behind ++ apostrophe :: after) ≠ none

theorem WrittenAs.verbatim_cons {raw : Text} (hu : isVerbatim u = true)
    (written : WrittenAs raw value after) : WrittenAs (u :: raw) (u :: value) after where
  length_le := Nat.succ_le_succ written.length_le
  verbatim same := List.forall_mem_cons.mpr ⟨hu, written.verbatim (Nat.succ.inj same)⟩
  goesOn before others he := by
    cases before with
    | nil =>
      rw [(List.cons.inj he).1] at hu
      exact absurd hu (by decide)
    | cons v before => exact written.goesOn before others (List.cons.inj he).2

theorem WrittenAs.escape_append {raw front given : Text} (written : WrittenAs raw value after)
    (read : readApostrophes (raw ++ apostrophe :: after) = some (value, after))
    (length : given.length ≤ front.length)
    (within : front = [apostrophe] ∨ apostrophe ∉ front) :
    WrittenAs (unit '\\' :: (front ++ raw)) (given ++ value) after := by
  have shorter : (given ++ value).length < (unit '\\' :: (front ++ raw)).length := by
    have := written.length_le
    simp only [List.length_append, List.length_cons]
    omega
  refine ⟨Nat.le_of_lt shorter, fun same => absurd same (Nat.ne_of_lt shorter), ?_⟩
  intro before others he
  cases before with
  | nil => exact absurd (List.cons.inj he).1 (by decide)
  | cons v before =>
    rcases List.append_eq_append_iff.mp (List.cons.inj he).2 with ⟨more, _, hr⟩ | ⟨left, hf, ho⟩
    · exact written.goesOn more others hr
    · cases left with
      | nil => exact written.goesOn [] others ho.symm
      | cons w left =>
        -- An apostrophe in an escape is all of the escape.
        obtain ⟨rfl, rfl⟩ := List.cons.inj ho
        rcases within with only | none
        · have alone : before.length + (left.length + 1) = 1 := by
            simpa using (congrArg List.length hf).symm.trans (congrArg List.length only)
          obtain rfl := List.length_eq_zero_iff.mp (by omega : left.length = 0)
          simp [read]
        · exact absurd (hf ▸ List.mem_append_right before List.mem_cons_self) none

theorem exists_writtenAs (h : readApostrophes t = some (value, after)) :
    ∃ raw, t = raw ++ apostrophe :: after ∧ WrittenAs raw value after := by
  induction t using readApostrophes.induct generalizing value with
  | case1 =>
    rw [readApostrophes] at h
    cases h
  | case2 rest =>
    rw [readApostrophes_apostrophe] at h
    cases h
    exact ⟨[], rfl, Nat.le_refl _, fun _ => List.forall_mem_nil _, by simp⟩
  | case3 rest unread _ =>
    rw [readApostrophes_backslash, unread] at h
    cases h
  | case4 rest given behind escape _ ih =>
    rw [readApostrophes_backslash, escape] at h
    obtain ⟨⟨t, _⟩, read, he⟩ := Option.map_eq_some_iff.mp h
    cases he
    obtain ⟨raw, rfl, written⟩ := ih read
    obtain ⟨front, rfl, _, length, within⟩ := (escaped_of_readEscape escape).taken
    exact ⟨unit '\\' :: (front ++ raw), by simp, written.escape_append read length within⟩
  | case5 u rest _ _ ends =>
    rw [readApostrophes, if_neg ‹_›, if_neg ‹_›, if_pos ends] at h
    cases h
  | case6 u rest plain unescaped inLine ih =>
    have verbatim : isVerbatim u = true := by
      obtain ⟨feed, carriage⟩ := not_or.mp inLine
      simp only [isVerbatim, Bool.and_eq_true, bne_iff_ne]
      exact ⟨⟨⟨plain, unescaped⟩, feed⟩, carriage⟩
    rw [readApostrophes_verbatim verbatim] at h
    obtain ⟨⟨t, _⟩, read, he⟩ := Option.map_eq_some_iff.mp h
    cases he
    obtain ⟨raw, rfl, written⟩ := ih read
    exact ⟨u :: raw, rfl, written.verbatim_cons verbatim⟩

theorem length_readApostrophes_lt (h : readApostrophes t = some (value, after)) :
    after.length < t.length := by
  obtain ⟨raw, rfl, _⟩ := exists_writtenAs h
  simp only [List.length_append, List.length_cons]
  omega

/-- A text between apostrophes, behind which no other literal could end, reads as itself exactly if
each of its units stands for itself. -/
theorem reads_itself_iff (ends : readApostrophes behind = none) :
    (∃ after, readApostrophes (s ++ apostrophe :: behind) = some (s, after)) ↔
      ∀ u ∈ s, isVerbatim u = true := by
  constructor
  · rintro ⟨after, h⟩
    obtain ⟨raw, hraw, written⟩ := exists_writtenAs h
    rcases List.append_eq_append_iff.mp hraw with ⟨more, hr, ho⟩ | ⟨left, hs, ho⟩
    · cases more with
      | nil =>
        rw [List.append_nil] at hr
        subst hr
        exact written.verbatim rfl
      | cons u more =>
        -- The apostrophe behind the text was taken for a part of it.
        cases ho
        exact absurd ends (written.goesOn s more hr)
    · cases left with
      | nil =>
        rw [List.append_nil] at hs
        subst hs
        exact written.verbatim rfl
      | cons u left =>
        have := written.length_le
        have := congrArg List.length hs
        simp only [List.length_append, List.length_cons] at this
        omega
  · intro h
    exact ⟨behind, readApostrophes_of_verbatim h behind⟩

end CommandLanguage.Text

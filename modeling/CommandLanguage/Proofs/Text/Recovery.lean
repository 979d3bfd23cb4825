import CommandLanguage.Proofs.Text.Block
import Mathlib.Data.List.DropRight
import Mathlib.Data.Option.Basic

/-!
# Texts recovered from blocks

A text is laid out in a block by setting each of its lines behind an indentation, with or without a
carriage return, and putting blank lines around them. The block gives the text back. Whatever else
stands in a block, blank lines at its ends and indentation are left out of what it denotes.
-/

set_option autoImplicit false

namespace CommandLanguage.Text

/-- A line as it is set in a block: behind an indentation, with or without a carriage return. -/
structure LaidLine where
  indent : Text
  line : Text
  returned : Bool
  indented : ∀ u ∈ indent, isIndent u = true

namespace LaidLine

def ending (laid : LaidLine) : Text := if laid.returned then [carriageReturn] else []

def write (laid : LaidLine) : Text := laid.indent ++ (laid.line ++ laid.ending)

end LaidLine

/-- The first and the last of some lines are not blank, and none of them is indented. -/
structure Tidy (ls : List Text) : Prop where
  first : ∀ line ∈ ls.head?, isAllBlank line = false
  last : ∀ line ∈ ls.getLast?, isAllBlank line = false
  flush : ∀ line ∈ ls, ∀ u ∈ line.head?, isIndent u = false

section Ends
variable {ls before after : List Text}

theorem dropWhile_isAllBlank_append (blank : ∀ line ∈ before, isAllBlank line = true)
    (first : ∀ line ∈ ls.head?, isAllBlank line = false) :
    (before ++ ls).dropWhile isAllBlank = ls := by
  rw [List.dropWhile_append_of_pos blank]
  cases ls with
  | nil => rfl
  | cons line ls => exact List.dropWhile_cons_of_neg (by simp [first line rfl])

theorem dropBlankEnds_append (nonempty : ls ≠ []) (hb : ∀ line ∈ before, isAllBlank line = true)
    (ha : ∀ line ∈ after, isAllBlank line = true)
    (first : ∀ line ∈ ls.head?, isAllBlank line = false)
    (last : ∀ line ∈ ls.getLast?, isAllBlank line = false) :
    dropBlankEnds (before ++ (ls ++ after)) = ls := by
  have front : ∀ line ∈ (ls ++ after).head?, isAllBlank line = false := by
    rw [List.head?_append_of_ne_nil ls nonempty]
    exact first
  have back : ∀ line ∈ ls.reverse.head?, isAllBlank line = false := by
    rw [List.head?_reverse]
    exact last
  have blank : ∀ line ∈ after.reverse, isAllBlank line = true :=
    fun line hl => ha line (List.mem_reverse.mp hl)
  rw [dropBlankEnds, dropWhile_isAllBlank_append hb front, List.reverse_append,
    dropWhile_isAllBlank_append blank back, List.reverse_reverse]

theorem dropBlankEnds_begins (ls : List Text) : dropBlankEnds ls <+: ls.dropWhile isAllBlank :=
  List.rdropWhile_prefix isAllBlank _

theorem mem_of_mem_dropBlankEnds {line : Text} (h : line ∈ dropBlankEnds ls) : line ∈ ls :=
  (List.dropWhile_suffix isAllBlank).mem ((dropBlankEnds_begins ls).mem h)

theorem dropBlankEnds_eq_nil_iff :
    dropBlankEnds ls = [] ↔ ∀ line ∈ ls, isAllBlank line = true := by
  rw [← List.dropWhile_eq_nil_iff]
  constructor
  · intro h
    -- What is left in front would begin with a line that is not blank.
    have blank := List.rdropWhile_eq_nil_iff.mp h
    cases hd : ls.dropWhile isAllBlank with
    | nil => rfl
    | cons line rest =>
      have first := head?_dropWhile (p := isAllBlank) ls line (by rw [hd]; rfl)
      rw [hd] at blank
      rw [blank line List.mem_cons_self] at first
      cases first
  · intro h
    rw [dropBlankEnds, h]
    rfl

theorem first_dropBlankEnds (ls : List Text) :
    ∀ line ∈ (dropBlankEnds ls).head?, isAllBlank line = false := by
  intro line hl
  obtain ⟨rest, whole⟩ := dropBlankEnds_begins ls
  apply head?_dropWhile (p := isAllBlank) ls
  rw [← whole, Option.mem_def, List.head?_append, Option.mem_def.mp hl]
  rfl

theorem last_dropBlankEnds (ls : List Text) :
    ∀ line ∈ (dropBlankEnds ls).getLast?, isAllBlank line = false := by
  rw [dropBlankEnds, List.getLast?_reverse]
  exact head?_dropWhile _

end Ends

namespace LaidLine

theorem ending_cases (laid : LaidLine) : laid.ending = [] ∨ laid.ending = [carriageReturn] := by
  unfold ending
  split
  · exact .inr rfl
  · exact .inl rfl

theorem isAllBlank_write (laid : LaidLine) : isAllBlank laid.write = isAllBlank laid.line :=
  isAllBlank_append laid.indented laid.ending_cases

theorem lineFeed_not_mem_write {laid : LaidLine} (unbroken : lineFeed ∉ laid.line) :
    lineFeed ∉ laid.write := by
  intro hm
  rcases List.mem_append.mp hm with hm | hm
  · exact absurd (laid.indented lineFeed hm) (by decide)
  rcases List.mem_append.mp hm with hm | hm
  · exact unbroken hm
  rcases laid.ending_cases with ended | ended
  · rw [ended] at hm
    cases hm
  · rw [ended] at hm
    exact absurd (List.mem_singleton.mp hm) (by decide)

theorem unindent_write {laid : LaidLine} (flush : ∀ u ∈ laid.line.head?, isIndent u = false)
    (unended : laid.line.getLast? ≠ some carriageReturn) : unindent laid.write = laid.line := by
  rw [write, unindent_eq laid.indented unended laid.ending_cases]
  cases hl : laid.line with
  | nil => rfl
  | cons u line => exact List.dropWhile_cons_of_neg (by simp [flush u (by rw [hl]; rfl)])

end LaidLine

/-- Every line is what a block takes from it, set in some way. -/
theorem exists_laidLine (line : Text) :
    ∃ laid : LaidLine, laid.line = unindent line ∧ laid.write = line := by
  have whole := List.takeWhile_append_dropWhile (p := isIndent) (l := line)
  have indented : ∀ u ∈ line.takeWhile isIndent, isIndent u = true :=
    fun u hu => List.mem_takeWhile_imp hu
  by_cases returned : (line.dropWhile isIndent).getLast? = some (unit '\r')
  · have ending := List.dropLast_append_getLast? _ returned
    refine ⟨⟨_, (line.dropWhile isIndent).dropLast, true, indented⟩, (if_pos returned).symm, ?_⟩
    exact (congrArg _ ending).trans whole
  · have ending := List.append_nil (line.dropWhile isIndent)
    refine ⟨⟨_, line.dropWhile isIndent, false, indented⟩, (if_neg returned).symm, ?_⟩
    exact (congrArg _ ending).trans whole

theorem isAllBlank_unindent (line : Text) : isAllBlank (unindent line) = isAllBlank line := by
  obtain ⟨laid, taken, written⟩ := exists_laidLine line
  rw [← taken, ← laid.isAllBlank_write, written]

theorem mem_of_mem_unindent {line : Text} {u : CodeUnit} (h : u ∈ unindent line) : u ∈ line := by
  obtain ⟨laid, taken, written⟩ := exists_laidLine line
  rw [← written]
  exact List.mem_append_right _ (List.mem_append_left _ (taken ▸ h))

theorem flush_unindent (line : Text) : ∀ u ∈ (unindent line).head?, isIndent u = false := by
  intro u hu
  apply head?_dropWhile (p := isIndent) line
  unfold unindent dropCarriageReturn at hu
  split at hu
  · rw [List.head?_dropLast] at hu
    split at hu
    · exact hu
    · cases hu
  · exact hu

section Blocks
variable {raw : Text}

/-- Whatever indentations and line ends the lines of a text are given, and whatever blank lines stand
around them, the block denotes the text. -/
theorem blockBody_laidOut {laid : List LaidLine} {before after : List Text} (nonempty : laid ≠ [])
    (tidy : Tidy (laid.map (·.line)))
    (plain : ∀ l ∈ laid, lineFeed ∉ l.line ∧ l.line.getLast? ≠ some carriageReturn)
    (blank : ∀ line ∈ before ++ after, lineFeed ∉ line ∧ isAllBlank line = true) :
    blockBody (unlines (before ++ (laid.map LaidLine.write ++ after))) =
      unlines (laid.map (·.line)) := by
  obtain ⟨hb, ha⟩ := List.forall_mem_append.mp blank
  have unbroken : ∀ line ∈ before ++ (laid.map LaidLine.write ++ after), lineFeed ∉ line := by
    refine List.forall_mem_append.mpr ⟨fun line hl => (hb line hl).1, ?_⟩
    refine List.forall_mem_append.mpr ⟨?_, fun line hl => (ha line hl).1⟩
    exact List.forall_mem_map.mpr fun l hl => LaidLine.lineFeed_not_mem_write (plain l hl).1
  have kept : dropBlankEnds (before ++ (laid.map LaidLine.write ++ after)) =
      laid.map LaidLine.write := by
    apply dropBlankEnds_append (by simpa using nonempty) (fun line hl => (hb line hl).2)
      (fun line hl => (ha line hl).2)
    · have first := tidy.first
      rw [List.head?_map, Option.forall_mem_map] at first ⊢
      intro l hl
      rw [l.isAllBlank_write]
      exact first l hl
    · have last := tidy.last
      rw [List.getLast?_map, Option.forall_mem_map] at last ⊢
      intro l hl
      rw [l.isAllBlank_write]
      exact last l hl
  have back : (laid.map LaidLine.write).map unindent = laid.map (·.line) := by
    rw [List.map_map]
    apply List.map_congr_left
    intro l hl
    exact LaidLine.unindent_write (tidy.flush _ (List.mem_map_of_mem hl)) (plain l hl).2
  rw [blockBody, lines_unlines unbroken (by simp [nonempty]), kept, back]

theorem lines_blockBody (h : dropBlankEnds raw.lines ≠ []) :
    (blockBody raw).lines = (dropBlankEnds raw.lines).map unindent := by
  apply lines_unlines
  · rw [List.forall_mem_map]
    intro line hl hm
    exact lineFeed_not_mem_of_mem_lines (mem_of_mem_dropBlankEnds hl) (mem_of_mem_unindent hm)
  · simpa using h

theorem tidy_blockBody (h : dropBlankEnds raw.lines ≠ []) : Tidy (blockBody raw).lines := by
  rw [lines_blockBody h]
  constructor
  · rw [List.head?_map, Option.forall_mem_map]
    intro line hl
    rw [isAllBlank_unindent]
    exact first_dropBlankEnds raw.lines line hl
  · rw [List.getLast?_map, Option.forall_mem_map]
    intro line hl
    rw [isAllBlank_unindent]
    exact last_dropBlankEnds raw.lines line hl
  · exact List.forall_mem_map.mpr fun line _ => flush_unindent line

theorem blockBody_eq_nil_iff : blockBody raw = [] ↔ ∀ line ∈ raw.lines, isAllBlank line = true := by
  rw [← dropBlankEnds_eq_nil_iff]
  constructor
  · intro h
    -- An empty text has one line, and that is blank.
    by_contra left
    have tidy := tidy_blockBody left
    rw [h] at tidy
    exact absurd (tidy.first [] rfl) (by decide)
  · intro h
    rw [blockBody, h]
    rfl

end Blocks

/-- A block gives back every text without indentation and blank ends that was laid out in it. Every
block denotes such a text, or none if all its lines are blank. -/
theorem blocks_recover_texts :
    (∀ (laid : List LaidLine) (before after : List Text), laid ≠ [] → Tidy (laid.map (·.line)) →
      (∀ l ∈ laid, lineFeed ∉ l.line ∧ l.line.getLast? ≠ some carriageReturn) →
      (∀ line ∈ before ++ after, lineFeed ∉ line ∧ isAllBlank line = true) →
      blockBody (unlines (before ++ (laid.map LaidLine.write ++ after))) =
        unlines (laid.map (·.line))) ∧
    ∀ raw : Text, (blockBody raw = [] ↔ ∀ line ∈ raw.lines, isAllBlank line = true) ∧
      (blockBody raw ≠ [] → Tidy (blockBody raw).lines) := by
  constructor
  · intro laid before after nonempty tidy plain blank
    exact blockBody_laidOut nonempty tidy plain blank
  · intro raw
    refine ⟨blockBody_eq_nil_iff, fun left => tidy_blockBody ?_⟩
    rw [Ne, dropBlankEnds_eq_nil_iff, ← blockBody_eq_nil_iff]
    exact left

/-- Tabs and carriage returns around lines of which one is empty and one holds a no-break space. -/
theorem mixed_layout_recovered :
    blockBody "\n \r\n  one\r\n\t\r\n\u00a0\n    two \n\t" = "one\n\n\u00a0\ntwo " := by
  let laid : List LaidLine := [⟨"  ", "one", true, by decide⟩, ⟨"\t", "", true, by decide⟩,
    ⟨"", "\u00a0", false, by decide⟩, ⟨"    ", "two ", false, by decide⟩]
  have first : ∀ line ∈ laid.map (·.line), line.head?.all (!isIndent ·) = true := by decide
  have flush : ∀ line ∈ laid.map (·.line), ∀ u ∈ line.head?, isIndent u = false := by
    intro line hl u hu
    simpa [Option.mem_def.mp hu] using first line hl
  have plain : ∀ l ∈ laid, lineFeed ∉ l.line ∧ l.line.getLast? ≠ some carriageReturn := by decide
  exact blocks_recover_texts.1 laid ["", " \r"] ["\t"] (List.cons_ne_nil _ _)
    ⟨by decide, by decide, flush⟩ plain (by decide)

end CommandLanguage.Text

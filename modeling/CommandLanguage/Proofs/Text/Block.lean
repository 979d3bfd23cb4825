import CommandLanguage.Text.Block

/-!
# Lines and blocks

What a block denotes depends on each of its lines only through the text that is left of it
without its layout, and on whether it is blank.
-/

set_option autoImplicit false

namespace CommandLanguage.Text

/-- The code unit that may stand before a line feed as a part of the line's end. -/
def carriageReturn : CodeUnit := unit '\r'

@[simp] theorem lines_nil : lines [] = [[]] := List.splitOn_nil lineFeed

@[simp] theorem lines_lineFeed_cons (t : Text) : lines (lineFeed :: t) = [] :: lines t := by
  rw [lines, List.splitOn, List.splitOnP_cons_eq_if_modifyHead, if_pos (by simp)]
  rfl

theorem lines_cons_of_ne {u : CodeUnit} (h : u ≠ lineFeed) (t : Text) :
    lines (u :: t) = (lines t).modifyHead (u :: ·) := by
  rw [lines, List.splitOn, List.splitOnP_cons_eq_if_modifyHead, if_neg (by simp [h])]
  rfl

theorem lines_append {before : Text} (h : lineFeed ∉ before) (t : Text) :
    lines (before ++ t) = (lines t).modifyHead (before ++ ·) := by
  induction before with
  | nil => exact (congrFun List.modifyHead_id (lines t)).symm
  | cons u before ih =>
    have hu : u ≠ lineFeed := Ne.symm (List.ne_of_not_mem_cons h)
    rw [List.cons_append, lines_cons_of_ne hu, ih (List.not_mem_of_not_mem_cons h),
      List.modifyHead_modifyHead]
    rfl

theorem mem_of_mem_splitOnP {p : CodeUnit → Bool} {text piece : Text} (h : piece ∈ text.splitOnP p) :
    ∀ u ∈ piece, u ∈ text ∧ p u = false := by
  induction text generalizing piece with
  | nil =>
    rw [List.splitOnP_nil, List.mem_singleton] at h
    subst h
    exact List.forall_mem_nil _
  | cons v text ih =>
    have later {piece : Text} (h : piece ∈ text.splitOnP p) :
        ∀ u ∈ piece, u ∈ v :: text ∧ p u = false := by
      intro u hu
      obtain ⟨hm, hp⟩ := ih h u hu
      exact ⟨List.mem_cons_of_mem v hm, hp⟩
    rw [List.splitOnP_cons_eq_if_modifyHead] at h
    split at h
    · rcases List.mem_cons.mp h with rfl | h
      · exact List.forall_mem_nil _
      · exact later h
    · next hv =>
      cases hs : text.splitOnP p with
      | nil => exact absurd hs (List.splitOnP_ne_nil p text)
      | cons first others =>
        rw [hs, List.modifyHead_cons] at h
        rcases List.mem_cons.mp h with rfl | h
        · refine List.forall_mem_cons.mpr ⟨⟨List.mem_cons_self, eq_false_of_ne_true hv⟩, ?_⟩
          exact later (hs ▸ List.mem_cons_self)
        · exact later (hs ▸ List.mem_cons_of_mem first h)

theorem head?_dropWhile {α : Type} {p : α → Bool} (things : List α) :
    ∀ a ∈ (things.dropWhile p).head?, p a = false := by
  intro a ha
  have stops := List.head?_dropWhile_not p things
  rw [Option.mem_def.mp ha] at stops
  exact stops

theorem lineFeed_not_mem_of_mem_lines {t line : Text} (h : line ∈ lines t) : lineFeed ∉ line := by
  intro hm
  have outside := (mem_of_mem_splitOnP h lineFeed hm).2
  simp at outside

/-- Lines put one under the other are the lines of what results. -/
theorem lines_unlines {ls : List Text} (unbroken : ∀ line ∈ ls, lineFeed ∉ line) (nonempty : ls ≠ []) :
    lines (unlines ls) = ls :=
  List.splitOn_intercalate lineFeed unbroken nonempty

section Unindent
variable {indent line ending : Text}

theorem isBlank_of_isIndent {u : CodeUnit} (h : isIndent u = true) : isBlank u = true := by
  rcases Bool.or_eq_true_iff.mp h with h | h <;> rw [eq_of_beq h] <;> decide

theorem dropCarriageReturn_append (unended : line.getLast? ≠ some carriageReturn)
    (ended : ending = [] ∨ ending = [carriageReturn]) :
    dropCarriageReturn (line ++ ending) = line := by
  rcases ended with rfl | rfl
  · rw [List.append_nil]
    exact if_neg unended
  · rw [dropCarriageReturn, if_pos (by simp [carriageReturn]), List.dropLast_concat]

/-- Neither the white space before a line nor the carriage return behind it is left of it. -/
theorem unindent_eq (indented : ∀ u ∈ indent, isIndent u = true)
    (unended : line.getLast? ≠ some carriageReturn)
    (ended : ending = [] ∨ ending = [carriageReturn]) :
    unindent (indent ++ (line ++ ending)) = line.dropWhile isIndent := by
  have hkeep : ending.dropWhile isIndent = ending := by
    rcases ended with rfl | rfl <;> decide
  have hdrop : (line ++ ending).dropWhile isIndent = line.dropWhile isIndent ++ ending := by
    rw [List.dropWhile_append, hkeep]
    split
    · next h => rw [List.isEmpty_iff.mp h, List.nil_append]
    · rfl
  rw [unindent, List.dropWhile_append_of_pos indented, hdrop]
  apply dropCarriageReturn_append _ ended
  intro last
  apply unended
  rw [← List.takeWhile_append_dropWhile (p := isIndent) (l := line), List.getLast?_append, last]
  rfl

theorem isAllBlank_append (indented : ∀ u ∈ indent, isIndent u = true)
    (ended : ending = [] ∨ ending = [carriageReturn]) :
    isAllBlank (indent ++ (line ++ ending)) = isAllBlank line := by
  have hindent : indent.all isBlank = true :=
    List.all_eq_true.mpr fun u hu => isBlank_of_isIndent (indented u hu)
  have hending : ending.all isBlank = true := by
    rcases ended with rfl | rfl <;> decide
  rw [isAllBlank, List.all_append, List.all_append, hindent, hending, Bool.true_and, Bool.and_true]
  rfl

/-- All that a block takes from one of its lines. -/
def content (line : Text) : Bool × Text := (isAllBlank line, unindent line)

theorem content_append (indented : ∀ u ∈ indent, isIndent u = true)
    (plain : carriageReturn ∉ line) (ended : ending = [] ∨ ending = [carriageReturn]) :
    content (indent ++ (line ++ ending)) = content line := by
  have unended : line.getLast? ≠ some carriageReturn := fun h => plain (List.mem_of_getLast? h)
  have hplain : unindent line = line.dropWhile isIndent := by
    simpa using unindent_eq (List.forall_mem_nil _) unended (.inl rfl)
  rw [content, content, isAllBlank_append indented ended, unindent_eq indented unended ended, hplain]

end Unindent

theorem map_content_dropBlankEnds (ls : List Text) :
    (dropBlankEnds ls).map content =
      (((ls.map content).dropWhile Prod.fst).reverse.dropWhile Prod.fst).reverse := by
  have hdrop (ls : List Text) :
      (ls.dropWhile isAllBlank).map content = (ls.map content).dropWhile Prod.fst :=
    (List.dropWhile_map (f := content) (p := Prod.fst)).symm
  rw [dropBlankEnds, List.map_reverse, hdrop, List.map_reverse, hdrop]

theorem blockBody_congr {raw raw' : Text} (h : raw.lines.map content = raw'.lines.map content) :
    blockBody raw = blockBody raw' := by
  have hsnd (ls : List Text) : ls.map unindent = (ls.map content).map Prod.snd := by
    rw [List.map_map]
    rfl
  rw [blockBody, blockBody, hsnd, hsnd, map_content_dropBlankEnds, map_content_dropBlankEnds, h]

end CommandLanguage.Text

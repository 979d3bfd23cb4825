import CommandLanguage.Name
import CommandLanguage.Proofs.Declaration.Names
import CommandLanguage.Proofs.Text.Block

/-!
# Letters of generated names

Capitalising the pieces of a name between its separators leaves letters and digits only, if the name
was scanned as an identifier.
-/

set_option autoImplicit false

namespace CommandLanguage.Text

variable {u : CodeUnit} {name piece : Text}

/-- What is left of the alphabet of identifiers without the separators. -/
def isLetterOrDigit (u : CodeUnit) : Bool := isLetter u || isDigit u

theorem isLetterOrDigit_of_isIdentifierPart (part : isIdentifierPart u = true)
    (inside : isSeparator u = false) : isLetterOrDigit u = true := by
  simp only [isIdentifierPart, isIdentifierStart, Bool.or_eq_true] at part
  simp only [isSeparator, Bool.or_eq_false_iff] at inside
  simp_all [isLetterOrDigit]

theorem IsIdentifier.isIdentifierPart (h : IsIdentifier name) :
    ∀ u ∈ name, Text.isIdentifierPart u = true := by
  cases name with
  | nil => exact h.elim
  | cons u rest =>
    refine List.forall_mem_cons.mpr ⟨?_, h.2⟩
    simp [Text.isIdentifierPart, h.1]

theorem uppercase_of_lt : ∀ n < 0x80, isLetterOrDigit (UInt16.ofNat n) = true →
    ∀ v ∈ uppercase (UInt16.ofNat n), isLetterOrDigit v = true := by decide

theorem lt_of_isLetterOrDigit (h : isLetterOrDigit u = true) : u.toNat < 0x80 := by
  simp only [isLetterOrDigit, isLetter, isDigit, Bool.or_eq_true, Bool.and_eq_true,
    decide_eq_true_eq, UInt16.le_iff_toNat_le] at h
  have : (unit 'z').toNat < 0x80 ∧ (unit 'Z').toNat < 0x80 ∧ (unit '9').toNat < 0x80 := by decide
  omega

theorem capitalize_of_isLetterOrDigit (h : ∀ u ∈ piece, isLetterOrDigit u = true) :
    ∀ u ∈ capitalize piece, isLetterOrDigit u = true := by
  cases piece with
  | nil => exact List.forall_mem_nil _
  | cons u rest =>
    obtain ⟨first, others⟩ := List.forall_mem_cons.mp h
    have upper := uppercase_of_lt u.toNat (lt_of_isLetterOrDigit first)
    rw [UInt16.ofNat_toNat] at upper
    exact List.forall_mem_append.mpr ⟨upper first, others⟩

theorem isLetterOrDigit_of_mem_nameParts (h : IsIdentifier name) :
    ∀ piece ∈ name.nameParts, ∀ u ∈ piece, isLetterOrDigit u = true := by
  intro piece hp u hu
  obtain ⟨hm, inside⟩ := mem_of_mem_splitOnP (List.mem_filter.mp hp).1 u hu
  exact isLetterOrDigit_of_isIdentifierPart (h.isIdentifierPart u hm) inside

theorem isLetterOrDigit_of_mem_fieldName (h : IsIdentifier name) :
    ∀ u ∈ fieldName name, isLetterOrDigit u = true := by
  have pieces : ∀ u ∈ name.nameParts.flatMap capitalize, isLetterOrDigit u = true := by
    rw [List.forall_mem_flatMap]
    intro piece hp
    exact capitalize_of_isLetterOrDigit (isLetterOrDigit_of_mem_nameParts h piece hp)
  unfold fieldName
  split
  · decide
  · next u rest he =>
    rw [he] at pieces
    split
    · exact List.forall_mem_cons.mpr ⟨by decide, pieces⟩
    · exact pieces

theorem isLetterOrDigit_of_mem_pathIdentifier {segments : List Text}
    (h : ∀ name ∈ segments, IsIdentifier name) :
    ∀ u ∈ pathIdentifier segments, isLetterOrDigit u = true :=
  List.forall_mem_flatMap.mpr fun name hn => isLetterOrDigit_of_mem_fieldName (h name hn)

def isCapital (u : CodeUnit) : Bool := unit 'A' ≤ u && u ≤ unit 'Z'

/-- A capital letter with letters and digits behind it. -/
def IsCapitalised : Text → Prop
  | [] => False
  | u :: rest => isCapital u = true ∧ ∀ v ∈ rest, isLetterOrDigit v = true

theorem head?_uppercase_of_lt : ∀ n < 0x80, isLetterOrDigit (UInt16.ofNat n) = true →
    ∃ v ∈ (uppercase (UInt16.ofNat n)).head?, isCapital v = true ∨ isDigit v = true := by
  have table : ∀ n < 0x80, isLetterOrDigit (UInt16.ofNat n) = true →
      (uppercase (UInt16.ofNat n)).head?.any (fun v => isCapital v || isDigit v) = true := by decide
  intro n bound part
  obtain ⟨v, hv, first⟩ := Option.any_eq_true _ _ |>.mp (table n bound part)
  exact ⟨v, hv, Bool.or_eq_true_iff.mp first⟩

/-- The first unit of what the pieces of a name become is a capital letter or a digit. -/
theorem head?_flatMap_capitalize {pieces : List Text} (nonempty : ∀ piece ∈ pieces, piece ≠ [])
    (h : ∀ piece ∈ pieces, ∀ u ∈ piece, isLetterOrDigit u = true) :
    ∀ v ∈ (pieces.flatMap capitalize).head?, isCapital v = true ∨ isDigit v = true := by
  cases pieces with
  | nil =>
    intro v hv
    cases hv
  | cons piece pieces =>
    cases piece with
    | nil => exact absurd rfl (nonempty [] List.mem_cons_self)
    | cons u rest =>
      have part := h _ List.mem_cons_self u List.mem_cons_self
      have upper := head?_uppercase_of_lt u.toNat (lt_of_isLetterOrDigit part)
      rw [UInt16.ofNat_toNat] at upper
      obtain ⟨v, hv, first⟩ := upper part
      intro w hw
      rw [List.flatMap_cons, capitalize, List.append_assoc, List.head?_append, hv] at hw
      cases hw
      exact first

theorem isCapitalised_fieldName (h : IsIdentifier name) : IsCapitalised (fieldName name) := by
  have letters := isLetterOrDigit_of_mem_fieldName h
  have first : ∀ v ∈ (name.nameParts.flatMap capitalize).head?,
      isCapital v = true ∨ isDigit v = true := by
    apply head?_flatMap_capitalize _ (isLetterOrDigit_of_mem_nameParts h)
    intro piece hp
    simpa using (List.mem_filter.mp hp).2
  unfold fieldName at letters ⊢
  split
  · exact ⟨by decide, List.forall_mem_nil _⟩
  · next u rest he =>
    simp only [he] at letters first
    split
    · next digit =>
      rw [if_pos digit] at letters
      exact ⟨by decide, (List.forall_mem_cons.mp letters).2⟩
    · next digit =>
      rw [if_neg digit] at letters
      exact ⟨(first u rfl).resolve_right digit, (List.forall_mem_cons.mp letters).2⟩

theorem isLetter_of_isCapital (h : isCapital u = true) : isLetter u = true :=
  Bool.or_eq_true_iff.mpr (.inl h)

theorem IsCapitalised.letters {t : Text} (h : IsCapitalised t) :
    ∀ u ∈ t, isLetterOrDigit u = true := by
  cases t with
  | nil => exact h.elim
  | cons u rest =>
    refine List.forall_mem_cons.mpr ⟨?_, h.2⟩
    rw [isLetterOrDigit, isLetter_of_isCapital h.1, Bool.true_or]

theorem IsCapitalised.append {t rest : Text} (h : IsCapitalised t)
    (letters : ∀ u ∈ rest, isLetterOrDigit u = true) : IsCapitalised (t ++ rest) := by
  cases t with
  | nil => exact h.elim
  | cons u t => exact ⟨h.1, List.forall_mem_append.mpr ⟨h.2, letters⟩⟩

/-- Whatever separators and digits the names of a path have, its identifier is a capital letter with
letters and digits behind it. -/
theorem isCapitalised_pathIdentifier {segments : List Text} (nonempty : segments ≠ [])
    (h : ∀ name ∈ segments, IsIdentifier name) : IsCapitalised (pathIdentifier segments) := by
  cases segments with
  | nil => exact absurd rfl nonempty
  | cons name segments =>
    obtain ⟨first, others⟩ := List.forall_mem_cons.mp h
    exact (isCapitalised_fieldName first).append (isLetterOrDigit_of_mem_pathIdentifier others)

theorem isWordPart_of_isLetterOrDigit (h : isLetterOrDigit u = true) : isWordPart u = true := by
  rcases Bool.or_eq_true_iff.mp h with h | h
  · rw [isWordPart, isWordStart, h, Bool.true_or, Bool.true_or]
  · rw [isWordPart, h, Bool.or_true]

theorem isValidIdentifier_of_isLetter {rest : Text} (h : isLetter u = true)
    (letters : ∀ v ∈ rest, isLetterOrDigit v = true) : isValidIdentifier (u :: rest) = true := by
  rw [isValidIdentifier, isWordStart, h, Bool.true_or, Bool.true_and, List.all_eq_true]
  exact fun v hv => isWordPart_of_isLetterOrDigit (letters v hv)

theorem IsCapitalised.isValidIdentifier {t : Text} (h : IsCapitalised t) :
    t.isValidIdentifier = true := by
  cases t with
  | nil => exact h.elim
  | cons u rest => exact isValidIdentifier_of_isLetter (isLetter_of_isCapital h.1) h.2

end CommandLanguage.Text

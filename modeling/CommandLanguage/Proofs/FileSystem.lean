import CommandLanguage.FileSystem
import Mathlib.Data.List.Basic

/-!
# Writing a file

Opening a path looks only at which of the paths above it are directories. Writing a file makes no
directory and takes none away, so the same paths can be opened before and after it: the file reads as
what was written, and everything else stays as it was.
-/

set_option autoImplicit false

namespace CommandLanguage

open Text

namespace FileSystem

/-- The names can be followed down from a directory: all but the last are those of directories. -/
structure Leads (files : FileSystem) (directory : FilePath) (names : List Text) : Prop where
  short : ∀ name ∈ names, name.toUtf8.length ≤ longestName
  through : ∀ above below : List Text, above ++ below = names → above ≠ [] → below ≠ [] →
    files.entry? ⟨directory.names ++ above⟩ = some .directory

structure Opens (files : FileSystem) (path : FilePath) : Prop where
  unbroken : path.text.contains 0 = false
  short : path.text.toUtf8.length < pathLimit
  leads : files.Leads .root path.names

section Opening
variable {files after : FileSystem} {path directory : FilePath} {name : Text} {names : List Text}
  {found : Option FileEntry} {bytes : List UInt8}

theorem leads_nil : files.Leads directory [] where
  short := List.forall_mem_nil _
  through := fun _ _ whole ha _ => absurd (List.append_eq_nil_iff.mp whole).1 ha

theorem leads_cons : files.Leads directory (name :: names) ↔ name.toUtf8.length ≤ longestName ∧
    (names ≠ [] → files.entry? ⟨directory.names ++ [name]⟩ = some .directory) ∧
    files.Leads ⟨directory.names ++ [name]⟩ names := by
  constructor
  · rintro ⟨short, through⟩
    obtain ⟨fits, short⟩ := List.forall_mem_cons.mp short
    refine ⟨fits, through [name] names rfl (List.cons_ne_nil _ _), short, ?_⟩
    rintro above below rfl _ hb
    have := through (name :: above) below rfl (List.cons_ne_nil _ _) hb
    rwa [List.append_cons] at this
  · rintro ⟨fits, first, short, through⟩
    refine ⟨List.forall_mem_cons.mpr ⟨fits, short⟩, ?_⟩
    intro above below whole ha hb
    obtain ⟨rfl, _⟩ | ⟨above, rfl, rfl⟩ := List.append_eq_cons_iff.mp whole
    · exact absurd rfl ha
    · rw [List.append_cons]
      by_cases deep : above = []
      · subst deep
        rw [List.append_nil]
        exact first hb
      · exact through above below rfl deep hb

theorem follow_singleton (fits : name.toUtf8.length ≤ longestName) :
    files.follow directory [name] = .ok (files.entry? ⟨directory.names ++ [name]⟩) := by
  rw [follow, if_neg (Nat.not_lt.mpr fits)]
  dsimp only
  split
  · next he => rw [follow, he]
  · next he => rw [he, List.isEmpty_nil, if_pos rfl]
  · next he => rw [he, List.isEmpty_nil, if_pos rfl]

theorem follow_cons_eq_ok_iff (fits : name.toUtf8.length ≤ longestName) (more : names ≠ []) :
    files.follow directory (name :: names) = .ok found ↔
      files.entry? ⟨directory.names ++ [name]⟩ = some .directory ∧
        files.follow ⟨directory.names ++ [name]⟩ names = .ok found := by
  rw [follow, if_neg (Nat.not_lt.mpr fits)]
  dsimp only
  split
  · next he => rw [and_iff_right he]
  · next he => simp [he, more]
  · next he => simp [he, more]

/-- Following names finds what stands at the path that they make. -/
theorem follow_eq_ok_iff : files.follow directory names = .ok found ↔
    files.Leads directory names ∧ found = files.entry? ⟨directory.names ++ names⟩ := by
  induction names generalizing directory with
  | nil => rw [follow, List.append_nil, and_iff_right leads_nil, Except.ok.injEq, eq_comm]
  | cons name names ih =>
    rw [leads_cons]
    by_cases fits : name.toUtf8.length ≤ longestName
    · by_cases last : names = []
      · subst last
        rw [follow_singleton fits, Except.ok.injEq, eq_comm, and_iff_right fits,
          and_iff_right fun more => absurd rfl more, and_iff_right leads_nil]
      · rw [follow_cons_eq_ok_iff fits last, ih, and_iff_right fits, ← and_assoc, imp_iff_right last,
          List.append_cons directory.names name names]
    · rw [follow, if_pos (Nat.lt_of_not_le fits)]
      simp [fits]

theorem openEntry_eq_ok_iff : files.openEntry path = .ok found ↔
    files.Opens path ∧ found = files.entry? path := by
  rw [openEntry]
  constructor
  · intro h
    split at h
    · cases h
    · next unbroken =>
      split at h
      · cases h
      · next short =>
        cases hf : files.follow .root path.names with
        | error fault =>
          rw [hf] at h
          cases h
        | ok there =>
          rw [hf] at h
          cases h
          obtain ⟨leads, rfl⟩ := follow_eq_ok_iff.mp hf
          exact ⟨⟨Bool.eq_false_iff.mpr unbroken, Nat.lt_of_not_le short, leads⟩, rfl⟩
  · rintro ⟨⟨unbroken, short, leads⟩, rfl⟩
    have followed := follow_eq_ok_iff.mpr ⟨leads, rfl⟩
    rw [if_neg (Bool.eq_false_iff.mp unbroken), if_neg (Nat.not_le.mpr short), followed]
    rfl

theorem read_eq_ok_iff : files.read path = .ok bytes ↔
    files.Opens path ∧ files.entry? path = some (.file bytes) := by
  constructor
  · intro h
    cases ho : files.openEntry path with
    | error fault =>
      rw [read, ho] at h
      cases h
    | ok found =>
      obtain ⟨opens, there⟩ := openEntry_eq_ok_iff.mp ho
      refine ⟨opens, ?_⟩
      rw [read, ho] at h
      rw [← there]
      cases found with
      | none => cases h
      | some entry =>
        cases entry with
        | directory => cases h
        | file content =>
          cases h
          rfl
  · rintro ⟨opens, there⟩
    rw [read, openEntry_eq_ok_iff.mpr ⟨opens, there.symm⟩]
    rfl

theorem write_eq_ok_iff : files.write path bytes = .ok after ↔ files.Opens path ∧
    files.entry? path ≠ some .directory ∧ after = files.put path (.file bytes) := by
  constructor
  · intro h
    cases ho : files.openEntry path with
    | error fault =>
      rw [write, ho] at h
      cases h
    | ok found =>
      obtain ⟨opens, there⟩ := openEntry_eq_ok_iff.mp ho
      refine ⟨opens, ?_⟩
      rw [write, ho] at h
      rw [← there]
      cases found with
      | none =>
        cases h
        exact ⟨nofun, rfl⟩
      | some entry =>
        cases entry with
        | directory => cases h
        | file content =>
          cases h
          exact ⟨nofun, rfl⟩
  · rintro ⟨opens, apart, rfl⟩
    rw [write, openEntry_eq_ok_iff.mpr ⟨opens, rfl⟩]
    cases he : files.entry? path with
    | none => rfl
    | some entry =>
      cases entry with
      | directory => exact absurd he apart
      | file content => rfl

end Opening

section Writing
variable {files after : FileSystem} {path other : FilePath} {bytes content : List UInt8}

theorem stands_put_of_ne (entry : FileEntry) (h : other.text ≠ path.text) :
    FileSystem.entry? (files.put path entry) other = files.entry? other := by
  unfold entry? put
  split
  · rfl
  · rw [KeyedList.get?_assign, if_neg h]

theorem stands_put_of_eq (entry : FileEntry) (h : other.text = path.text) (below : other.names ≠ []) :
    FileSystem.entry? (files.put path entry) other = some entry := by
  unfold entry? put
  rw [if_neg below, KeyedList.get?_assign, if_pos h]

variable (apart : files.entry? path ≠ some .directory)
include apart

theorem names_ne_nil_of_apart : path.names ≠ [] := fun root => apart (if_pos root)

/-- Writing a file makes no directory and takes none away. -/
theorem directory_put_iff : FileSystem.entry? (files.put path (.file bytes)) other = some .directory ↔
    files.entry? other = some .directory := by
  by_cases root : other.names = []
  · exact iff_of_true (if_pos root) (if_pos root)
  · by_cases same : other.text = path.text
    · have before : files.entry? other = files.entry? path := by
        unfold entry?
        rw [if_neg root, if_neg (names_ne_nil_of_apart apart), same]
      rw [stands_put_of_eq _ same root, before]
      refine iff_of_false ?_ apart
      rintro ⟨⟩
    · rw [stands_put_of_ne _ same]

theorem opens_put_iff : (files.put path (.file bytes)).Opens other ↔ files.Opens other := by
  constructor
  · rintro ⟨unbroken, short, names, through⟩
    refine ⟨unbroken, short, names, ?_⟩
    intro above below whole ha hb
    exact (directory_put_iff apart).mp (through above below whole ha hb)
  · rintro ⟨unbroken, short, names, through⟩
    refine ⟨unbroken, short, names, ?_⟩
    intro above below whole ha hb
    exact (directory_put_iff apart).mpr (through above below whole ha hb)

end Writing

/-- Only at the given paths something else stands than before, and only what is read there differs. -/
structure KeptBut (changed : List FilePath) (files after : FileSystem) : Prop where
  entry : ∀ other : FilePath, (∀ path ∈ changed, other.text ≠ path.text) →
    after.entry? other = files.entry? other
  read : ∀ (other : FilePath) (content : List UInt8), (∀ path ∈ changed, other.text ≠ path.text) →
    (after.read other = .ok content ↔ files.read other = .ok content)

section Effects
variable {files between after : FileSystem} {path : FilePath} {bytes : List UInt8}
  {changed further : List FilePath}

theorem KeptBut.trans (h : KeptBut changed files between) (ho : KeptBut further between after) :
    KeptBut (changed ++ further) files after where
  entry other apart := by
    obtain ⟨ha, hf⟩ := List.forall_mem_append.mp apart
    rw [ho.entry other hf, h.entry other ha]
  read other content apart := by
    obtain ⟨ha, hf⟩ := List.forall_mem_append.mp apart
    rw [ho.read other content hf, h.read other content ha]

theorem read_of_write (h : files.write path bytes = .ok after) : after.read path = .ok bytes := by
  obtain ⟨opens, apart, rfl⟩ := write_eq_ok_iff.mp h
  rw [read_eq_ok_iff, opens_put_iff apart]
  exact ⟨opens, stands_put_of_eq _ rfl (names_ne_nil_of_apart apart)⟩

theorem keptBut_of_write (h : files.write path bytes = .ok after) :
    KeptBut [path] files after := by
  obtain ⟨_, apart, rfl⟩ := write_eq_ok_iff.mp h
  have entry : ∀ other : FilePath, (∀ changed ∈ [path], other.text ≠ changed.text) →
      FileSystem.entry? (files.put path (.file bytes)) other = files.entry? other :=
    fun other ne => stands_put_of_ne _ (ne path List.mem_cons_self)
  refine ⟨entry, fun other content ne => ?_⟩
  rw [read_eq_ok_iff, read_eq_ok_iff, opens_put_iff apart, entry other ne]

end Effects

end FileSystem

end CommandLanguage

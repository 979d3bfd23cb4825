import CommandLanguage.FilePath
import Mathlib.Data.List.Basic

/-!
# Names in paths

A written path that ends in the name of a definition leads to a file of that name, and the files beside
it have paths that differ in the name only.
-/

set_option autoImplicit false

namespace CommandLanguage

open Text

namespace FilePath

variable {written name : Text}

theorem foldl_step_parts (start : FilePath) (parts : List Text) :
    parts.foldl step start = (parts.filter (· ≠ [])).foldl step start := by
  rw [List.foldl_filter]
  congr 1
  funext path part
  by_cases empty : part = []
  · simp [step, empty]
  · simp [empty]

theorem exists_of_nameExtension (h : nameExtension name = ".cdl") :
    ∃ base : Text, base ≠ [] ∧ name = base ++ ".cdl" ∧ name ≠ ".." := by
  have whole := List.takeWhile_append_dropWhile (p := (· ≠ unit '.')) (l := name.reverse)
  have dotted := List.head?_dropWhile_not (· ≠ unit '.') name.reverse
  unfold nameExtension at h
  cases hd : name.reverse.dropWhile (· ≠ unit '.') with
  | nil =>
    rw [hd] at h
    cases h
  | cons u before =>
    cases before with
    | nil =>
      rw [hd] at h
      cases h
    | cons v before =>
      rw [hd] at h whole dotted
      obtain rfl : u = unit '.' := by simpa using dotted
      change (if name = ".." then ([] : Text) else _) = _ at h
      split at h
      · cases h
      · next up =>
        have letters : name.reverse.takeWhile (· ≠ unit '.') = [unit 'l', unit 'd', unit 'c'] :=
          List.reverse_eq_iff.mp (List.cons.inj h).2
        have reversed := congrArg List.reverse whole
        rw [letters, List.reverse_reverse] at reversed
        refine ⟨(v :: before).reverse, by simp, ?_, up⟩
        rw [← reversed]
        simp
        rfl

/-- A path that ends in a definition leads to it, and something stands before the extension. -/
theorem exists_name_resolve (h : extension written = ".cdl") (directory : FilePath) :
    ∃ base : Text, base ≠ [] ∧ (resolve directory written).name = base ++ ".cdl" := by
  obtain ⟨base, nonempty, named, up⟩ := exists_of_nameExtension h
  refine ⟨base, nonempty, ?_⟩
  cases hl : ((parts written).filter (· ≠ [])).getLast? with
  | none =>
    rw [extension, hl] at h
    cases h
  | some name =>
    rw [hl, Option.getD_some] at named up
    have taken : ∀ path : FilePath, step path name = ⟨path.names ++ [name]⟩ := by
      intro path
      have inside : ¬ (name = [] ∨ name = ".") := by
        have length := congrArg List.length named
        have four : (ofString ".cdl").length = 4 := by decide
        rw [List.length_append, four] at length
        rintro (rfl | rfl)
        · have : ([] : Text).length = 0 := rfl
          omega
        · have : (ofString ".").length = 1 := by decide
          omega
      rw [step, if_neg inside, if_neg up]
    have split := List.dropLast_append_getLast? name hl
    unfold resolve
    rw [foldl_step_parts, ← split, List.foldl_append, List.foldl_cons, List.foldl_nil, taken,
      FilePath.name, List.getLast?_concat, named]
    rfl

theorem text_eq_flatMap {names : List Text} (h : names ≠ []) :
    text ⟨names⟩ = names.flatMap (unit '/' :: ·) := by
  induction names with
  | nil => exact absurd rfl h
  | cons name rest ih =>
    cases rest with
    | nil => simp [text, join]
    | cons second rest =>
      have slash : ofString "/" = [unit '/'] := by decide
      rw [List.flatMap_cons, ← ih (List.cons_ne_nil _ _), text, text, join, join,
        List.intercalate_cons_cons, slash]
      simp

theorem exists_text_sibling (path : FilePath) :
    ∃ front : Text, ∀ name, (path.sibling name).text = front ++ name := by
  refine ⟨path.names.dropLast.flatMap (unit '/' :: ·) ++ [unit '/'], fun name => ?_⟩
  rw [sibling, text_eq_flatMap (by simp), List.flatMap_append]
  simp

theorem sibling_name {path : FilePath} (h : path.name ≠ []) : path.sibling path.name = path := by
  obtain ⟨names⟩ := path
  have nonempty : names ≠ [] := by
    rintro rfl
    exact h rfl
  rw [sibling, name, List.getLast?_eq_some_getLast nonempty]
  exact congrArg FilePath.mk (List.dropLast_append_getLast nonempty)

end FilePath

end CommandLanguage

import CommandLanguage.Invocation.Parameters
import Mathlib.Data.List.Nodup

/-!
# Records of parameters

A record is filled by recording values under names, one after the other. Which names it holds, and
in which order, depends on the names alone, and a record is determined by its names and by what is
read under each of them.
-/

set_option autoImplicit false

namespace CommandLanguage.KeyedList

universe u v
variable {α : Type u} {β : Type v} {list list' : KeyedList α} {name other : Text}

/-- The list after some values were recorded in it. -/
def recordAll (list : KeyedList α) (pairs : List (Text × α)) : KeyedList α :=
  pairs.foldl (fun list pair => record list pair.1 pair.2) list

theorem recordAll_cons (pair : Text × α) (pairs : List (Text × α)) :
    recordAll list (pair :: pairs) = recordAll (record list pair.1 pair.2) pairs := rfl

theorem get?_record_of_ne (h : other ≠ name) (value : α) :
    get? (record list name value) other = get? list other := by
  unfold record
  split
  · rfl
  · rw [get?_assign, if_neg h]

theorem get?_record_self (h : name ≠ unrecordedName) (value : α) :
    get? (record list name value) name = some value := by
  rw [record, if_neg h, get?_assign, if_pos rfl]

theorem get?_recordAll_of_not_mem {pairs : List (Text × α)} (h : name ∉ pairs.map Prod.fst) :
    get? (recordAll list pairs) name = get? list name := by
  induction pairs generalizing list with
  | nil => rfl
  | cons pair pairs ih =>
    obtain ⟨hne, hrest⟩ := List.ne_and_not_mem_of_not_mem_cons h
    rw [recordAll_cons, ih hrest, get?_record_of_ne hne]

/-- Of the values recorded under one name the last stays. -/
theorem get?_recordAll_of_last {pairs : List (Text × α)} {k : Nat} {value : α}
    (h : pairs[k]? = some (name, value)) (hne : name ≠ unrecordedName)
    (last : ∀ (j : Nat) (pair : Text × α), k < j → pairs[j]? = some pair → pair.1 ≠ name) :
    get? (recordAll list pairs) name = some value := by
  induction pairs generalizing list k with
  | nil => cases h
  | cons pair pairs ih =>
    rw [recordAll_cons]
    cases k with
    | zero =>
      cases h
      have absent : name ∉ pairs.map Prod.fst := by
        intro hm
        obtain ⟨other, ho, he⟩ := List.mem_map.mp hm
        obtain ⟨j, hj⟩ := List.getElem?_of_mem ho
        exact last (j + 1) other (Nat.succ_pos j) hj he
      rw [get?_recordAll_of_not_mem absent, get?_record_self hne]
    | succ k =>
      apply ih h
      intro j other hj ho
      exact last (j + 1) other (Nat.succ_lt_succ hj) ho

end CommandLanguage.KeyedList

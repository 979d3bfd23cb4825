import CommandLanguage.Text.Basic

/-!
# Keyed lists

Values under names, in the order in which the names were first assigned. Assigning a name again
replaces its value and keeps its place.
-/

set_option autoImplicit false

namespace CommandLanguage

universe u v

/-- Pairs of a name and a value; assignment keeps the names distinct. -/
abbrev KeyedList (α : Type u) := List (Text × α)

namespace KeyedList

variable {α : Type u} {β : Type v}

/-- Sets the value of a name: in place if the name is present, at the end otherwise. -/
def assign : KeyedList α → Text → α → KeyedList α
  | [], name, value => [(name, value)]
  | entry :: rest, name, value =>
    if entry.1 = name then (name, value) :: rest else entry :: assign rest name value

def get? (list : KeyedList α) (name : Text) : Option α := list.lookup name

/-- The names, in order of first assignment. -/
def names (list : KeyedList α) : List Text := list.map Prod.fst

def mapValues (f : α → β) (list : KeyedList α) : KeyedList β :=
  list.map fun entry => (entry.1, f entry.2)

theorem names_assign_of_mem {list : KeyedList α} {name : Text} (value : α)
    (h : name ∈ names list) : names (assign list name value) = names list := by
  induction list with
  | nil => simp [names] at h
  | cons entry rest ih =>
    by_cases he : entry.1 = name
    · simp [assign, names, he]
    · have hr : name ∈ names rest := by
        have : name = entry.1 ∨ name ∈ names rest := by simpa [names] using h
        exact this.resolve_left fun e => he e.symm
      have := ih hr
      simp_all [assign, names]

theorem names_assign_of_not_mem {list : KeyedList α} {name : Text} (value : α)
    (h : name ∉ names list) : names (assign list name value) = names list ++ [name] := by
  induction list with
  | nil => rfl
  | cons entry rest ih =>
    have he : ¬ entry.1 = name := fun e => h (by simp [names, e])
    have hr : name ∉ names rest := fun m => h (by simp [names] at m ⊢; exact .inr m)
    have := ih hr
    simp_all [assign, names]

theorem mem_names_assign {list : KeyedList α} {name other : Text} (value : α) :
    other ∈ names (assign list name value) ↔ other ∈ names list ∨ other = name := by
  by_cases hm : name ∈ names list
  · rw [names_assign_of_mem value hm]
    constructor
    · exact Or.inl
    · intro h
      rcases h with h | rfl
      · exact h
      · exact hm
  · rw [names_assign_of_not_mem value hm, List.mem_append, List.mem_singleton]

theorem assign_of_not_mem {list : KeyedList α} {name : Text} (value : α)
    (h : name ∉ names list) : assign list name value = list ++ [(name, value)] := by
  induction list with
  | nil => rfl
  | cons entry rest ih =>
    obtain ⟨hne, hrest⟩ := List.ne_and_not_mem_of_not_mem_cons h
    rw [assign, if_neg fun he => hne he.symm, ih hrest, List.cons_append]

theorem not_mem_names_before {list done rest : KeyedList α} {entry : Text × α}
    (nodup : (names list).Nodup) (he : list = done ++ entry :: rest) : entry.1 ∉ names done := by
  rw [he, names, List.map_append] at nodup
  obtain ⟨_, _, apart⟩ := List.nodup_append.mp nodup
  exact fun again => apart _ again _ List.mem_cons_self rfl

theorem nodup_names_assign {list : KeyedList α} (h : (names list).Nodup) (name : Text) (value : α) :
    (names (assign list name value)).Nodup := by
  by_cases hm : name ∈ names list
  · rw [names_assign_of_mem value hm]
    exact h
  · rw [names_assign_of_not_mem value hm]
    apply List.nodup_append.mpr
    refine ⟨h, List.pairwise_singleton _ name, ?_⟩
    intro a ha b hb he
    rw [List.mem_singleton.mp hb] at he
    exact hm (he ▸ ha)

theorem get?_cons (entry : Text × α) (rest : KeyedList α) (name : Text) :
    get? (entry :: rest) name = if name = entry.1 then some entry.2 else get? rest name := by
  obtain ⟨key, value⟩ := entry
  by_cases h : name = key
  · subst h
    rw [if_pos rfl, get?, List.lookup_cons_self]
  · rw [if_neg h, get?, get?, List.lookup_cons, beq_eq_false_iff_ne.mpr h]

/-- Reading after assigning gives the new value for the name and the old one for any other. -/
theorem get?_assign (list : KeyedList α) (name other : Text) (value : α) :
    get? (assign list name value) other = if other = name then some value else get? list other := by
  induction list with
  | nil => simp [assign, get?_cons]
  | cons entry rest ih =>
    by_cases he : entry.1 = name
    · rw [assign, if_pos he, get?_cons, get?_cons, he]
      split <;> rfl
    · rw [assign, if_neg he, get?_cons, get?_cons, ih]
      by_cases hk : other = entry.1
      · simp [hk, he]
      · simp [hk]

theorem exists_get?_of_mem_names {list : KeyedList α} {name : Text} (h : name ∈ names list) :
    ∃ value, get? list name = some value := by
  induction list with
  | nil => cases h
  | cons entry rest ih =>
    rw [get?_cons]
    split
    · exact ⟨entry.2, rfl⟩
    · next hne => exact ih ((List.mem_cons.mp h).resolve_left hne)

theorem mem_of_get? {list : KeyedList α} {name : Text} {value : α} (h : get? list name = some value) :
    (name, value) ∈ list := by
  induction list with
  | nil => cases h
  | cons entry rest ih =>
    rw [get?_cons] at h
    split at h
    · next he =>
      cases h
      rw [he]
      exact List.mem_cons_self
    · exact List.mem_cons_of_mem _ (ih h)

theorem get?_of_mem {list : KeyedList α} {name : Text} {value : α} (nodup : (names list).Nodup)
    (h : (name, value) ∈ list) : get? list name = some value := by
  induction list with
  | nil => cases h
  | cons entry rest ih =>
    obtain ⟨fresh, nodup⟩ := List.nodup_cons.mp nodup
    rw [get?_cons]
    rcases List.mem_cons.mp h with rfl | h
    · rw [if_pos rfl]
    · have hne : name ≠ entry.1 := by
        rintro rfl
        exact fresh (List.mem_map.mpr ⟨_, h, rfl⟩)
      rw [if_neg hne]
      exact ih nodup h

theorem mapValues_assign (f : α → β) (list : KeyedList α) (name : Text) (value : α) :
    mapValues f (assign list name value) = assign (mapValues f list) name (f value) := by
  induction list with
  | nil => rfl
  | cons entry rest ih =>
    by_cases he : entry.1 = name
    · simp [assign, mapValues, he]
    · have kept : ¬ (entry.1, f entry.2).1 = name := he
      rw [assign, if_neg he, mapValues, List.map_cons, mapValues, List.map_cons, assign, if_neg kept]
      exact congrArg _ ih

theorem get?_mapValues (f : α → β) (list : KeyedList α) (name : Text) :
    get? (mapValues f list) name = (get? list name).map f := by
  induction list with
  | nil => rfl
  | cons entry rest ih =>
    rw [mapValues, List.map_cons, get?_cons, get?_cons]
    split
    · rfl
    · exact ih

end KeyedList

end CommandLanguage

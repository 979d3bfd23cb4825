import CommandLanguage.Proofs.Declaration.Meaning

/-!
# What a scope declares

A statement belongs to the command that was selected last, or to no command. The flags and the
attributes of a scope are what the statements of the scope say, in their order and wherever they
stand between the statements of other scopes.
-/

set_option autoImplicit false

namespace CommandLanguage

namespace Statement

/-- The path of the command that is selected behind a statement; without one it is empty. -/
def select (scope : List Text) : Statement → List Text
  | .global => []
  | .command path _ _ => path
  | _ => scope

/-- The statements that belong to a path, of some that begin in a scope. -/
def belonging (path : List Text) : List Text → List Statement → List Statement
  | _, [] => []
  | scope, statement :: rest =>
    if statement.select scope = path then
      statement :: belonging path (statement.select scope) rest
    else belonging path (statement.select scope) rest

def flag? : Statement → Option FlagDeclaration
  | .flag declared => some declared
  | _ => none

/-- The value that a statement assigns to a name. -/
def assigned? (name : Text) : Statement → Option AttributeValue
  | .assignment other entry => if name = other then some entry.value else none
  | _ => none

/-- The flags that some statements declare on a path, in their order. -/
def flagsOn (path : List Text) (statements : List Statement) : List FlagDeclaration :=
  (belonging path [] statements).filterMap flag?

/-- The value that some statements assign last to a name on a path. -/
def lastAssigned (path : List Text) (name : Text) (statements : List Statement) :
    Option AttributeValue :=
  ((belonging path [] statements).filterMap (assigned? name)).getLast?

end Statement

/-- The flags and the attributes of one scope. -/
structure Contents where
  flags : List FlagDeclaration
  attributes : KeyedList AttributeEntry

namespace Contents

/-- What a statement of the scope adds. -/
def add (contents : Contents) : Statement → Contents
  | .flag flag => { contents with flags := contents.flags ++ [flag] }
  | .assignment name entry =>
    { contents with attributes := KeyedList.assign contents.attributes name entry }
  | _ => contents

def value? (contents : Contents) (name : Text) : Option AttributeValue :=
  (KeyedList.get? contents.attributes name).map (·.value)

variable (contents : Contents) (name : Text)

theorem flags_add (statement : Statement) :
    (contents.add statement).flags = contents.flags ++ statement.flag?.toList := by
  cases statement with
  | flag flag => rfl
  | _ => exact (List.append_nil _).symm

theorem value?_add (statement : Statement) :
    (contents.add statement).value? name = (statement.assigned? name).or (contents.value? name) := by
  cases statement with
  | assignment other entry =>
    rw [value?, add, KeyedList.get?_assign, Statement.assigned?]
    split <;> rfl
  | _ => rfl

theorem flags_foldl (statements : List Statement) : (statements.foldl add contents).flags =
    contents.flags ++ statements.filterMap Statement.flag? := by
  induction statements generalizing contents with
  | nil => exact (List.append_nil _).symm
  | cons statement statements ih =>
    rw [List.foldl_cons, ih, flags_add, List.append_assoc, List.filterMap_cons]
    cases statement.flag? <;> rfl

/-- Among the statements of a scope the last assignment counts. -/
theorem value?_foldl (statements : List Statement) : (statements.foldl add contents).value? name =
    (statements.filterMap (Statement.assigned? name)).getLast?.or (contents.value? name) := by
  induction statements generalizing contents with
  | nil => rfl
  | cons statement statements ih =>
    rw [List.foldl_cons, ih, value?_add, List.filterMap_cons]
    cases statement.assigned? name with
    | none => rfl
    | some value =>
      rw [List.getLast?_cons]
      cases (statements.filterMap (Statement.assigned? name)).getLast? <;> rfl

end Contents

def Entry.contents (e : Entry) : Contents := ⟨e.flags, e.attributes⟩

/-- What an outline holds for a path; for the empty path, what is global. -/
def Outline.contents (outline : Outline) (path : List Text) : Contents :=
  if path = [] then ⟨outline.globalFlags, outline.globalAttributes⟩
  else ((outline.entries.find? (·.path = path)).map Entry.contents).getD ⟨[], []⟩

theorem exists_first_entry {entries : List Entry} {path : List Text}
    (h : path ∈ entries.map (·.path)) :
    ∃ e, entries.find? (·.path = path) = some e ∧ e ∈ entries ∧ e.path = path := by
  obtain ⟨e, he, hp⟩ := List.mem_map.mp h
  have some : (entries.find? (·.path = path)).isSome :=
    List.find?_isSome.mpr ⟨e, he, decide_eq_true hp⟩
  obtain ⟨first, found⟩ := Option.isSome_iff_exists.mp some
  have hp := List.find?_some found
  exact ⟨first, found, List.mem_of_find?_eq_some found, of_decide_eq_true hp⟩

namespace Sketch

variable {sketch : Sketch} {path : List Text} {new : Entry → Entry}

theorem find?_change (kept : ∀ e, (new e).path = e.path) :
    (sketch.change new).entries.find? (·.path = path) =
      (sketch.entries.find? (·.path = path)).map fun e => if path = sketch.scope then new e else e := by
  have same : ((fun e : Entry => decide (e.path = path)) ∘
      fun e => if e.path = sketch.scope then new e else e) = fun e => decide (e.path = path) := by
    funext e
    simp only [Function.comp_apply]
    split
    · rw [kept]
    · rfl
  rw [change, List.find?_map, same]
  refine Option.map_congr fun e he => ?_
  have hp := List.find?_some he
  rw [of_decide_eq_true hp]

/-- A change that leaves flags and attributes alone. -/
theorem contents_change_of_kept (kept : ∀ e, (new e).path = e.path)
    (same : ∀ e, (new e).contents = e.contents) :
    (sketch.change new).contents path = sketch.contents path := by
  have entry : Entry.contents ∘ (fun e => if path = sketch.scope then new e else e) =
      Entry.contents := by
    funext e
    simp only [Function.comp_apply]
    split
    · exact same e
    · rfl
  rw [Outline.contents, Outline.contents, find?_change kept, Option.map_map, entry]
  rfl

/-- Changing the selected entry changes the contents of its path and of no other. -/
theorem contents_change (statement : Statement) (kept : ∀ e, (new e).path = e.path)
    (adds : ∀ e, (new e).contents = e.contents.add statement)
    (placed : sketch.scope ∈ sketch.entries.map (·.path)) (inside : sketch.scope ≠ []) :
    (sketch.change new).contents path =
      if sketch.scope = path then (sketch.contents path).add statement else sketch.contents path := by
  by_cases here : sketch.scope = path
  · subst here
    obtain ⟨e, found, _⟩ := exists_first_entry placed
    rw [if_pos rfl, Outline.contents, Outline.contents, if_neg inside, if_neg inside,
      find?_change kept, found, Option.map_some, if_pos rfl]
    exact adds e
  · have others : (fun e => if path = sketch.scope then new e else e) = id :=
      funext fun e => if_neg (Ne.symm here)
    rw [if_neg here, Outline.contents, Outline.contents, find?_change kept, others, Option.map_id]
    rfl

/-- Entering a path declares neither flags nor attributes. -/
theorem contents_command (entered : List Text) (description : Option Text) (line : Int) :
    (sketch.apply (.command entered description line)).contents path = sketch.contents path := by
  have bare : (sketch.apply (.command entered none line)).contents path = sketch.contents path := by
    simp only [apply, Outline.contents, List.find?_append, List.find?_map]
    cases sketch.entries.find? (·.path = path) with
    | some e => rfl
    | none =>
      cases (missing sketch.entries entered).find? ((·.path = path) ∘ bareEntry line) <;> rfl
  cases description with
  | none => exact bare
  | some text =>
    rw [← bare]
    exact contents_change_of_kept (fun _ => rfl) fun _ => rfl

/-- A statement adds to the contents of the path to which it belongs and of no other. -/
theorem contents_apply (placed : sketch.scope ≠ [] → sketch.scope ∈ sketch.entries.map (·.path))
    (statement : Statement) : (sketch.apply statement).contents path =
      if statement.select sketch.scope = path then (sketch.contents path).add statement
      else sketch.contents path := by
  cases statement with
  | command entered description line =>
    rw [contents_command]
    exact (ite_self _).symm
  | flag flag =>
    simp only [apply, Statement.select]
    split
    · next global =>
      rw [global]
      by_cases here : path = [] <;> simp [Outline.contents, here, eq_comm, Contents.add]
    · next inside =>
      exact contents_change (.flag flag) (fun _ => rfl) (fun _ => rfl) (placed inside) inside
  | assignment name entry =>
    simp only [apply, Statement.select]
    split
    · next global =>
      rw [global]
      by_cases here : path = [] <;> simp [Outline.contents, here, eq_comm, Contents.add]
    · next inside =>
      exact contents_change (.assignment name entry) (fun _ => rfl) (fun _ => rfl) (placed inside)
        inside
  | argument argument =>
    rw [show (sketch.contents path).add (.argument argument) = sketch.contents path from rfl, ite_self]
    exact contents_change_of_kept (fun _ => rfl) fun _ => rfl
  | exampleLine text =>
    rw [show (sketch.contents path).add (.exampleLine text) = sketch.contents path from rfl, ite_self]
    exact contents_change_of_kept (fun _ => rfl) fun _ => rfl
  | topicBody text =>
    simp only [apply]
    split <;> exact (ite_self _).symm
  | _ => exact (ite_self _).symm

end Sketch

namespace Draft

open DeclarationTree

variable {draft : Draft}

theorem scope_mem_paths (h : draft.IsSound) (inside : draft.sketch.scope ≠ []) :
    draft.sketch.scope ∈ draft.sketch.entries.map (·.path) := by
  cases hc : draft.command with
  | none => exact absurd ((scope_eq_nil_iff h).mpr hc) inside
  | some id =>
    refine (mem_paths h.forest).mpr ⟨id, h.selected id hc, ?_⟩
    simp [sketch, pathOf, hc]

theorem scope_apply (h : draft.IsSound) (statement : Statement) :
    (draft.apply statement).sketch.scope = statement.select draft.sketch.scope := by
  rw [sketch_apply h]
  cases statement with
  | command path description line => cases description <;> rfl
  | flag flag => simp only [Sketch.apply]; split <;> rfl
  | assignment name entry => simp only [Sketch.apply]; split <;> rfl
  | topicBody text => simp only [Sketch.apply]; split <;> rfl
  | _ => rfl

/-- A run of statements adds to each path what belongs to it. -/
theorem contents_foldl (h : draft.IsSound) (statements : List Statement) (path : List Text) :
    (statements.foldl apply draft).sketch.contents path =
      (Statement.belonging path draft.sketch.scope statements).foldl Contents.add
        (draft.sketch.contents path) := by
  induction statements generalizing draft with
  | nil => rfl
  | cons statement statements ih =>
    rw [List.foldl_cons, ih (isSound_apply h statement), scope_apply h, sketch_apply h,
      Sketch.contents_apply (scope_mem_paths h), Statement.belonging]
    split <;> rfl

end Draft

namespace DeclarationTree

variable {source : Text} {tree : DeclarationTree} {statements : List Statement} {path : List Text}

theorem exists_written_of_parse (h : parse source = .ok tree) :
    ∃ statements, Written .empty (scan source).dropLast statements := by
  obtain ⟨statements, reads, _⟩ := parse_eq_ok_iff.mp h
  exact ⟨statements, (reads_scan_iff.mp reads).2⟩

theorem eq_foldl_of_parse (h : parse source = .ok tree)
    (written : Written .empty (scan source).dropLast statements) :
    (statements.foldl Draft.apply .empty).tree = tree := by
  obtain ⟨_, read, _⟩ := parse_eq_ok_iff.mp h
  have reads := reads_scan_iff.mpr ⟨(reads_scan_iff.mp read).1, written⟩
  exact Except.ok.inj ((parse_eq_ok_iff.mpr ⟨statements, reads, rfl⟩).symm.trans h)

theorem contents_outline (h : parse source = .ok tree)
    (written : Written .empty (scan source).dropLast statements) :
    tree.outline.contents path =
      (Statement.belonging path [] statements).foldl Contents.add ⟨[], []⟩ := by
  have run := Draft.contents_foldl Draft.isSound_empty statements path
  have nothing : Draft.empty.sketch.contents path = ⟨[], []⟩ := by
    unfold Outline.contents
    split <;> rfl
  rw [nothing] at run
  rw [← eq_foldl_of_parse h written]
  exact run

theorem contents_of_command (forest : tree.IsForest) {i : Nat} {c : CommandDeclaration}
    (hc : tree.commands[i]? = some c) :
    tree.outline.contents (tree.segments i) = ⟨c.flags, c.attributes⟩ := by
  have hi := lt_length_of_getElem? hc
  obtain ⟨e, found, he, hp⟩ := exists_first_entry ((mem_paths forest).mpr ⟨i, hi, rfl⟩)
  obtain ⟨j, hj⟩ := List.getElem?_of_mem he
  rw [getElem?_entries forest] at hj
  obtain ⟨d, hd, rfl⟩ := Option.map_eq_some_iff.mp hj
  obtain rfl := eq_of_segments_eq forest (lt_length_of_getElem? hd) hi hp
  rw [hc] at hd
  cases hd
  rw [Outline.contents, if_neg (segments_ne_nil forest hi)]
  change ((tree.entries.find? _).map _).getD _ = _
  rw [found]
  rfl

/-- The flags of a scope are those that its statements declare, in their order. -/
theorem flags_contents (h : parse source = .ok tree)
    (written : Written .empty (scan source).dropLast statements) :
    (tree.outline.contents path).flags = Statement.flagsOn path statements := by
  rw [contents_outline h written, Contents.flags_foldl]
  rfl

/-- The value of a name in a scope is the one that its statements assign last. -/
theorem value?_contents (h : parse source = .ok tree)
    (written : Written .empty (scan source).dropLast statements) (name : Text) :
    (tree.outline.contents path).value? name = Statement.lastAssigned path name statements := by
  rw [contents_outline h written, Contents.value?_foldl]
  exact Option.or_none

end DeclarationTree

end CommandLanguage

import CommandLanguage.Proofs.CommandTree.Paths
import CommandLanguage.Proofs.CommandTree.Verdict

/-!
# What differs within a compiled tree

An identifier and an attribute name are taken in only where they are new, so no two commands of a
compiled tree have one identifier and no two rows of the table of attributes have one name. The
commands that can be called are listed once each, in the order of their paths.
-/

set_option autoImplicit false

namespace CommandLanguage

namespace CommandTree

section Checks
variable {declared : DeclarationTree} {globalFlags : List Flag} {taken : KeyedList Text}
variable {declarations : List CommandDeclaration} {commands : List Command}

theorem nodup_identifiers_of_checkCommands
    (h : checkCommands declared globalFlags taken declarations = .ok commands)
    (free : (KeyedList.names taken).Nodup) :
    (KeyedList.names taken ++ commands.map Command.identifier).Nodup := by
  -- Identifiers are taken one behind the other, so what is taken and what is still to come stay apart.
  induction declarations generalizing taken commands with
  | nil =>
    cases h
    simpa using free
  | cons d declarations ih =>
    obtain ⟨flags, _, h⟩ := Statement.exists_of_bind_eq_ok h
    dsimp only at h
    split at h
    · cases h
    · next hnone =>
      obtain ⟨others, ho, h⟩ := Statement.exists_of_bind_eq_ok h
      cases h
      have fresh : Text.pathIdentifier (declared.segments d.id) ∉ KeyedList.names taken := by
        intro hm
        obtain ⟨path, hpath⟩ := KeyedList.exists_get?_of_mem_names hm
        rw [hpath] at hnone
        cases hnone
      have grown := ih ho (KeyedList.nodup_names_assign free _ _)
      rw [KeyedList.names_assign_of_not_mem _ fresh, List.append_assoc] at grown
      exact grown

theorem nodup_names_of_noteKinds {kinds noted : KeyedList AttributeKind}
    {entries : KeyedList AttributeEntry} (h : noteKinds kinds entries = .ok noted)
    (free : (KeyedList.names kinds).Nodup) : (KeyedList.names noted).Nodup := by
  induction entries generalizing kinds with
  | nil =>
    cases h
    exact free
  | cons entry entries ih =>
    rw [noteKinds] at h
    split at h
    · cases h
    · exact ih h (KeyedList.nodup_names_assign free _ _)

theorem nodup_names_of_collectKinds {table : List AttributeDefinition}
    (h : collectKinds declared = .ok table) : (table.map (·.name)).Nodup := by
  obtain ⟨noted, hn, h⟩ := Statement.exists_of_bind_eq_ok h
  cases h
  rw [foldlM_noteKinds] at hn
  have nodup := nodup_names_of_noteKinds hn List.nodup_nil
  refine ((List.mergeSort_perm _ _).map _).nodup_iff.mpr ?_
  rw [List.map_map]
  exact nodup

end Checks

section Compiled
variable {source : Text} {tree : CommandTree}

theorem nodup_identifiers_of_compile (h : compile source = .ok tree) :
    (tree.commands.map Command.identifier).Nodup := by
  obtain ⟨_, _, made⟩ := madeOf_of_compile h
  exact nodup_identifiers_of_checkCommands made.commands List.nodup_nil

theorem nodup_attributeTable_of_compile (h : compile source = .ok tree) :
    (tree.attributeTable.map (·.name)).Nodup := by
  obtain ⟨_, _, made⟩ := madeOf_of_compile h
  exact nodup_names_of_collectKinds made.kinds

end Compiled

variable {tree : CommandTree}

theorem exists_holds_of_mem {command : Command} (h : command ∈ tree.commands) :
    ∃ c : PlacedCommand, tree.Holds c ∧ c.toCommand = command := by
  obtain ⟨i, hi⟩ := List.getElem?_of_mem h
  exact ⟨⟨command, i⟩, hi, rfl⟩

namespace Consistent

variable (consistent : tree.Consistent)
include consistent

theorem nodup_commands : tree.commands.Nodup := by
  apply List.nodup_iff_getElem?_ne_getElem?.mpr
  intro i j hij hj same
  have hi : tree.commands[i]? = some tree.commands[j] := same.trans (List.getElem?_eq_getElem hj)
  have first : tree.Holds ⟨tree.commands[j], i⟩ := hi
  have second : tree.Holds ⟨tree.commands[j], j⟩ := List.getElem?_eq_getElem hj
  have one := consistent.forest.id_eq first.node
  have two := consistent.forest.id_eq second.node
  exact Nat.ne_of_lt hij (one.symm.trans two)

theorem map_commandsAt_ids {commands : List Command} (h : ∀ c ∈ commands, c ∈ tree.commands) :
    (tree.commandsAt (commands.map (·.id))).map (·.toCommand) = commands := by
  induction commands with
  | nil => rfl
  | cons command commands ih =>
    obtain ⟨hm, hrest⟩ := List.forall_mem_cons.mp h
    obtain ⟨c, held, rfl⟩ := exists_holds_of_mem hm
    have hid : c.id = c.position := consistent.forest.id_eq held.node
    rw [commandsAt, List.map_cons, List.filterMap_cons, hid, held]
    exact congrArg (c.toCommand :: ·) (ih hrest)

theorem getElem?_id {command : Command} (h : command ∈ tree.commands) :
    tree.commands[command.id]? = some command := by
  obtain ⟨c, held, rfl⟩ := exists_holds_of_mem h
  have hid : c.id = c.position := consistent.forest.id_eq held.node
  rw [hid]
  exact held

theorem mem_leaves_iff {id : Nat} :
    id ∈ tree.leaves ↔ ∃ c, tree.commands[id]? = some c ∧ c.children = [] := by
  rw [leaves, List.mem_map]
  constructor
  · rintro ⟨c, hc, rfl⟩
    obtain ⟨hm, leaf⟩ := List.mem_filter.mp (List.mem_mergeSort.mp hc)
    exact ⟨c, consistent.getElem?_id hm, List.isEmpty_iff.mp leaf⟩
  · rintro ⟨c, hc, leaf⟩
    have held : tree.Holds ⟨c, id⟩ := hc
    refine ⟨c, List.mem_mergeSort.mpr (List.mem_filter.mpr ⟨held.mem, ?_⟩), ?_⟩
    · exact List.isEmpty_iff.mpr leaf
    · exact consistent.forest.id_eq held.node

theorem leafCommands_eq :
    tree.leafCommands = sortByPath Command.path (tree.commands.filter (·.isLeaf)) := by
  apply consistent.map_commandsAt_ids
  intro c hc
  exact (List.mem_filter.mp (List.mem_mergeSort.mp hc)).1

theorem perm_leafCommands : tree.leafCommands.Perm (tree.commands.filter (·.isLeaf)) := by
  rw [consistent.leafCommands_eq]
  exact List.mergeSort_perm _ _

theorem exists_holds_of_mem_leafCommands {command : Command} (h : command ∈ tree.leafCommands) :
    ∃ c : PlacedCommand, tree.Holds c ∧ c.toCommand = command :=
  exists_holds_of_mem (List.mem_filter.mp (consistent.perm_leafCommands.mem_iff.mp h)).1

/-- The commands that can be called stand in the strict order of their paths. -/
theorem pairwise_leafCommands : (tree.leafCommands.map Command.path).Pairwise (· < ·) := by
  rw [consistent.leafCommands_eq]
  apply pairwise_sortByPath (consistent.nodup_commands.filter _)
  intro a ha b hb same
  obtain ⟨c, hc, rfl⟩ := exists_holds_of_mem (List.mem_filter.mp ha).1
  obtain ⟨d, hd, rfl⟩ := exists_holds_of_mem (List.mem_filter.mp hb).1
  rw [consistent.eq_of_path_eq hc hd same]

theorem nodup_leafPaths : (tree.leafCommands.map Command.path).Nodup :=
  consistent.pairwise_leafCommands.imp Std.ne_of_lt

end Consistent

theorem nodup_leafIdentifiers_of_compile {source : Text} (h : compile source = .ok tree) :
    (tree.leafCommands.map Command.identifier).Nodup := by
  have perm := (consistent_of_compile h).perm_leafCommands.map Command.identifier
  have part := (List.filter_sublist (l := tree.commands) (p := (·.isLeaf))).map Command.identifier
  exact perm.nodup_iff.mpr (part.nodup (nodup_identifiers_of_compile h))

end CommandTree

end CommandLanguage

import CommandLanguage.Proofs.CommandTree.Consistent

/-!
# Commands in their places

A tree holds a command at its position. The siblings that a call chooses from are the commands of
one parent, and every command stands at the end of the line of its ancestors.
-/

set_option autoImplicit false

namespace CommandLanguage

namespace CommandTree

/-- The command stands in the tree at its position. -/
def Holds (tree : CommandTree) (c : PlacedCommand) : Prop :=
  tree.commands[c.position]? = some c.toCommand

/-- The commands directly below a parent; without a parent, those at the top. -/
def level (tree : CommandTree) (parent : Option Nat) : List PlacedCommand :=
  tree.commandsAt (Node.level tree.nodes tree.roots parent)

/-- A command with its ancestors, from the top down. -/
inductive Line (tree : CommandTree) : PlacedCommand → List PlacedCommand → Prop where
  | top {c : PlacedCommand} (held : tree.Holds c) (root : c.parent = none) : Line tree c [c]
  | down {c p : PlacedCommand} {line : List PlacedCommand} (held : tree.Holds c)
      (parent : c.parent = some p.position) (above : Line tree p line) : Line tree c (line ++ [c])

variable {tree : CommandTree} {c d : PlacedCommand} {line : List PlacedCommand}

theorem Holds.node (held : tree.Holds c) : tree.nodes[c.position]? = some c.node :=
  getElem?_nodes.mpr ⟨_, held, rfl⟩

theorem Holds.mem (held : tree.Holds c) : c.toCommand ∈ tree.commands :=
  List.mem_of_getElem? held

theorem Holds.eq_of_position_eq (hc : tree.Holds c) (hd : tree.Holds d)
    (h : c.position = d.position) : c = d := by
  obtain ⟨c, i⟩ := c
  obtain ⟨d, j⟩ := d
  obtain rfl : i = j := h
  rw [Holds, hc] at hd
  cases hd
  rfl

theorem exists_holds {i : Nat} {node : Node} (h : tree.nodes[i]? = some node) :
    ∃ c : PlacedCommand, tree.Holds c ∧ c.position = i ∧ c.node = node := by
  obtain ⟨c, hc, hn⟩ := getElem?_nodes.mp h
  exact ⟨⟨c, i⟩, hc, rfl, hn⟩

theorem mem_commandsAt {positions : List Nat} :
    c ∈ tree.commandsAt positions ↔ c.position ∈ positions ∧ tree.Holds c := by
  rw [commandsAt, List.mem_filterMap]
  constructor
  · rintro ⟨i, hi, hc⟩
    obtain ⟨command, hcommand, rfl⟩ := Option.map_eq_some_iff.mp hc
    exact ⟨hi, hcommand⟩
  · rintro ⟨hi, held⟩
    exact ⟨c.position, hi, Option.map_eq_some_iff.mpr ⟨_, held, rfl⟩⟩

theorem nodup_commandsAt {positions : List Nat} (h : positions.Nodup) :
    (tree.commandsAt positions).Nodup := by
  refine h.filterMap ?_
  intro i j c hi hj
  obtain ⟨_, _, rfl⟩ := Option.map_eq_some_iff.mp (Option.mem_def.mp hi)
  obtain ⟨_, _, h⟩ := Option.map_eq_some_iff.mp (Option.mem_def.mp hj)
  exact (congrArg PlacedCommand.position h).symm

theorem top_eq_level : tree.top = tree.level none := rfl

theorem Holds.below_eq_level (held : tree.Holds c) :
    tree.below c.toCommand = tree.level (some c.position) := by
  rw [level, Node.level, held.node]
  rfl

theorem Line.holds (h : tree.Line c line) : tree.Holds c := by
  cases h with
  | top held _ => exact held
  | down held _ _ => exact held

theorem Line.forall_holds (h : tree.Line c line) : ∀ d ∈ line, tree.Holds d := by
  induction h with
  | top held _ => exact List.forall_mem_singleton.mpr held
  | down held _ _ ih =>
    exact List.forall_mem_append.mpr ⟨ih, List.forall_mem_singleton.mpr held⟩

theorem Line.exists_root (h : tree.Line c line) :
    ∃ root rest, line = root :: rest ∧ tree.Holds root ∧ root.parent = none := by
  induction h with
  | @top c held root => exact ⟨c, [], rfl, held, root⟩
  | @down c _ _ _ _ _ ih =>
    obtain ⟨root, rest, rfl, held, hroot⟩ := ih
    exact ⟨root, rest ++ [c], rfl, held, hroot⟩

theorem Line.climbs (h : tree.Line c line) :
    Node.Climbs tree.nodes c.position (line.map (·.name)) := by
  induction h with
  | top held root => exact .top held.node root
  | down held parent _ ih =>
    rw [List.map_append]
    exact .step held.node parent ih

namespace Consistent

variable (consistent : tree.Consistent)
include consistent

theorem mem_level {parent : Option Nat} :
    c ∈ tree.level parent ↔ tree.Holds c ∧ c.parent = parent := by
  rw [level, mem_commandsAt, consistent.forest.mem_level]
  constructor
  · rintro ⟨⟨node, hn, hp⟩, held⟩
    rw [held.node] at hn
    cases hn
    exact ⟨held, hp⟩
  · rintro ⟨held, hp⟩
    exact ⟨⟨c.node, held.node, hp⟩, held⟩

theorem nodup_level (parent : Option Nat) : (tree.level parent).Nodup :=
  nodup_commandsAt (consistent.forest.nodup_level parent)

theorem eq_of_name_eq (hc : tree.Holds c) (hd : tree.Holds d) (hp : c.parent = d.parent)
    (hn : c.name = d.name) : c = d :=
  hc.eq_of_position_eq hd (consistent.forest.eq_of_name_eq hc.node hd.node hp hn)

theorem name_ne_nil (held : tree.Holds c) : c.name ≠ [] :=
  (consistent.named _ held.mem).ne_nil

theorem names_of_line (h : tree.Line c line) : line.map (·.name) = c.segments :=
  h.climbs.unique (consistent.climbs _ _ h.holds)

theorem segments_of_root (held : tree.Holds c) (root : c.parent = none) : c.segments = [c.name] :=
  (consistent.climbs _ _ held).unique (.top held.node root)

theorem segments_of_child (held : tree.Holds c) (above : tree.Holds d)
    (parent : c.parent = some d.position) : c.segments = d.segments ++ [c.name] :=
  (consistent.climbs _ _ held).unique (.step held.node parent (consistent.climbs _ _ above))

theorem length_of_line (h : tree.Line c line) : line.length = c.segments.length := by
  rw [← consistent.names_of_line h, List.length_map]

theorem exists_line (held : tree.Holds c) : ∃ above, tree.Line c (above ++ [c]) := by
  induction hi : c.position using Nat.strongRecOn generalizing c with
  | ind i ih =>
    cases hp : c.parent with
    | none => exact ⟨[], .top held hp⟩
    | some p =>
      have child : Node.IsChild tree.nodes c.position p := ⟨_, held.node, hp⟩
      have hlt := consistent.forest.parent_lt child
      have hnode := List.getElem?_eq_getElem (Nat.lt_trans hlt child.lt_length)
      obtain ⟨parent, hheld, rfl, _⟩ := exists_holds hnode
      obtain ⟨above, hline⟩ := ih _ (hi ▸ hlt) hheld rfl
      exact ⟨_, .down held hp hline⟩

theorem getLast?_segments (held : tree.Holds c) : c.segments.getLast? = some c.name := by
  obtain ⟨above, hline⟩ := consistent.exists_line held
  rw [← consistent.names_of_line hline, List.map_append]
  exact List.getLast?_concat

end Consistent

end CommandTree

end CommandLanguage

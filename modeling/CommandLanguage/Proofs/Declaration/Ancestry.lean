import CommandLanguage.Proofs.Declaration.Forest
import Mathlib.Data.List.Perm.Basic

/-!
# Climbing and walking over the commands of a source

`DeclarationTree.segments` climbs from a command to the top, and `DeclarationTree.walk` goes down
from the top, both with a bound on the number of levels. In a forest the bound is never reached:
the two agree with climbing and visiting without a bound.
-/

set_option autoImplicit false

namespace CommandLanguage

namespace DeclarationTree

variable {tree : DeclarationTree}

theorem climbs_climb (h : tree.IsForest) {steps i : Nat} (bound : i < steps)
    (hi : i < tree.commands.length) : Node.Climbs tree.nodes i (climb tree.commands steps i) := by
  induction steps generalizing i with
  | zero => exact absurd bound (Nat.not_lt_zero i)
  | succ steps ih =>
    have hc := List.getElem?_eq_getElem hi
    have hn : tree.nodes[i]? = some tree.commands[i].node := getElem?_nodes.mpr ⟨_, hc, rfl⟩
    simp only [climb, hc]
    split
    · next hp => exact .top hn hp
    · next p hp =>
      have hlt : p < i := h.parent_lt ⟨_, hn, hp⟩
      exact .step hn hp (ih (by omega) (by omega))

theorem climbs_segments (h : tree.IsForest) {i : Nat} (hi : i < tree.commands.length) :
    Node.Climbs tree.nodes i (tree.segments i) :=
  climbs_climb h hi hi

theorem eq_of_segments_eq (h : tree.IsForest) {i j : Nat} (hi : i < tree.commands.length)
    (hj : j < tree.commands.length) (he : tree.segments i = tree.segments j) : i = j :=
  h.eq_of_climbs (climbs_segments h hi) (climbs_segments h hj) he

/-- Each level of the walk gives back one level of the bound, since children stand behind their
parents. -/
theorem visits_walkFrom (h : tree.IsForest) {depth : Nat} {ids : List Nat}
    (placed : ∀ i ∈ ids, i < tree.commands.length)
    (bound : ∀ i ∈ ids, tree.commands.length ≤ i + depth) :
    Node.Visits tree.nodes ids ((walkFrom tree.commands depth ids).map (·.id)) := by
  induction depth generalizing ids with
  | zero =>
    cases ids with
    | nil => exact .nil
    | cons i ids =>
      have hi := placed i List.mem_cons_self
      have hb := bound i List.mem_cons_self
      omega
  | succ depth ih =>
    induction ids with
    | nil => exact .nil
    | cons i ids others =>
      have hi := placed i List.mem_cons_self
      have hb := bound i List.mem_cons_self
      have hc := List.getElem?_eq_getElem hi
      have hn : tree.nodes[i]? = some tree.commands[i].node := getElem?_nodes.mpr ⟨_, hc, rfl⟩
      have below : ∀ j ∈ tree.commands[i].children, i < j ∧ j < tree.commands.length := by
        intro j hj
        have hji := (h.mem_children hn).mp hj
        exact ⟨h.parent_lt hji, length_nodes ▸ hji.lt_length⟩
      have inner : Node.Visits tree.nodes tree.commands[i].children _ :=
        ih (fun j hj => (below j hj).2) fun j hj => by
          have := (below j hj).1
          omega
      have outer := others (fun j hj => placed j (List.mem_cons_of_mem i hj))
        fun j hj => bound j (List.mem_cons_of_mem i hj)
      have hid : tree.commands[i].id = i := h.id_eq hn
      have visited := Node.Visits.cons hn inner outer
      simpa [walkFrom, hc, hid] using visited

theorem visits_walk (h : tree.IsForest) :
    Node.Visits tree.nodes tree.roots (tree.walk.map (·.id)) := by
  apply visits_walkFrom h
  · intro i hi
    obtain ⟨node, hn, _⟩ := h.mem_roots.mp hi
    exact length_nodes ▸ (List.getElem?_eq_some_iff.mp hn).1
  · intro i _
    exact Nat.le_add_left _ _

theorem mem_walkFrom {depth : Nat} {ids : List Nat} {c : CommandDeclaration}
    (hc : c ∈ walkFrom tree.commands depth ids) : c ∈ tree.commands := by
  induction depth generalizing ids with
  | zero => cases hc
  | succ depth ih =>
    obtain ⟨i, _, hi⟩ := List.mem_flatMap.mp hc
    split at hi
    · cases hi
    · next d hd =>
      rcases List.mem_cons.mp hi with rfl | hi
      · exact List.mem_of_getElem? hd
      · exact ih hi

theorem exists_node_iff {parent : Option Nat} {i : Nat} :
    (∃ node, tree.nodes[i]? = some node ∧ node.parent = parent) ↔
      ∃ c, tree.commands[i]? = some c ∧ c.parent = parent := by
  simp only [getElem?_nodes]
  constructor
  · rintro ⟨_, ⟨c, hc, rfl⟩, hp⟩
    exact ⟨c, hc, hp⟩
  · rintro ⟨c, hc, hp⟩
    exact ⟨c.node, ⟨c, hc, rfl⟩, hp⟩

/-- Commands are numbered by position, parents come first, the lists of roots and of children are
exact and ascending, and siblings have different names. -/
structure Arranged (tree : DeclarationTree) : Prop where
  id_eq : ∀ (i : Nat) (c : CommandDeclaration), tree.commands[i]? = some c → c.id = i
  parent_lt : ∀ (i p : Nat) (c : CommandDeclaration), tree.commands[i]? = some c →
    c.parent = some p → p < i
  roots_ascending : tree.roots.Pairwise (· < ·)
  mem_roots : ∀ i : Nat, i ∈ tree.roots ↔ ∃ c, tree.commands[i]? = some c ∧ c.parent = none
  children_ascending : ∀ (p : Nat) (above : CommandDeclaration), tree.commands[p]? = some above →
    above.children.Pairwise (· < ·)
  mem_children : ∀ (p : Nat) (above : CommandDeclaration), tree.commands[p]? = some above →
    ∀ i : Nat, i ∈ above.children ↔ ∃ c, tree.commands[i]? = some c ∧ c.parent = some p
  siblings_differ : ∀ (i j : Nat) (a b : CommandDeclaration), tree.commands[i]? = some a →
    tree.commands[j]? = some b → a.parent = b.parent → a.name = b.name → i = j

theorem IsForest.arranged (h : tree.IsForest) : Arranged tree := by
  have node {i : Nat} {c : CommandDeclaration} (hc : tree.commands[i]? = some c) :
      tree.nodes[i]? = some c.node := getElem?_nodes.mpr ⟨c, hc, rfl⟩
  constructor
  · intro i c hc
    exact h.id_eq (node hc)
  · intro i p c hc hp
    exact h.parent_lt ⟨_, node hc, hp⟩
  · exact h.ascending none
  · intro i
    rw [h.mem_roots, exists_node_iff]
  · intro p above hp
    simpa [Node.level, node hp, CommandDeclaration.node] using h.ascending (some p)
  · intro p above hp i
    exact (h.mem_children (node hp)).trans exists_node_iff
  · intro i j a b ha hb hp hn
    exact h.eq_of_name_eq (node ha) (node hb) hp hn

theorem Arranged.isForest (h : Arranged tree) : tree.IsForest := by
  constructor
  · intro i node hn
    obtain ⟨c, hc, rfl⟩ := getElem?_nodes.mp hn
    exact h.id_eq i c hc
  · rintro i p ⟨node, hn, hp⟩
    obtain ⟨c, hc, rfl⟩ := getElem?_nodes.mp hn
    exact h.parent_lt i p c hc hp
  · intro parent i
    rw [exists_node_iff]
    cases parent with
    | none => exact h.mem_roots i
    | some p =>
      cases hc : tree.commands[p]? with
      | none =>
        have outside := List.getElem?_eq_none_iff.mp hc
        simp only [Node.level, nodes, List.getElem?_map, hc]
        refine iff_of_false List.not_mem_nil ?_
        rintro ⟨c, hi, hp⟩
        have := h.parent_lt i p c hi hp
        have := (List.getElem?_eq_some_iff.mp hi).1
        omega
      | some above =>
        simp only [Node.level, nodes, List.getElem?_map, hc]
        exact h.mem_children p above hc i
  · intro parent
    cases parent with
    | none => exact h.roots_ascending
    | some p =>
      simp only [Node.level, nodes, List.getElem?_map]
      cases hc : tree.commands[p]? with
      | none => exact List.Pairwise.nil
      | some above => exact h.children_ascending p above hc
  · intro i j a b ha hb hp hn
    obtain ⟨c, hc, rfl⟩ := getElem?_nodes.mp ha
    obtain ⟨d, hd, rfl⟩ := getElem?_nodes.mp hb
    exact h.siblings_differ i j c d hc hd hp hn

theorem mem_walk_iff (h : tree.IsForest) {c : CommandDeclaration} :
    c ∈ tree.walk ↔ c ∈ tree.commands := by
  refine ⟨mem_walkFrom, fun hc => ?_⟩
  have perm := h.visits_perm (visits_walk h)
  obtain ⟨i, hi⟩ := List.getElem?_of_mem hc
  have hlt : i < tree.nodes.length := length_nodes ▸ (List.getElem?_eq_some_iff.mp hi).1
  obtain ⟨d, hd, hid⟩ := List.mem_map.mp (perm.mem_iff.mpr (List.mem_range.mpr hlt))
  obtain ⟨j, hj⟩ := List.getElem?_of_mem (mem_walkFrom hd)
  have hij : j = i := (h.arranged.id_eq j d hj).symm.trans hid
  rw [hij, hi] at hj
  exact Option.some.inj hj ▸ hd

end DeclarationTree

open DeclarationTree

/-- The commands of every source that can be read are arranged as a forest. Climbing from a command
ends, at a path that no other command has. Walking down from the top ends, and visits each command
once and before all commands below it. -/
theorem parse_arranges_commands {source : Text} {tree : DeclarationTree}
    (h : parse source = .ok tree) :
    tree.Arranged ∧
    (∀ i, i < tree.commands.length → Node.Climbs tree.nodes i (tree.segments i)) ∧
    (∀ i j, i < tree.commands.length → j < tree.commands.length →
      tree.segments i = tree.segments j → i = j) ∧
    Node.Visits tree.nodes tree.roots (tree.walk.map (·.id)) ∧
    (∀ c ∈ tree.walk, tree.commands[c.id]? = some c) ∧
    (tree.walk.map (·.id)).Perm (List.range tree.commands.length) ∧
    ∀ i j, Node.IsBelow tree.nodes j i → [i, j].Sublist (tree.walk.map (·.id)) := by
  have f := isForest_of_parse h
  have visited := visits_walk f
  refine ⟨f.arranged, fun i hi => climbs_segments f hi, fun i j hi hj => eq_of_segments_eq f hi hj,
    visited, ?_, ?_, ?_⟩
  · intro c hc
    obtain ⟨i, hi⟩ := List.getElem?_of_mem (mem_walkFrom hc)
    rw [f.arranged.id_eq i c hi]
    exact hi
  · rw [← length_nodes]
    exact f.visits_perm visited
  · intro i j hj
    refine f.visits_in_order visited ?_ hj
    obtain ⟨k, hk, _⟩ := Relation.TransGen.head'_iff.mp hj
    have hi := Nat.lt_trans (f.lt_of_isBelow hj) hk.lt_length
    exact (f.visits_perm visited).mem_iff.mpr (List.mem_range.mpr hi)

/-- A path entered again after others and continued below a command that had none below it. -/
theorem reopened_path_arranged :
    ∃ tree, parse "cmd user add\ncmd list\nglobal cmd user add key\ncmd user" = .ok tree ∧
      tree.Arranged ∧ tree.segments 3 = ["user", "add", "key"] ∧
      (tree.walk.map (·.id)).Perm (List.range 4) := by
  have h : parse "cmd user add\ncmd list\nglobal cmd user add key\ncmd user" = .ok
      { empty with
        commands := [
          { bareCommand 0 none "user" 1 with children := [1] },
          { bareCommand 1 (some 0) "add" 1 with children := [3] },
          bareCommand 2 none "list" 2,
          bareCommand 3 (some 1) "key" 3]
        roots := [0, 2] } := by decide +kernel
  obtain ⟨arranged, _, _, _, _, once, _⟩ := parse_arranges_commands h
  exact ⟨_, h, arranged, by decide, once⟩

end CommandLanguage

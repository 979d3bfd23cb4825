import CommandLanguage.Proofs.CommandTree.Distinct
import CommandLanguage.Proofs.Declaration.Scopes
import Mathlib.Data.List.Permutation

/-!
# What resolving keeps and what it adds

Resolving keeps every command in its place with all that is declared for it. It adds the names that
lead to each command, and the paths and identifiers made of them tell the commands apart. Sorting
by path loses and repeats no command that can be called.
-/

set_option autoImplicit false

namespace CommandLanguage

/-- The command says what the declaration says. -/
structure CommandDeclaration.Resolves (declared : CommandDeclaration) (command : Command) : Prop where
  id : command.id = declared.id
  name : command.name = declared.name
  parent : command.parent = declared.parent
  children : command.children = declared.children
  description : command.description = declared.description
  flags : List.Forall₂ FlagDeclaration.Means declared.flags command.flags
  args : command.args = declared.args
  examples : command.examples = declared.examples
  attributes : command.attributes = KeyedList.mapValues (·.value) declared.attributes

namespace CommandTree

/-- The tree says what the declarations say, with the commands in the same places. -/
structure Keeps (tree : CommandTree) (declared : DeclarationTree) : Prop where
  app : tree.app = declared.app
  globalFlags : List.Forall₂ FlagDeclaration.Means declared.globalFlags tree.declaredFlags
  globalAttributes : tree.globalAttributes = KeyedList.mapValues (·.value) declared.globalAttributes
  commands : List.Forall₂ CommandDeclaration.Resolves declared.commands tree.commands
  roots : tree.roots = declared.roots
  topics : tree.topics = declared.topics

/-- The names that lead to a command are those of its parent and then its own. -/
def SegmentsGrow (tree : CommandTree) : Prop :=
  ∀ (i : Nat) (c : Command), tree.commands[i]? = some c →
    (c.parent = none → c.segments = [c.name]) ∧
    ∀ p, c.parent = some p →
      ∃ above, tree.commands[p]? = some above ∧ c.segments = above.segments ++ [c.name]

variable {tree : CommandTree} {declared : DeclarationTree}

theorem Becomes.resolves {globalFlags : List Flag} {d : CommandDeclaration} {c : Command}
    (h : Becomes declared globalFlags d c) : d.Resolves c := by
  obtain ⟨flags, hf, rfl⟩ := h
  exact ⟨rfl, rfl, rfl, rfl, rfl, means_of_checkFlags hf, rfl, rfl, rfl⟩

theorem MadeOf.keeps (made : tree.MadeOf declared) : tree.Keeps declared where
  app := made.app
  globalFlags := means_of_checkFlags made.flags
  globalAttributes := made.globalAttributes
  commands := (becomes_of_checkCommands made.commands).imp fun _ _ => Becomes.resolves
  roots := made.roots
  topics := made.topics

namespace Consistent

variable (consistent : tree.Consistent)
include consistent

theorem segmentsGrow : tree.SegmentsGrow := by
  intro i c hc
  have held : tree.Holds ⟨c, i⟩ := hc
  constructor
  · exact consistent.segments_of_root held
  · intro p hp
    have child : Node.IsChild tree.nodes i p := ⟨_, held.node, hp⟩
    have hlt := Nat.lt_trans (consistent.forest.parent_lt child) child.lt_length
    obtain ⟨above, habove, rfl, _⟩ := exists_holds (List.getElem?_eq_getElem hlt)
    exact ⟨above.toCommand, habove, consistent.segments_of_child held habove hp⟩

theorem nodup_paths : (tree.commands.map Command.path).Nodup := by
  refine (List.nodup_map_iff_inj_on consistent.nodup_commands).mpr ?_
  intro a ha b hb same
  obtain ⟨c, hc, rfl⟩ := exists_holds_of_mem ha
  obtain ⟨d, hd, rfl⟩ := exists_holds_of_mem hb
  rw [consistent.eq_of_path_eq hc hd same]

/-- The commands that can be called are listed in the strict order of their paths. -/
theorem pairwise_leaves : tree.leaves.Pairwise fun i j =>
    ∃ c d, tree.commands[i]? = some c ∧ tree.commands[j]? = some d ∧ c.path < d.path := by
  have sorted := consistent.pairwise_leafCommands
  rw [consistent.leafCommands_eq, List.pairwise_map] at sorted
  rw [leaves, List.pairwise_map]
  have member {c : Command} (hc : c ∈ sortByPath Command.path (tree.commands.filter (·.isLeaf))) :
      tree.commands[c.id]? = some c :=
    consistent.getElem?_id (List.mem_filter.mp (List.mem_mergeSort.mp hc)).1
  exact sorted.imp_of_mem fun hc hd hlt => ⟨_, _, member hc, member hd, hlt⟩

theorem nodup_leaves : tree.leaves.Nodup := by
  refine consistent.pairwise_leaves.imp ?_
  rintro i _ ⟨c, d, hc, hd, hlt⟩ rfl
  rw [hc] at hd
  cases hd
  exact Std.lt_irrefl hlt

end Consistent

end CommandTree

open CommandTree

/-- A compiled tree keeps the declarations of its source. The names that lead to a command grow from
its parent, the paths and the identifiers of commands differ, the commands without others below
them are listed once each in the order of paths, and the help flag comes before the global flags in
the order of the source. -/
theorem compile_enriches {source : Text} {tree : CommandTree} (h : compile source = .ok tree) :
    (∃ declared, parse source = .ok declared ∧ tree.Keeps declared) ∧
    tree.SegmentsGrow ∧
    (∀ c ∈ tree.commands, c.path = Text.join "/" c.segments) ∧
    (tree.commands.map Command.path).Nodup ∧
    (tree.commands.map Command.identifier).Nodup ∧
    tree.leaves.Nodup ∧
    (∀ id, id ∈ tree.leaves ↔ ∃ c, tree.commands[id]? = some c ∧ c.children = []) ∧
    (tree.leaves.Pairwise fun i j =>
      ∃ c d, tree.commands[i]? = some c ∧ tree.commands[j]? = some d ∧ c.path < d.path) ∧
    (∃ statements, Written .empty (scan source).dropLast statements) ∧
    ∀ statements, Written .empty (scan source).dropLast statements →
      ∃ flags, tree.globalFlags = Flag.help :: flags ∧
        List.Forall₂ FlagDeclaration.Means (Statement.flagsOn [] statements) flags := by
  have consistent := consistent_of_compile h
  obtain ⟨declared, hp, made⟩ := madeOf_of_compile h
  have keeps := made.keeps
  refine ⟨⟨declared, hp, keeps⟩, consistent.segmentsGrow, fun _ _ => rfl, consistent.nodup_paths,
    nodup_identifiers_of_compile h, consistent.nodup_leaves, fun _ => consistent.mem_leaves_iff,
    consistent.pairwise_leaves, DeclarationTree.exists_written_of_parse hp, ?_⟩
  intro statements written
  refine ⟨tree.declaredFlags, rfl, ?_⟩
  rw [← DeclarationTree.flags_contents hp written]
  exact keeps.globalFlags

/-- A global flag stands before the first command and another one behind the last. -/
def dashedSource : Text :=
  Text.unlines
    ["global flag verbose bool \"\" v", "cmd user add", "flag force bool \"\"", "cmd user-x",
      "global flag trace string \"\""]

/-- A dash comes before a slash, so a path with a slash is listed behind one that was declared later;
global flags are collected around the flags of a command. -/
theorem dash_listed_before_slash :
    ∃ tree, compile dashedSource = .ok tree ∧
      tree.leaves = [2, 1] ∧
      (tree.leaves.Pairwise fun i j =>
        ∃ c d, tree.commands[i]? = some c ∧ tree.commands[j]? = some d ∧ c.path < d.path) ∧
      tree.globalFlags = [Flag.help, ⟨"verbose", some ("v" : Text), .bool, []⟩,
        ⟨"trace", none, .string, []⟩] := by
  let tree : CommandTree :=
    { app := none
      declaredFlags := [⟨"verbose", some ("v" : Text), .bool, []⟩, ⟨"trace", none, .string, []⟩]
      globalAttributes := []
      commands := [
        { id := 0, name := "user", segments := ["user"], description := [], flags := [], args := []
          examples := [], attributes := [], children := [1], parent := none },
        { id := 1, name := "add", segments := ["user", "add"], description := []
          flags := [⟨"force", none, .bool, []⟩], args := [], examples := [], attributes := []
          children := [], parent := some 0 },
        { id := 2, name := "user-x", segments := ["user-x"], description := [], flags := []
          args := [], examples := [], attributes := [], children := [], parent := none }]
      roots := [0, 2]
      topics := []
      attributeTable := [] }
  have h : compile dashedSource = .ok tree := by decide +kernel
  obtain ⟨_, _, _, _, _, _, _, ascending, _, _⟩ := compile_enriches h
  exact ⟨tree, h, by cbv, ascending, rfl⟩

end CommandLanguage

import CommandLanguage.Proofs.Declaration.Ancestry
import CommandLanguage.Proofs.Help.Dressing
import Mathlib.Data.List.Forall2

/-!
# The list of all commands

Root help lists the commands on its way down the tree, as the declarations are walked: with a bound on
the number of levels that no path reaches. So the rows stand in the order of the walk, and each is
indented by the number of ancestors of its command. The descriptions begin at one column, behind the
longest of all labels.
-/

set_option autoImplicit false

namespace CommandLanguage

open Text CommandTree

namespace Help

/-- The line of a command in the list of all commands: its name behind two spaces and two for each of
its ancestors, and a description, if it has one, that begins at the column with two spaces or more in
front. -/
inductive IsLineOf (tree : CommandTree) (column : Nat) : PlacedCommand → Text → Prop where
  | bare {c : PlacedCommand} {above : List PlacedCommand} (ancestors : tree.Line c (above ++ [c]))
      (undescribed : c.description = []) :
      IsLineOf tree column c ("  " ++ spaces (2 * above.length) ++ c.name)
  | described {c : PlacedCommand} {above : List PlacedCommand} {gap : Nat}
      (ancestors : tree.Line c (above ++ [c])) (described : c.description ≠ []) (wide : 2 ≤ gap)
      (aligned : ("  " ++ spaces (2 * above.length) ++ c.name ++ spaces gap).length = column) :
      IsLineOf tree column c
        ("  " ++ spaces (2 * above.length) ++ c.name ++ spaces gap ++ c.description)

/-- What the root page says before it lists the commands. -/
def frontLines (tree : CommandTree) : List Text :=
  identityLines .plain tree.app
    ++ sectionLines .plain "Usage:" ["  " ++ tree.programName ++ " [flags] <command>"]
    ++ sectionLines .plain "Global Flags:" (table id id (flagRows tree.globalFlags))

/-- What the root page says behind the list of commands. -/
def backLines (tree : CommandTree) : List Text :=
  sectionLines .plain "Topics:" (table id id (tree.topics.map fun t => ⟨t.name, t.description⟩))
    ++ ["Run '" ++ tree.programName ++ " <command> --help' for more details."]

/-- The rows of the list of commands on the root page. -/
def commandLines (tree : CommandTree) : List Text := table id id (allCommandRows tree)

theorem rootPage_eq (tree : CommandTree) : rootPage tree .plain =
    unlines (frontLines tree ++ sectionLines .plain "Commands:" (commandLines tree) ++
      backLines tree) := by
  have nonempty : ("Run '" ++ tree.programName ++ " <command> --help' for more details." : Text) ≠
      [] := List.append_ne_nil_of_right_ne_nil _ (by decide)
  rw [rootPage, Dressing.page_concat nonempty, frontLines, backLines, commandLines]
  simp only [List.append_assoc]
  rfl

section Rows
variable {tree : CommandTree} {rows : List Row} {row : Row} {i : Nat}

theorem length_le_labelWidth (h : row ∈ rows) : row.label.length ≤ labelWidth rows := by
  have listed : row.label.length ∈ rows.map (·.label.length) := List.mem_map_of_mem h
  rw [labelWidth, List.foldl_max]
  exact Nat.le_trans (List.le_max?_getD_of_mem listed) (Nat.le_max_right _ _)

/-- The row shows the command at the position. -/
def Shows (tree : CommandTree) (i : Nat) (row : Row) : Prop :=
  ∃ (c : PlacedCommand) (above : List PlacedCommand), c.position = i ∧ tree.Line c (above ++ [c]) ∧
    row = ⟨spaces (2 * above.length) ++ c.name, c.description⟩

theorem isLineOf_line (h : Shows tree i row) {width : Nat} (fits : row.label.length ≤ width) :
    ∃ c, tree.commands[i]? = some c ∧ IsLineOf tree (width + 4) ⟨c, i⟩ (row.line width id id) := by
  obtain ⟨c, above, rfl, ancestors, rfl⟩ := h
  refine ⟨c.toCommand, ancestors.holds, ?_⟩
  dsimp only at fits
  have two : ("  " : Text).length = 2 := by decide
  unfold Row.line
  split
  · next undescribed =>
    simp only [id_eq, ← List.append_assoc]
    exact .bare ancestors undescribed
  · next described =>
    simp only [id_eq, ← List.append_assoc]
    refine .described ancestors described (Nat.le_add_left _ _) ?_
    simp only [List.length_append, spaces, List.length_replicate, two] at fits ⊢
    omega

/-- Each line of the table begins its description where the widest label allows it. -/
theorem forall₂_lines {ids : List Nat} {width : Nat} (h : List.Forall₂ (Shows tree) ids rows)
    (fits : ∀ row ∈ rows, row.label.length ≤ width) :
    List.Forall₂ (fun i line => ∃ c, tree.commands[i]? = some c ∧
      IsLineOf tree (width + 4) ⟨c, i⟩ line) ids (rows.map (·.line width id id)) := by
  induction h with
  | nil => exact .nil
  | cons first _ ih =>
    obtain ⟨fit, fits⟩ := List.forall_mem_cons.mp fits
    exact .cons (isLineOf_line first fit) (ih fits)

end Rows

section Walks
variable {tree : CommandTree} {c : PlacedCommand} {above : List PlacedCommand} {i : Nat}

/-- At the position stands a command with that many ancestors. -/
def AtDepth (tree : CommandTree) (depth i : Nat) : Prop :=
  ∃ (c : PlacedCommand) (above : List PlacedCommand), c.position = i ∧ tree.Line c (above ++ [c]) ∧
    above.length = depth

theorem commandsAt_cons (held : tree.Holds c) (positions : List Nat) :
    tree.commandsAt (c.position :: positions) = c :: tree.commandsAt positions := by
  rw [commandsAt, List.filterMap_cons, held]
  rfl

variable (consistent : tree.Consistent)
include consistent

theorem atDepth_of_mem_roots (hi : i ∈ tree.roots) : AtDepth tree 0 i := by
  obtain ⟨node, hn, root⟩ := consistent.forest.mem_roots.mp hi
  obtain ⟨c, held, rfl, rfl⟩ := exists_holds hn
  exact ⟨c, [], rfl, .top held root, rfl⟩

theorem atDepth_of_mem_children (ancestors : tree.Line c (above ++ [c])) (hi : i ∈ c.children) :
    c.position < i ∧ AtDepth tree (above.length + 1) i := by
  have child := (consistent.forest.mem_children ancestors.holds.node).mp hi
  refine ⟨consistent.forest.parent_lt child, ?_⟩
  obtain ⟨node, hn, hp⟩ := child
  obtain ⟨d, hd, rfl, rfl⟩ := exists_holds hn
  exact ⟨d, above ++ [c], rfl, .down hd hp ancestors, List.length_append⟩

/-- Going down from some commands shows what a visit of them visits, in its order. Each level gives back
one of the levels that may be shown, since children stand behind their parents. -/
theorem shows_commandRows {ids visited : List Nat} (h : Node.Visits tree.nodes ids visited)
    {levels depth : Nat} (bound : ∀ i ∈ ids, tree.commands.length ≤ i + levels)
    (placed : ∀ i ∈ ids, AtDepth tree depth i) :
    List.Forall₂ (Shows tree) visited (commandRows tree levels depth (tree.commandsAt ids)) := by
  induction h generalizing levels depth with
  | nil =>
    cases levels with
    | zero => exact .nil
    | succ levels => exact .nil
  | @cons i node rest inner outer here children others ihChildren ihOthers =>
    obtain ⟨⟨c, above, rfl, ancestors, rfl⟩, restPlaced⟩ := List.forall_mem_cons.mp placed
    obtain ⟨low, restBound⟩ := List.forall_mem_cons.mp bound
    have inside := (List.getElem?_eq_some_iff.mp ancestors.holds).1
    obtain rfl : c.node = node := Option.some.inj (ancestors.holds.node.symm.trans here)
    cases levels with
    | zero => omega
    | succ levels =>
      have below : ∀ j ∈ c.children, c.position < j ∧ AtDepth tree (above.length + 1) j :=
        fun j hj => atDepth_of_mem_children consistent ancestors hj
      have behind : ∀ j ∈ c.children, tree.commands.length ≤ j + levels := by
        intro j hj
        have := (below j hj).1
        omega
      rw [commandsAt_cons ancestors.holds, commandRows, List.flatMap_cons]
      refine .cons ⟨c, above, rfl, ancestors, rfl⟩ ?_
      exact List.rel_append (ihChildren behind fun j hj => (below j hj).2)
        (ihOthers restBound restPlaced)

theorem shows_allCommandRows {visited : List Nat} (h : Node.Visits tree.nodes tree.roots visited) :
    List.Forall₂ (Shows tree) visited (allCommandRows tree) := by
  apply shows_commandRows consistent h
  · intro i _
    exact Nat.le_add_left _ _
  · exact fun i hi => atDepth_of_mem_roots consistent hi

end Walks

end Help

open Help

section Declared
variable {tree : CommandTree} {declared : DeclarationTree}

theorem DeclarationTree.IsForest.getElem?_of_mem_walk (forest : declared.IsForest)
    {d : CommandDeclaration} (h : d ∈ declared.walk) : declared.commands[d.id]? = some d := by
  obtain ⟨i, hi⟩ := List.getElem?_of_mem (DeclarationTree.mem_walkFrom h)
  rw [forest.arranged.id_eq i d hi]
  exact hi

variable (made : tree.MadeOf declared) (forest : declared.IsForest)
include made

theorem CommandTree.MadeOf.nodes_eq : tree.nodes = declared.nodes :=
  nodes_of_becomes (becomes_of_checkCommands made.commands)

theorem CommandTree.MadeOf.eq_commandOf {d : CommandDeclaration} {c : Command}
    (hd : declared.commands[d.id]? = some d) (hc : tree.commands[d.id]? = some c) :
    ∃ flags, c = commandOf d (declared.segments d.id) flags := by
  obtain ⟨other, ho, flags, _, rfl⟩ := exists_of_becomes (becomes_of_checkCommands made.commands) hc
  obtain rfl : d = other := Option.some.inj (hd.symm.trans ho)
  exact ⟨flags, rfl⟩

include forest

theorem CommandTree.MadeOf.visits_walk :
    Node.Visits tree.nodes tree.roots (declared.walk.map (·.id)) := by
  rw [made.nodes_eq, made.roots]
  exact DeclarationTree.visits_walk forest

theorem CommandTree.MadeOf.forall₂_commandLines (consistent : tree.Consistent) :
    List.Forall₂ (fun d line => ∃ c, tree.commands[d.id]? = some c ∧ c.node = d.node ∧
        c.description = d.description ∧
        IsLineOf tree (labelWidth (allCommandRows tree) + 4) ⟨c, d.id⟩ line)
      declared.walk (commandLines tree) := by
  have lines := forall₂_lines (shows_allCommandRows consistent (made.visits_walk forest))
    fun _ => length_le_labelWidth
  rw [List.forall₂_map_left_iff] at lines
  have placed : ∀ d ∈ declared.walk, declared.commands[d.id]? = some d :=
    fun _ => forest.getElem?_of_mem_walk
  refine List.Forall₂.imp ?_ (List.forall₂_and_left _ _ |>.mpr ⟨placed, lines⟩)
  rintro d line ⟨hd, c, hc, shown⟩
  obtain ⟨flags, rfl⟩ := made.eq_commandOf hd hc
  exact ⟨_, hc, rfl, rfl, shown⟩

end Declared

/-- Root help lists every command once. The lines stand in the order in which the declarations are
walked, each command before the commands below it, which come in the order of their declaration; they
are indented by the number of ancestors and their descriptions begin at one column. -/
theorem root_help_lists_commands {source : Text} {tree : CommandTree}
    (h : compile source = .ok tree) :
    ∃ (declared : DeclarationTree) (column : Nat), parse source = .ok declared ∧
      declared.Arranged ∧
      Node.Visits declared.nodes declared.roots (declared.walk.map (·.id)) ∧
      (declared.walk.map (·.id)).Perm (List.range tree.commands.length) ∧
      tree.help .plain .root = unlines
        (frontLines tree ++ sectionLines .plain "Commands:" (commandLines tree) ++ backLines tree) ∧
      List.Forall₂ (fun d line => ∃ c, tree.commands[d.id]? = some c ∧ c.node = d.node ∧
          c.description = d.description ∧ IsLineOf tree column ⟨c, d.id⟩ line)
        declared.walk (commandLines tree) := by
  obtain ⟨declared, parsed, made⟩ := madeOf_of_compile h
  have consistent := consistent_of_compile h
  have forest := DeclarationTree.isForest_of_parse parsed
  have once := consistent.forest.visits_perm (made.visits_walk forest)
  rw [nodes, List.length_map] at once
  exact ⟨declared, _, parsed, forest.arranged, DeclarationTree.visits_walk forest, once,
    rootPage_eq tree, made.forall₂_commandLines forest consistent⟩

/-- Commands of three levels, one without a description and one entered before the command above it was
described. -/
theorem nested_commands_listed :
    ∃ (tree : CommandTree) (declared : DeclarationTree) (column : Nat),
      compile "cmd user add \"Adds\"\ncmd ls\ncmd user \"Users\" cmd user add key \"\"" = .ok tree ∧
      tree.help .plain .root = unlines (frontLines tree ++
        (["Commands:", "  user     Users", "    add    Adds", "      key", "  ls", ""] : List Text) ++
          backLines tree) ∧
      List.Forall₂ (fun d line => ∃ c, tree.commands[d.id]? = some c ∧
          IsLineOf tree column ⟨c, d.id⟩ line)
        declared.walk (["  user     Users", "    add    Adds", "      key", "  ls"] : List Text) := by
  let tree : CommandTree :=
    { app := none
      declaredFlags := []
      globalAttributes := []
      commands := [
        { commandOf (DeclarationTree.bareCommand 0 none "user" 1) ["user"] [] with
          description := "Users"
          children := [1] },
        { commandOf (DeclarationTree.bareCommand 1 (some 0) "add" 1) ["user", "add"] [] with
          description := "Adds"
          children := [3] },
        commandOf (DeclarationTree.bareCommand 2 none "ls" 2) ["ls"] [],
        commandOf (DeclarationTree.bareCommand 3 (some 1) "key" 3) ["user", "add", "key"] []]
      roots := [0, 2]
      topics := []
      attributeTable := [] }
  have h : compile "cmd user add \"Adds\"\ncmd ls\ncmd user \"Users\" cmd user add key \"\"" =
      .ok tree := by decide +kernel
  have lines : commandLines tree =
      ["  user     Users", "    add    Adds", "      key", "  ls"] := by decide +kernel
  obtain ⟨declared, column, _, _, _, _, page, listed⟩ := root_help_lists_commands h
  rw [lines] at page listed
  refine ⟨tree, declared, column, h, page, listed.imp ?_⟩
  rintro d line ⟨c, hc, _, _, shown⟩
  exact ⟨c, hc, shown⟩

end CommandLanguage

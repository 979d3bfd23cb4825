import CommandLanguage.Proofs.Forest
import CommandLanguage.Proofs.Statement.Reading

/-!
# The commands of a source form a forest

Statements come in any order: a path may be entered again, continued below a command that had
none below it, or created several levels at once. Entering a path adds a command only where the
parent exists and has no child of that name, and every other statement leaves the references alone.
-/

set_option autoImplicit false

namespace CommandLanguage

def CommandDeclaration.node (c : CommandDeclaration) : Node := ⟨c.id, c.name, c.parent, c.children⟩

namespace DeclarationTree

def nodes (tree : DeclarationTree) : List Node := tree.commands.map (·.node)

/-- The commands of the tree refer to each other as the nodes of a forest. -/
def IsForest (tree : DeclarationTree) : Prop := Forest tree.nodes tree.roots

variable {tree : DeclarationTree}

@[simp] theorem length_nodes : tree.nodes.length = tree.commands.length := by
  simp [nodes]

theorem getElem?_nodes {i : Nat} {node : Node} :
    tree.nodes[i]? = some node ↔ ∃ c, tree.commands[i]? = some c ∧ c.node = node := by
  simp [nodes]

theorem childrenOf_eq_level (parent : Option Nat) :
    tree.childrenOf parent = Node.level tree.nodes tree.roots parent := by
  cases parent with
  | none => rfl
  | some p =>
    simp only [childrenOf, Node.level, nodes, List.getElem?_map, Option.map_map]
    rfl

theorem nodes_updateCommand (id : Nat) {change : CommandDeclaration → CommandDeclaration}
    (kept : ∀ c, (change c).node = c.node) :
    (tree.updateCommand id change).nodes = tree.nodes := by
  apply List.ext_getElem?
  intro i
  simp only [nodes, updateCommand, List.getElem?_map, List.getElem?_modify]
  cases tree.commands[i]? with
  | none => rfl
  | some c => split <;> simp [kept]

theorem isForest_updateCommand (h : tree.IsForest) (id : Nat)
    {change : CommandDeclaration → CommandDeclaration} (kept : ∀ c, (change c).node = c.node) :
    (tree.updateCommand id change).IsForest := by
  unfold IsForest
  rw [nodes_updateCommand id kept]
  exact h

theorem child?_eq_some (h : tree.IsForest) {parent : Option Nat} {name : Text} {id : Nat}
    (hc : tree.child? parent name = some id) :
    ∃ c, tree.commands[id]? = some c ∧ c.parent = parent ∧ c.name = name := by
  have hm := List.mem_of_find?_eq_some hc
  rw [childrenOf_eq_level, h.mem_level] at hm
  obtain ⟨node, hn, hp⟩ := hm
  obtain ⟨c, hi, rfl⟩ := getElem?_nodes.mp hn
  have hname := List.find?_some hc
  simp only [hi, Option.any_some, decide_eq_true_eq] at hname
  exact ⟨c, hi, hp, hname⟩

theorem child?_eq_none (h : tree.IsForest) {parent : Option Nat} {name : Text}
    (hc : tree.child? parent name = none) {i : Nat} {c : CommandDeclaration}
    (hi : tree.commands[i]? = some c) (hp : c.parent = parent) : c.name ≠ name := by
  have hm : i ∈ tree.childrenOf parent := by
    rw [childrenOf_eq_level, h.mem_level]
    exact ⟨c.node, getElem?_nodes.mpr ⟨c, hi, rfl⟩, hp⟩
  have := List.find?_eq_none.mp hc i hm
  simpa [hi] using this

theorem length_addChild (parent : Option Nat) (name : Text) (line : Int) :
    (tree.addChild parent name line).commands.length = tree.commands.length + 1 := by
  cases parent <;> simp [addChild, updateCommand]

theorem labels_addChild (parent : Option Nat) (name : Text) (line : Int) :
    (tree.addChild parent name line).nodes.map Node.label =
      tree.nodes.map Node.label ++ [(tree.nodes.length, name, parent)] := by
  have grown : ((tree.commands ++ [bareCommand tree.commands.length parent name line]).map
      (·.node)).map Node.label =
        tree.nodes.map Node.label ++ [(tree.nodes.length, name, parent)] := by
    simp [nodes, bareCommand, CommandDeclaration.node, Node.label]
  cases parent with
  | none => exact grown
  | some above =>
    rw [← grown]
    apply List.ext_getElem?
    intro i
    simp only [addChild, nodes, updateCommand, List.getElem?_map, List.getElem?_modify]
    split <;> simp [Function.comp_def, CommandDeclaration.node, Node.label]

theorem childrenOf_append_bare (parent : Option Nat) (name : Text) (line : Int) (p : Nat) :
    (((tree.commands ++ [bareCommand tree.commands.length parent name line])[p]?).map
      (·.children)).getD [] = tree.childrenOf (some p) := by
  by_cases hp : p < tree.commands.length
  · rw [List.getElem?_append_left hp]
    rfl
  · have hn : tree.commands[p]? = none := List.getElem?_eq_none (Nat.le_of_not_lt hp)
    rw [List.getElem?_append_right (Nat.le_of_not_lt hp), childrenOf, hn]
    cases p - tree.commands.length <;> rfl

theorem childrenOf_addChild {parent : Option Nat}
    (placed : ∀ p, parent = some p → p < tree.commands.length) (name : Text) (line : Int)
    (q : Option Nat) : (tree.addChild parent name line).childrenOf q =
      tree.childrenOf q ++ if q = parent then [tree.commands.length] else [] := by
  have old := @childrenOf_append_bare tree parent name line
  cases parent with
  | none =>
    cases q with
    | none => rfl
    | some p =>
      rw [if_neg (by simp), List.append_nil]
      exact old p
  | some above =>
    cases q with
    | none => simp [addChild, updateCommand, childrenOf]
    | some p =>
      rw [← old p]
      by_cases hp : above = p
      · subst hp
        have hlt : above < (tree.commands ++
            [bareCommand tree.commands.length (some above) name line]).length := by
          simpa using Nat.lt_succ_of_lt (placed above rfl)
        simp [addChild, updateCommand, childrenOf, List.getElem?_eq_getElem hlt]
      · have hq : some p ≠ some above := fun he => hp (Option.some.inj he).symm
        simp [addChild, updateCommand, childrenOf, hp, hq]

theorem isForest_addChild (h : tree.IsForest) {parent : Option Nat} {name : Text}
    (placed : ∀ p, parent = some p → p < tree.commands.length)
    (absent : tree.child? parent name = none) (line : Int) :
    (tree.addChild parent name line).IsForest := by
  refine Forest.grow (labels_addChild parent name line) h ?_ ?_ ?_
  · intro q
    rw [← childrenOf_eq_level, ← childrenOf_eq_level, childrenOf_addChild placed, length_nodes]
  · simpa using placed
  · intro i node hi hp
    obtain ⟨c, hc, rfl⟩ := getElem?_nodes.mp hi
    exact child?_eq_none h absent hc hp

theorem isForest_enter (h : tree.IsForest) {parent : Option Nat}
    (placed : ∀ p, parent = some p → p < tree.commands.length) (line : Int) (path : List Text) :
    (tree.enter parent line path).1.IsForest := by
  induction path generalizing tree parent with
  | nil => exact h
  | cons name path ih =>
    unfold enter
    split
    · next id hc =>
      obtain ⟨c, hi, _⟩ := child?_eq_some h hc
      refine ih h ?_
      rintro p ⟨⟩
      exact (List.getElem?_eq_some_iff.mp hi).1
    · next hc =>
      refine ih (isForest_addChild h placed hc line) ?_
      rintro p ⟨⟩
      rw [length_addChild]
      exact Nat.lt_succ_self _

end DeclarationTree

namespace Draft

open DeclarationTree

theorem isForest_updateSelected {draft : Draft} (h : draft.tree.IsForest)
    {change : CommandDeclaration → CommandDeclaration} (kept : ∀ c, (change c).node = c.node) :
    (draft.updateSelected change).tree.IsForest := by
  unfold updateSelected
  split
  · exact h
  · exact isForest_updateCommand h _ kept

theorem isForest_apply {draft : Draft} (h : draft.tree.IsForest) (statement : Statement) :
    (draft.apply statement).tree.IsForest := by
  cases statement with
  | command path description line =>
    have placed : ∀ p, none = some p → p < draft.tree.commands.length := fun _ he => nomatch he
    have entered := isForest_enter h placed line path
    cases description with
    | none => exact entered
    | some text => exact isForest_updateSelected entered fun _ => rfl
  | flag flag =>
    simp only [apply]
    split
    · exact h
    · exact isForest_updateSelected h fun _ => rfl
  | assignment name entry =>
    simp only [apply]
    split
    · exact h
    · exact isForest_updateSelected h fun _ => rfl
  | argument argument => exact isForest_updateSelected h fun _ => rfl
  | exampleLine text => exact isForest_updateSelected h fun _ => rfl
  | topicBody text =>
    simp only [apply]
    split <;> exact h
  | _ => exact h

theorem isForest_foldl {draft : Draft} (h : draft.tree.IsForest) (statements : List Statement) :
    (statements.foldl apply draft).tree.IsForest := by
  induction statements generalizing draft with
  | nil => exact h
  | cons statement statements ih => exact ih (isForest_apply h statement)

end Draft

namespace DeclarationTree

theorem isForest_empty : empty.IsForest where
  id_eq := by simp [nodes, empty]
  parent_lt := by rintro i p ⟨node, hn, _⟩; simp [nodes, empty] at hn
  mem_level := by intro parent i; cases parent <;> simp [nodes, empty, Node.level]
  ascending := by intro parent; cases parent <;> simp [nodes, empty, Node.level]
  eq_of_name_eq := by intro i j a b ha; simp [nodes, empty] at ha

theorem isForest_of_parse {source : Text} {tree : DeclarationTree} (h : parse source = .ok tree) :
    tree.IsForest := by
  obtain ⟨statements, _, rfl⟩ := parse_eq_ok_iff.mp h
  exact Draft.isForest_foldl isForest_empty statements

end DeclarationTree

end CommandLanguage

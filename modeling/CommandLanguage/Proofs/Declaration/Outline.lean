import CommandLanguage.Proofs.Declaration.Ancestry
import Mathlib.Data.List.Infix

/-!
# Commands by their paths

An outline says what a source declares without positions: a command is the entry of its path. The
statements of a source have their meaning here, in `Sketch.apply`. Drafts follow it step by step,
and a tree is determined by its outline and by being a forest.
-/

set_option autoImplicit false

namespace CommandLanguage

/-- A command without what refers to other commands; its place is given by its path. -/
structure Entry where
  path : List Text
  description : Text
  flags : List FlagDeclaration
  args : List Argument
  examples : List Text
  attributes : KeyedList AttributeEntry
  line : Int
  deriving DecidableEq

def bareEntry (line : Int) (path : List Text) : Entry :=
  { path, description := [], flags := [], args := [], examples := [], attributes := [], line }

/-- The declarations of a source, with commands in the order in which they were first named. -/
structure Outline where
  app : Option Identity
  globalFlags : List FlagDeclaration
  globalAttributes : KeyedList AttributeEntry
  entries : List Entry
  topics : List Topic
  deriving DecidableEq

/-- An outline and what the next statements attach to. -/
structure Sketch extends Outline where
  /-- The path of the selected command; without one it is empty. -/
  scope : List Text
  topic : Option Nat
  deriving DecidableEq

namespace Sketch

def empty : Sketch := ⟨⟨none, [], [], [], []⟩, [], none⟩

/-- Whether a statement may come next. -/
def Allows (sketch : Sketch) : Statement → Prop
  | .argument _ => sketch.scope ≠ []
  | .exampleLine _ => sketch.scope ≠ []
  | .identity _ => sketch.scope = [] ∧ sketch.app = none
  | .topicBody _ => sketch.topic ≠ none
  | _ => True

/-- The beginnings of a path that no entry has, the shortest first. -/
def missing (entries : List Entry) (path : List Text) : List (List Text) :=
  path.inits.tail.filter fun start => start ∉ entries.map (·.path)

/-- Changes the entry of the selected command. -/
def change (sketch : Sketch) (change : Entry → Entry) : Sketch :=
  { sketch with
    entries := sketch.entries.map fun e => if e.path = sketch.scope then change e else e }

/-- What a statement means. -/
def apply (sketch : Sketch) : Statement → Sketch
  | .global => { sketch with scope := [], topic := none }
  | .command path description line =>
    let added := (missing sketch.entries path).map (bareEntry line)
    let entered := { sketch with entries := sketch.entries ++ added, scope := path }
    match description with
    | none => entered
    | some text => entered.change fun e => { e with description := text }
  | .flag flag =>
    if sketch.scope = [] then { sketch with globalFlags := sketch.globalFlags ++ [flag] }
    else sketch.change fun e => { e with flags := e.flags ++ [flag] }
  | .argument argument => sketch.change fun e => { e with args := e.args ++ [argument] }
  | .assignment name entry =>
    if sketch.scope = [] then
      { sketch with globalAttributes := KeyedList.assign sketch.globalAttributes name entry }
    else sketch.change fun e => { e with attributes := KeyedList.assign e.attributes name entry }
  | .identity identity => { sketch with app := some identity }
  | .exampleLine text => sketch.change fun e => { e with examples := e.examples ++ [text] }
  | .topic name description =>
    { sketch with
      topics := sketch.topics ++ [⟨name, description, none⟩]
      topic := some sketch.topics.length }
  | .topicBody text =>
    match sketch.topic with
    | none => sketch
    | some index =>
      { sketch with topics := sketch.topics.modify index fun t => { t with body := some text } }

end Sketch

def CommandDeclaration.entry (c : CommandDeclaration) (path : List Text) : Entry :=
  ⟨path, c.description, c.flags, c.args, c.examples, c.attributes, c.line⟩

theorem CommandDeclaration.eq_of_entry_eq {c d : CommandDeclaration} {path other : List Text}
    (hn : c.node = d.node) (he : c.entry path = d.entry other) : c = d := by
  cases c
  cases d
  cases hn
  cases he
  rfl

namespace DeclarationTree

def entries (tree : DeclarationTree) : List Entry :=
  tree.commands.map fun c => c.entry (tree.segments c.id)

def outline (tree : DeclarationTree) : Outline :=
  ⟨tree.app, tree.globalFlags, tree.globalAttributes, tree.entries, tree.topics⟩

/-- The path of a position; that of no position is empty. -/
def pathOf (tree : DeclarationTree) (position : Option Nat) : List Text :=
  (position.map tree.segments).getD []

variable {tree : DeclarationTree}

theorem segments_eq_iff (h : tree.IsForest) {i : Nat} (hi : i < tree.commands.length)
    {path : List Text} : tree.segments i = path ↔ Node.Climbs tree.nodes i path := by
  constructor
  · rintro rfl
    exact climbs_segments h hi
  · intro climbs
    exact (climbs_segments h hi).unique climbs

theorem lt_length_of_getElem? {i : Nat} {c : CommandDeclaration} (hc : tree.commands[i]? = some c) :
    i < tree.commands.length :=
  (List.getElem?_eq_some_iff.mp hc).1

theorem getElem?_entries (h : tree.IsForest) {i : Nat} : tree.entries[i]? =
    tree.commands[i]?.map fun c => c.entry (tree.segments i) := by
  rw [entries, List.getElem?_map]
  cases hc : tree.commands[i]? with
  | none => rfl
  | some c => rw [Option.map_some, Option.map_some, h.arranged.id_eq i c hc]

theorem mem_paths (h : tree.IsForest) {path : List Text} :
    path ∈ tree.entries.map (·.path) ↔ ∃ i < tree.commands.length, tree.segments i = path := by
  rw [entries, List.map_map, List.mem_map]
  constructor
  · rintro ⟨c, hc, rfl⟩
    obtain ⟨i, hi⟩ := List.getElem?_of_mem hc
    refine ⟨i, lt_length_of_getElem? hi, ?_⟩
    rw [← h.arranged.id_eq i c hi]
    rfl
  · rintro ⟨i, hi, rfl⟩
    refine ⟨tree.commands[i], List.getElem_mem hi, ?_⟩
    exact congrArg tree.segments (h.arranged.id_eq i _ (List.getElem?_eq_getElem hi))

theorem eq_of_entries_eq {other : DeclarationTree} (h : tree.IsForest) (ho : other.IsForest)
    (he : tree.entries = other.entries) :
    tree.commands = other.commands ∧ tree.roots = other.roots := by
  have length : tree.commands.length = other.commands.length := by
    simpa [entries] using congrArg List.length he
  have entry {i : Nat} {c d : CommandDeclaration} (hc : tree.commands[i]? = some c)
      (hd : other.commands[i]? = some d) :
      c.entry (tree.segments i) = d.entry (other.segments i) := by
    have hi := congrArg (·[i]?) he
    simp only [getElem?_entries h, getElem?_entries ho, hc, hd, Option.map_some] at hi
    exact Option.some.inj hi
  have paths : ∀ i, i < tree.nodes.length →
      ∃ path, Node.Climbs tree.nodes i path ∧ Node.Climbs other.nodes i path := by
    intro i hi
    rw [length_nodes] at hi
    have hj := length ▸ hi
    have hp := congrArg Entry.path
      (entry (List.getElem?_eq_getElem hi) (List.getElem?_eq_getElem hj))
    exact ⟨_, climbs_segments h hi, (segments_eq_iff ho hj).mp hp.symm⟩
  obtain ⟨hnodes, hroots⟩ := h.eq_of_paths paths ho (by simpa using length)
  refine ⟨List.ext_getElem length fun i hi hj => ?_, hroots⟩
  have hn := congrArg (·[i]?) hnodes
  simp only [nodes, List.getElem?_map, List.getElem?_eq_getElem hi, List.getElem?_eq_getElem hj,
    Option.map_some] at hn
  exact CommandDeclaration.eq_of_entry_eq (Option.some.inj hn)
    (entry (List.getElem?_eq_getElem hi) (List.getElem?_eq_getElem hj))

/-- A forest of commands is determined by its outline. -/
theorem eq_of_outline_eq {other : DeclarationTree} (h : tree.IsForest) (ho : other.IsForest)
    (he : tree.outline = other.outline) : tree = other := by
  simp only [outline, Outline.mk.injEq] at he
  obtain ⟨happ, hflags, hattributes, hentries, htopics⟩ := he
  obtain ⟨hcommands, hroots⟩ := eq_of_entries_eq h ho hentries
  cases tree
  cases other
  rw [DeclarationTree.mk.injEq]
  exact ⟨happ, hflags, hattributes, hcommands, hroots, htopics⟩

theorem segments_of_nodes_eq {other : DeclarationTree} (h : tree.IsForest) (ho : other.IsForest)
    (hn : other.nodes = tree.nodes) {i : Nat} (hi : i < tree.commands.length) :
    other.segments i = tree.segments i := by
  have hj : i < other.commands.length := by
    rw [← length_nodes, hn, length_nodes]
    exact hi
  rw [segments_eq_iff ho hj, hn]
  exact climbs_segments h hi

theorem segments_eq (h : tree.IsForest) {i : Nat} {c : CommandDeclaration}
    (hc : tree.commands[i]? = some c) : tree.segments i = tree.pathOf c.parent ++ [c.name] := by
  have hn : tree.nodes[i]? = some c.node := getElem?_nodes.mpr ⟨c, hc, rfl⟩
  have hi := lt_length_of_getElem? hc
  rw [segments_eq_iff h hi]
  cases hp : c.parent with
  | none => exact .top hn hp
  | some p => exact .step hn hp (climbs_segments h (Nat.lt_trans (h.arranged.parent_lt i p c hc hp) hi))

theorem segments_ne_nil (h : tree.IsForest) {i : Nat} (hi : i < tree.commands.length) :
    tree.segments i ≠ [] :=
  (climbs_segments h hi).ne_nil

theorem pathOf_inj (h : tree.IsForest) {p q : Option Nat}
    (hp : ∀ i, p = some i → i < tree.commands.length)
    (hq : ∀ i, q = some i → i < tree.commands.length) (he : tree.pathOf p = tree.pathOf q) :
    p = q := by
  cases p with
  | none =>
    cases q with
    | none => rfl
    | some j => exact absurd he.symm (segments_ne_nil h (hq j rfl))
  | some i =>
    cases q with
    | none => exact absurd he (segments_ne_nil h (hp i rfl))
    | some j => exact congrArg some (eq_of_segments_eq h (hp i rfl) (hq j rfl) he)

theorem entries_updateCommand {change : CommandDeclaration → CommandDeclaration}
    {new : Entry → Entry} (kept : ∀ c, (change c).node = c.node)
    (same : ∀ c path, (change c).entry path = new (c.entry path)) (h : tree.IsForest) {id : Nat}
    (hid : id < tree.commands.length) : (tree.updateCommand id change).entries =
      tree.entries.map fun e => if e.path = tree.segments id then new e else e := by
  have forest := isForest_updateCommand h id kept
  apply List.ext_getElem?
  intro i
  rw [getElem?_entries forest, List.getElem?_map, getElem?_entries h]
  cases hc : tree.commands[i]? with
  | none => simp [updateCommand, List.getElem?_eq_none_iff.mp hc]
  | some c =>
    have hi := lt_length_of_getElem? hc
    have hs := segments_of_nodes_eq h forest (nodes_updateCommand id kept) hi
    have changed : (tree.updateCommand id change).commands[i]? =
        some (if id = i then change c else c) := by
      simp [updateCommand, List.getElem?_modify, hc]
    rw [changed, hs, Option.map_some, Option.map_some, Option.map_some]
    by_cases he : id = i
    · subst he
      rw [if_pos rfl, same]
      exact congrArg some (if_pos rfl).symm
    · have hne : ¬ (c.entry (tree.segments i)).path = tree.segments id :=
        fun hp => he (eq_of_segments_eq h hi hid hp).symm
      rw [if_neg he, if_neg hne]

section Growth

theorem map_addChild {α : Type} (view : CommandDeclaration → α)
    (unseen : ∀ c children, view { c with children } = view c) (parent : Option Nat) (name : Text)
    (line : Int) : (tree.addChild parent name line).commands.map view =
      (tree.commands ++ [bareCommand tree.commands.length parent name line]).map view := by
  cases parent with
  | none => rfl
  | some above =>
    apply List.ext_getElem?
    intro i
    simp only [addChild, updateCommand, List.getElem?_map, List.getElem?_modify]
    cases (tree.commands ++ [bareCommand tree.commands.length (some above) name line])[i]? with
    | none => rfl
    | some c => split <;> simp [unseen]

variable {parent : Option Nat} {name : Text}
variable (placed : ∀ p, parent = some p → p < tree.commands.length)
variable (absent : tree.child? parent name = none) (line : Int)
include placed absent

theorem segments_addChild_of_lt (h : tree.IsForest) {i : Nat} (hi : i < tree.commands.length) :
    (tree.addChild parent name line).segments i = tree.segments i := by
  rw [segments_eq_iff (isForest_addChild h placed absent line) (by rw [length_addChild]; omega)]
  exact climbs_grown (labels_addChild parent name line) (climbs_segments h hi)

theorem segments_added (h : tree.IsForest) :
    (tree.addChild parent name line).segments tree.commands.length = tree.pathOf parent ++ [name] := by
  rw [segments_eq_iff (isForest_addChild h placed absent line) (by rw [length_addChild]; omega),
    ← length_nodes]
  apply climbs_added (labels_addChild parent name line)
  cases parent with
  | none => rfl
  | some p => exact climbs_segments h (placed p rfl)

theorem entries_addChild (h : tree.IsForest) :
    (tree.addChild parent name line).entries =
      tree.entries ++ [bareEntry line (tree.pathOf parent ++ [name])] := by
  have old : ∀ c ∈ tree.commands, c.entry ((tree.addChild parent name line).segments c.id) =
      c.entry (tree.segments c.id) := by
    intro c hc
    obtain ⟨i, hi⟩ := List.getElem?_of_mem hc
    rw [h.arranged.id_eq i c hi,
      segments_addChild_of_lt placed absent line h (lt_length_of_getElem? hi)]
  have added : (bareCommand tree.commands.length parent name line).entry
      ((tree.addChild parent name line).segments tree.commands.length) =
        bareEntry line (tree.pathOf parent ++ [name]) := by
    rw [segments_added placed absent line h]
    rfl
  rw [entries, map_addChild _ fun _ _ => rfl, List.map_append, List.map_congr_left old,
    List.map_singleton]
  exact congrArg (_ ++ [·]) added

theorem not_mem_paths (h : tree.IsForest) :
    tree.pathOf parent ++ [name] ∉ tree.entries.map (·.path) := by
  intro hm
  obtain ⟨i, hi, hs⟩ := (mem_paths h).mp hm
  have hc := List.getElem?_eq_getElem hi
  rw [segments_eq h hc] at hs
  obtain ⟨hp, hn⟩ := List.append_inj' hs rfl
  have above : ∀ p, tree.commands[i].parent = some p → p < tree.commands.length := by
    intro p hp
    exact Nat.lt_trans (h.arranged.parent_lt i p _ hc hp) hi
  exact child?_eq_none h absent hc (pathOf_inj h above placed hp) (List.singleton_inj.mp hn)

end Growth

theorem inits_tail_cons (name : Text) (path : List Text) :
    (name :: path).inits.tail = [name] :: path.inits.tail.map (name :: ·) := by
  cases path <;> simp

theorem ne_nil_of_mem_tail_inits {start path : List Text} (h : start ∈ path.inits.tail) :
    start ≠ [] := by
  cases path with
  | nil => cases h
  | cons name path =>
    rw [inits_tail_cons] at h
    rcases List.mem_cons.mp h with rfl | h
    · simp
    · obtain ⟨_, _, rfl⟩ := List.mem_map.mp h
      simp

/-- Entering a path adds the missing beginnings of it and selects the whole path. -/
theorem entries_enter (h : tree.IsForest) {parent : Option Nat}
    (placed : ∀ p, parent = some p → p < tree.commands.length) (line : Int) (path : List Text) :
    let entered := tree.enter parent line path
    entered.1.entries = tree.entries ++ (((path.inits.tail.map (tree.pathOf parent ++ ·)).filter
        fun start => start ∉ tree.entries.map (·.path)).map (bareEntry line)) ∧
      entered.1.pathOf entered.2 = tree.pathOf parent ++ path ∧
      ∀ p, entered.2 = some p → p < entered.1.commands.length := by
  -- The tree and the parent vary: a command that was added is the parent of the next.
  induction path generalizing tree parent with
  | nil => exact ⟨by simp [enter], by simp [enter], placed⟩
  | cons name path ih =>
    have starts : (name :: path).inits.tail.map (tree.pathOf parent ++ ·) =
        (tree.pathOf parent ++ [name]) ::
          path.inits.tail.map (tree.pathOf parent ++ [name] ++ ·) := by
      rw [inits_tail_cons, List.map_cons, List.map_map]
      simp only [Function.comp_def, List.append_assoc, List.singleton_append]
    simp only [starts]
    unfold enter
    split
    · next id hc =>
      obtain ⟨c, hi, hp, hn⟩ := child?_eq_some h hc
      have hlt := lt_length_of_getElem? hi
      have hid : tree.pathOf (some id) = tree.pathOf parent ++ [name] := by
        rw [← hp, ← hn]
        exact segments_eq h hi
      have known : tree.pathOf parent ++ [name] ∈ tree.entries.map (·.path) :=
        (mem_paths h).mpr ⟨id, hlt, hid⟩
      have placed : ∀ p, some id = some p → p < tree.commands.length := by
        rintro p ⟨⟩
        exact hlt
      obtain ⟨entries, scope, inside⟩ := ih h placed
      rw [List.filter_cons_of_neg (by simpa using known), ← hid]
      refine ⟨entries, ?_, inside⟩
      rw [scope, hid, List.append_assoc]
      rfl
    · next hc =>
      have new := not_mem_paths placed hc h
      have grown := entries_addChild placed hc line h
      have hid : (tree.addChild parent name line).pathOf (some tree.commands.length) =
          tree.pathOf parent ++ [name] := segments_added placed hc line h
      have inside : ∀ p, some tree.commands.length = some p →
          p < (tree.addChild parent name line).commands.length := by
        rintro p ⟨⟩
        rw [length_addChild]
        exact Nat.lt_succ_self _
      obtain ⟨entries, scope, inside⟩ := ih (isForest_addChild h placed hc line) inside
      refine ⟨?_, ?_, inside⟩
      · rw [entries, grown, hid, List.filter_cons_of_pos (by simpa using new), List.map_cons,
          List.append_assoc, List.singleton_append]
        congr 3
        apply List.filter_congr
        intro start hs
        obtain ⟨rest, hr, rfl⟩ := List.mem_map.mp hs
        have longer := ne_nil_of_mem_tail_inits hr
        simp [bareEntry, longer]
      · rw [scope, hid, List.append_assoc]
        rfl

theorem outline_enter (parent : Option Nat) (line : Int) (path : List Text) :
    (tree.enter parent line path).1.outline =
      { tree.outline with entries := (tree.enter parent line path).1.entries } := by
  induction path generalizing tree parent with
  | nil => rfl
  | cons name path ih =>
    unfold enter
    split
    · exact ih _
    · refine (ih (some tree.commands.length)).trans ?_
      cases parent <;> rfl

end DeclarationTree

namespace Draft

open DeclarationTree

def sketch (draft : Draft) : Sketch :=
  { toOutline := draft.tree.outline
    scope := draft.tree.pathOf draft.command
    topic := draft.topic }

structure IsSound (draft : Draft) : Prop where
  forest : draft.tree.IsForest
  selected : ∀ id, draft.command = some id → id < draft.tree.commands.length

variable {draft : Draft}

theorem scope_eq_nil_iff (h : draft.IsSound) : draft.sketch.scope = [] ↔ draft.command = none := by
  cases hc : draft.command with
  | none => simp [sketch, pathOf, hc]
  | some id => simpa [sketch, pathOf, hc] using segments_ne_nil h.forest (h.selected id hc)

theorem scope_ne_nil (h : draft.IsSound) {id : Nat} (hc : draft.command = some id) :
    draft.sketch.scope ≠ [] := by
  intro he
  rw [(scope_eq_nil_iff h).mp he] at hc
  cases hc

section Change
variable {change : CommandDeclaration → CommandDeclaration} {new : Entry → Entry}
variable (kept : ∀ c, (change c).node = c.node)
include kept

theorem IsSound.updateSelected (h : draft.IsSound) : (draft.updateSelected change).IsSound := by
  refine ⟨isForest_updateSelected h.forest kept, ?_⟩
  unfold Draft.updateSelected
  split
  · exact h.selected
  · simpa [updateCommand] using h.selected

theorem sketch_updateSelected (same : ∀ c path, (change c).entry path = new (c.entry path))
    (h : draft.IsSound) : (draft.updateSelected change).sketch = draft.sketch.change new := by
  cases hc : draft.command with
  | none =>
    have others : draft.tree.entries.map (fun e => if e.path = [] then new e else e) =
        draft.tree.entries := by
      refine (List.map_congr_left fun e he => ?_).trans (List.map_id _)
      obtain ⟨i, hi, hp⟩ := (mem_paths h.forest).mp (List.mem_map_of_mem he)
      exact if_neg (hp ▸ segments_ne_nil h.forest hi)
    simp only [updateSelected, hc, sketch, outline, pathOf, Sketch.change, Option.map_none,
      Option.getD_none, others]
  | some id =>
    have hid := h.selected id hc
    have forest := isForest_updateCommand h.forest id kept
    have hs := segments_of_nodes_eq h.forest forest (nodes_updateCommand id kept) hid
    have he := entries_updateCommand kept same h.forest hid
    simp only [updateSelected, hc, sketch, outline, pathOf, Sketch.change, Option.map_some,
      Option.getD_some, he, hs]
    rfl

end Change

theorem placed_none : ∀ p, none = some p → p < draft.tree.commands.length :=
  fun _ he => nomatch he

/-- Selects the command of a path, after the missing beginnings of the path were added. -/
def enter (draft : Draft) (line : Int) (path : List Text) : Draft :=
  { draft with
    tree := (draft.tree.enter none line path).1
    command := (draft.tree.enter none line path).2 }

theorem isSound_enter (h : draft.IsSound) (line : Int) (path : List Text) :
    (draft.enter line path).IsSound where
  forest := isForest_enter h.forest placed_none line path
  selected := (entries_enter h.forest placed_none line path).2.2

theorem sketch_enter (h : draft.IsSound) (line : Int) (path : List Text) :
    (draft.enter line path).sketch =
      { draft.sketch with
        entries := draft.tree.entries ++
          (Sketch.missing draft.tree.entries path).map (bareEntry line)
        scope := path } := by
  obtain ⟨entries, scope, _⟩ := entries_enter h.forest placed_none line path
  have kept := draft.tree.outline_enter none line path
  have starts : path.inits.tail.map (draft.tree.pathOf none ++ ·) = path.inits.tail := List.map_id _
  rw [starts] at entries
  simp only [sketch, enter, kept, entries, scope]
  rfl

theorem isSound_apply (h : draft.IsSound) (statement : Statement) :
    (draft.apply statement).IsSound := by
  cases statement with
  | global => exact ⟨h.forest, placed_none⟩
  | command path description line =>
    have entered := isSound_enter h line path
    cases description with
    | none => exact entered
    | some text => exact entered.updateSelected fun _ => rfl
  | flag flag =>
    simp only [apply]
    split
    · exact ⟨h.forest, h.selected⟩
    · exact h.updateSelected fun _ => rfl
  | argument argument => exact h.updateSelected fun _ => rfl
  | assignment name entry =>
    simp only [apply]
    split
    · exact ⟨h.forest, h.selected⟩
    · exact h.updateSelected fun _ => rfl
  | exampleLine text => exact h.updateSelected fun _ => rfl
  | topicBody text =>
    simp only [apply]
    split
    · exact h
    · exact ⟨h.forest, h.selected⟩
  | _ => exact ⟨h.forest, h.selected⟩

theorem sketch_apply (h : draft.IsSound) (statement : Statement) :
    (draft.apply statement).sketch = draft.sketch.apply statement := by
  cases statement with
  | global => rfl
  | command path description line =>
    have entered := sketch_enter h line path
    cases description with
    | none => exact entered
    | some text =>
      have meaning : draft.sketch.apply (.command path (some text) line) =
          (draft.enter line path).sketch.change fun e => { e with description := text } := by
        rw [entered]
        rfl
      rw [meaning]
      exact sketch_updateSelected (fun _ => rfl) (fun _ _ => rfl) (isSound_enter h line path)
  | flag flag =>
    simp only [apply, Sketch.apply]
    split
    · next hc => exact (if_pos ((scope_eq_nil_iff h).mpr hc)).symm
    · next hc =>
      rw [if_neg (scope_ne_nil h hc)]
      exact sketch_updateSelected (fun _ => rfl) (fun _ _ => rfl) h
  | argument argument => exact sketch_updateSelected (fun _ => rfl) (fun _ _ => rfl) h
  | assignment name entry =>
    simp only [apply, Sketch.apply]
    split
    · next hc => exact (if_pos ((scope_eq_nil_iff h).mpr hc)).symm
    · next hc =>
      rw [if_neg (scope_ne_nil h hc)]
      exact sketch_updateSelected (fun _ => rfl) (fun _ _ => rfl) h
  | exampleLine text => exact sketch_updateSelected (fun _ => rfl) (fun _ _ => rfl) h
  | topicBody text =>
    cases ht : draft.topic with
    | none => simp [apply, Sketch.apply, sketch, ht]
    | some index =>
      simp only [apply, Sketch.apply, sketch, ht]
      rfl
  | identity identity => rfl
  | topic name description => rfl

theorem isSound_empty : empty.IsSound where
  forest := isForest_empty
  selected := fun _ he => nomatch he

/-- A run of statements builds the sketch that the same run builds without positions. -/
theorem sketch_foldl (h : draft.IsSound) (statements : List Statement) :
    (statements.foldl apply draft).IsSound ∧
      (statements.foldl apply draft).sketch = statements.foldl Sketch.apply draft.sketch := by
  induction statements generalizing draft with
  | nil => exact ⟨h, rfl⟩
  | cons statement statements ih =>
    obtain ⟨sound, hs⟩ := ih (isSound_apply h statement)
    rw [sketch_apply h] at hs
    exact ⟨sound, hs⟩

end Draft

end CommandLanguage

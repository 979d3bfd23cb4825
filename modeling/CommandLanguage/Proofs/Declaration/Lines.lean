import CommandLanguage.Proofs.Declaration.Meaning

/-!
# Declarations without lines

The lines of declarations serve error messages alone. Statements mean the same on other lines, up to
the lines of what they declare.
-/

set_option autoImplicit false

namespace CommandLanguage

def FlagDeclaration.withoutLine (flag : FlagDeclaration) : FlagDeclaration := { flag with line := 0 }

def AttributeEntry.withoutLine (entry : AttributeEntry) : AttributeEntry := { entry with line := 0 }

def CommandDeclaration.withoutLines (c : CommandDeclaration) : CommandDeclaration :=
  { c with
    flags := c.flags.map (·.withoutLine)
    attributes := KeyedList.mapValues (·.withoutLine) c.attributes
    line := 0 }

def Entry.withoutLines (e : Entry) : Entry :=
  { e with
    flags := e.flags.map (·.withoutLine)
    attributes := KeyedList.mapValues (·.withoutLine) e.attributes
    line := 0 }

def Outline.withoutLines (outline : Outline) : Outline :=
  { outline with
    globalFlags := outline.globalFlags.map (·.withoutLine)
    globalAttributes := KeyedList.mapValues (·.withoutLine) outline.globalAttributes
    entries := outline.entries.map (·.withoutLines) }

def Sketch.withoutLines (sketch : Sketch) : Sketch :=
  { sketch with toOutline := sketch.toOutline.withoutLines }

/-- The statement on another line. -/
def Statement.onLine (line : Int) : Statement → Statement
  | .command path description _ => .command path description line
  | .flag declared => .flag { declared with line }
  | .assignment name entry => .assignment name { entry with line }
  | statement => statement

theorem Statement.onLine_onLine (statement : Statement) (line other : Int) :
    (statement.onLine line).onLine other = statement.onLine other := by
  cases statement <;> rfl

namespace Sketch

variable {sketch : Sketch}

theorem withoutLines_change {new other : Entry → Entry}
    (same : ∀ e, (new e).withoutLines = other e.withoutLines) :
    (sketch.change new).withoutLines = sketch.withoutLines.change other := by
  have entries : (sketch.entries.map fun e => if e.path = sketch.scope then new e else e).map
      (·.withoutLines) = (sketch.entries.map (·.withoutLines)).map fun e =>
        if e.path = sketch.scope then other e else e := by
    rw [List.map_map, List.map_map]
    refine List.map_congr_left fun e _ => ?_
    simp only [Function.comp_apply]
    rw [apply_ite Entry.withoutLines, same]
    rfl
  simp only [change, withoutLines, Outline.withoutLines, entries]
  rfl

theorem missing_withoutLines (entries : List Entry) (path : List Text) :
    missing (entries.map (·.withoutLines)) path = missing entries path := by
  rw [missing, List.map_map]
  rfl

theorem allows_withoutLines {statement : Statement} :
    sketch.withoutLines.Allows statement ↔ sketch.Allows statement := by
  cases statement <;> rfl

theorem allows_onLine {statement : Statement} {line : Int} :
    sketch.Allows (statement.onLine line) ↔ sketch.Allows statement := by
  cases statement <;> rfl

theorem withoutLines_apply (statement : Statement) :
    (sketch.apply statement).withoutLines = sketch.withoutLines.apply (statement.onLine 0) := by
  cases statement with
  | command path description line =>
    have bare : (sketch.apply (.command path none line)).withoutLines =
        sketch.withoutLines.apply (.command path none 0) := by
      simp only [apply, withoutLines, Outline.withoutLines, missing_withoutLines, List.map_append,
        List.map_map]
      rfl
    cases description with
    | none => exact bare
    | some text =>
      have described : (sketch.apply (.command path (some text) line)).withoutLines =
          (sketch.apply (.command path none line)).withoutLines.change
            fun e => { e with description := text } := withoutLines_change fun _ => rfl
      rw [described, bare]
      rfl
  | flag flag =>
    simp only [apply, Statement.onLine]
    by_cases global : sketch.scope = []
    · rw [if_pos global]
      refine Eq.trans ?_ (if_pos global).symm
      simp [withoutLines, Outline.withoutLines, FlagDeclaration.withoutLine]
    · rw [if_neg global]
      refine Eq.trans (withoutLines_change ?_) (if_neg global).symm
      intro e
      simp [Entry.withoutLines, FlagDeclaration.withoutLine]
  | assignment name entry =>
    simp only [apply, Statement.onLine]
    by_cases global : sketch.scope = []
    · rw [if_pos global]
      refine Eq.trans ?_ (if_pos global).symm
      simp only [withoutLines, Outline.withoutLines, KeyedList.mapValues_assign]
      rfl
    · rw [if_neg global]
      refine Eq.trans (withoutLines_change ?_) (if_neg global).symm
      intro e
      simp only [Entry.withoutLines, KeyedList.mapValues_assign]
      rfl
  | argument argument => exact withoutLines_change fun _ => rfl
  | exampleLine text => exact withoutLines_change fun _ => rfl
  | topicBody text =>
    simp only [apply, Statement.onLine]
    cases ht : sketch.topic with
    | none => simp [withoutLines, ht]
    | some index => simp [withoutLines, ht, Outline.withoutLines]
  | global => rfl
  | identity identity => rfl
  | topic name description => rfl

section Same
variable {other : Sketch} (same : other.withoutLines = sketch.withoutLines)
include same

theorem allows_of_same {statement : Statement} (line : Int) (allowed : sketch.Allows statement) :
    other.Allows (statement.onLine line) := by
  rw [← allows_withoutLines] at allowed
  rwa [allows_onLine, ← allows_withoutLines, same]

theorem same_apply (statement : Statement) (line : Int) :
    (other.apply (statement.onLine line)).withoutLines = (sketch.apply statement).withoutLines := by
  rw [withoutLines_apply, withoutLines_apply, Statement.onLine_onLine, same]

end Same

end Sketch

namespace DeclarationTree

def withoutLines (tree : DeclarationTree) : DeclarationTree :=
  { tree with
    globalFlags := tree.globalFlags.map (·.withoutLine)
    globalAttributes := KeyedList.mapValues (·.withoutLine) tree.globalAttributes
    commands := tree.commands.map (·.withoutLines) }

variable {tree : DeclarationTree}

theorem nodes_withoutLines (tree : DeclarationTree) : tree.withoutLines.nodes = tree.nodes := by
  rw [nodes, withoutLines, List.map_map]
  rfl

theorem isForest_withoutLines (h : tree.IsForest) : tree.withoutLines.IsForest := by
  unfold IsForest
  rw [nodes_withoutLines]
  exact h

theorem outline_withoutLines (h : tree.IsForest) :
    tree.withoutLines.outline = tree.outline.withoutLines := by
  have forest := isForest_withoutLines h
  have entries : tree.withoutLines.entries = tree.entries.map (·.withoutLines) := by
    apply List.ext_getElem?
    intro i
    have commands : tree.withoutLines.commands[i]? = tree.commands[i]?.map (·.withoutLines) :=
      List.getElem?_map
    rw [getElem?_entries forest, List.getElem?_map, getElem?_entries h, commands]
    cases hc : tree.commands[i]? with
    | none => rfl
    | some c =>
      have hs := segments_of_nodes_eq h forest (nodes_withoutLines tree) (lt_length_of_getElem? hc)
      simp only [Option.map_some, hs]
      rfl
  rw [outline, entries]
  rfl

/-- Forests whose outlines differ in lines alone differ in lines alone. -/
theorem withoutLines_eq_of_outline {other : DeclarationTree} (h : tree.IsForest)
    (ho : other.IsForest) (he : tree.outline.withoutLines = other.outline.withoutLines) :
    tree.withoutLines = other.withoutLines := by
  apply eq_of_outline_eq (isForest_withoutLines h) (isForest_withoutLines ho)
  rw [outline_withoutLines h, outline_withoutLines ho, he]

end DeclarationTree

end CommandLanguage

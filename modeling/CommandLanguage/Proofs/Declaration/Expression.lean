import CommandLanguage.Proofs.Declaration.Building

/-!
# Every tree of declarations has a source

A tree whose names are identifiers and whose texts fit between quotes can be written as a source.
The commands of a forest stand behind those above them, so that each path is entered where only its
last name is missing, and reading the source gives back the tree with other lines.
-/

set_option autoImplicit false

namespace CommandLanguage

open Text

structure Topic.Writable (topic : Topic) : Prop where
  name : IsIdentifier topic.name
  description : topic.description.IsPlain
  body : ∀ text ∈ topic.body, text.IsPlain

/-- The attributes have different names, and each of them can be written. -/
structure WritableAttributes (attributes : KeyedList AttributeEntry) : Prop where
  distinct : (KeyedList.names attributes).Nodup
  entries : ∀ entry ∈ attributes, IsIdentifier entry.1 ∧ entry.2.value.Writable

structure CommandDeclaration.Writable (command : CommandDeclaration) : Prop where
  name : IsIdentifier command.name
  description : command.description.IsPlain
  flags : ∀ flag ∈ command.flags, flag.Writable
  args : ∀ argument ∈ command.args, argument.Writable
  examples : ∀ text ∈ command.examples, text.IsPlain
  attributes : WritableAttributes command.attributes

/-- Names, kinds and short aliases are identifiers, and every other text fits between quotes. -/
structure DeclarationTree.Writable (tree : DeclarationTree) : Prop where
  app : ∀ identity ∈ tree.app, identity.name.IsPlain ∧ identity.tagline.IsPlain
  globalFlags : ∀ flag ∈ tree.globalFlags, flag.Writable
  globalAttributes : WritableAttributes tree.globalAttributes
  commands : ∀ command ∈ tree.commands, command.Writable
  topics : ∀ topic ∈ tree.topics, topic.Writable

section Writable

theorem writable_assignments {attributes : KeyedList AttributeEntry}
    (h : WritableAttributes attributes) :
    ∀ statement ∈ Statement.assignments attributes, statement.Writable :=
  List.forall_mem_map.mpr h.entries

theorem Topic.Writable.statements {topic : Topic} (h : topic.Writable) :
    ∀ statement ∈ topic.statements, statement.Writable := by
  refine List.forall_mem_cons.mpr ⟨⟨h.name, h.description⟩, List.forall_mem_map.mpr ?_⟩
  exact fun text ht => h.body text (Option.mem_toList.mp ht)

theorem CommandDeclaration.Writable.statements {command : CommandDeclaration}
    (h : command.Writable) {path : List Text} (nonempty : path ≠ [])
    (names : ∀ name ∈ path, IsIdentifier name) :
    ∀ statement ∈ (command.entry path).statements, statement.Writable := by
  have described : ∀ text ∈ some command.description, text.IsPlain := by
    rintro _ ⟨⟩
    exact h.description
  refine List.forall_mem_cons.mpr ⟨⟨nonempty, names, described⟩, ?_⟩
  refine List.forall_mem_append.mpr ⟨List.forall_mem_map.mpr h.flags, ?_⟩
  refine List.forall_mem_append.mpr ⟨List.forall_mem_map.mpr h.args, ?_⟩
  refine List.forall_mem_append.mpr ⟨List.forall_mem_map.mpr h.examples, ?_⟩
  exact writable_assignments h.attributes

end Writable

namespace DeclarationTree

variable {tree : DeclarationTree}

theorem isIdentifier_of_mem_climb {commands : List CommandDeclaration}
    (named : ∀ c ∈ commands, IsIdentifier c.name) {steps i : Nat} :
    ∀ name ∈ climb commands steps i, IsIdentifier name := by
  induction steps generalizing i with
  | zero => exact List.forall_mem_nil _
  | succ steps ih =>
    unfold climb
    split
    · exact List.forall_mem_nil _
    · next c hc =>
      have own := List.forall_mem_singleton.mpr (named c (List.mem_of_getElem? hc))
      split
      · exact own
      · exact List.forall_mem_append.mpr ⟨ih, own⟩

theorem tail_inits_concat (path : List Text) (name : Text) :
    (path ++ [name]).inits.tail = path.inits.tail ++ [path ++ [name]] := by
  have nonempty : path.inits ≠ [] :=
    List.ne_nil_of_mem ((List.mem_inits [] path).mpr List.nil_prefix)
  rw [List.inits_append, List.tail_append_of_ne_nil nonempty]
  rfl

section Forest
variable (h : tree.IsForest)
include h

theorem exists_of_mem_inits {i : Nat} {c : CommandDeclaration} (hc : tree.commands[i]? = some c)
    {start : List Text} (hs : start ∈ (tree.pathOf c.parent).inits.tail) :
    ∃ j < i, tree.segments j = start := by
  -- Up to the parent, which stands before the command.
  induction i using Nat.strongRecOn generalizing c with
  | ind i ih =>
    cases hp : c.parent with
    | none =>
      rw [hp] at hs
      cases hs
    | some p =>
      have hlt := h.arranged.parent_lt i p c hc hp
      obtain ⟨above, ha⟩ : ∃ above, tree.commands[p]? = some above :=
        ⟨_, List.getElem?_eq_getElem (Nat.lt_trans hlt (lt_length_of_getElem? hc))⟩
      have path : tree.pathOf c.parent = tree.pathOf above.parent ++ [above.name] := by
        rw [hp]
        exact segments_eq h ha
      rw [path, tail_inits_concat] at hs
      rcases List.mem_append.mp hs with hs | hs
      · obtain ⟨j, hj, he⟩ := ih p hlt ha hs
        exact ⟨j, Nat.lt_trans hj hlt, he⟩
      · rw [List.mem_singleton.mp hs]
        exact ⟨p, hlt, segments_eq h ha⟩

section Before
variable {done rest : List Entry} {e : Entry} (he : tree.entries = done ++ e :: rest)
include he

theorem mem_paths_before {path : List Text} :
    path ∈ done.map (·.path) ↔ ∃ j < done.length, tree.segments j = path := by
  have entry {j : Nat} (hj : j < done.length) :
      done[j]? = tree.commands[j]?.map fun c => c.entry (tree.segments j) := by
    rw [← getElem?_entries h, he, List.getElem?_append_left hj]
  constructor
  · intro hp
    obtain ⟨d, hd, rfl⟩ := List.mem_map.mp hp
    obtain ⟨j, hj⟩ := List.getElem?_of_mem hd
    have bound := (List.getElem?_eq_some_iff.mp hj).1
    rw [entry bound] at hj
    obtain ⟨c, _, rfl⟩ := Option.map_eq_some_iff.mp hj
    exact ⟨j, bound, rfl⟩
  · rintro ⟨j, bound, rfl⟩
    have hd := List.getElem?_eq_getElem bound
    rw [entry bound] at hd
    obtain ⟨c, _, hc⟩ := Option.map_eq_some_iff.mp hd
    refine List.mem_map.mpr ⟨done[j], List.getElem_mem bound, ?_⟩
    rw [← hc]
    rfl

/-- Of the beginnings of a command's path, the entries before it lack the whole path alone. -/
theorem missing_before : Sketch.missing done e.path = [e.path] := by
  have here : tree.entries[done.length]? = some e := by
    rw [he, List.getElem?_append_right (Nat.le_refl _), Nat.sub_self]
    rfl
  rw [getElem?_entries h] at here
  obtain ⟨c, hc, rfl⟩ := Option.map_eq_some_iff.mp here
  have bound := lt_length_of_getElem? hc
  have path : (c.entry (tree.segments done.length)).path = tree.pathOf c.parent ++ [c.name] :=
    segments_eq h hc
  have known : ∀ start ∈ (tree.pathOf c.parent).inits.tail, start ∈ done.map (·.path) :=
    fun start hs => (mem_paths_before h he).mpr (exists_of_mem_inits h hc hs)
  have new : tree.pathOf c.parent ++ [c.name] ∉ done.map (·.path) := by
    rw [← path]
    intro hm
    obtain ⟨j, hj, same⟩ := (mem_paths_before h he).mp hm
    have := eq_of_segments_eq h (Nat.lt_trans hj bound) bound same
    omega
  have above : (tree.pathOf c.parent).inits.tail.filter (fun start => start ∉ done.map (·.path)) =
      [] := by
    refine List.filter_eq_nil_iff.mpr fun start hs => ?_
    simpa using known start hs
  rw [Sketch.missing, path, tail_inits_concat, List.filter_append, above, List.nil_append,
    List.filter_cons_of_pos (by simpa using new), List.filter_nil]

end Before

theorem writable_statements (writable : tree.Writable) :
    ∀ statement ∈ tree.outline.statements, statement.Writable := by
  refine List.forall_mem_append.mpr ⟨?_, List.forall_mem_append.mpr ⟨?_, ?_⟩⟩
  · refine List.forall_mem_append.mpr ⟨?_, List.forall_mem_append.mpr ⟨?_, ?_⟩⟩
    · exact List.forall_mem_map.mpr fun identity hi =>
        writable.app identity (Option.mem_toList.mp hi)
    · exact List.forall_mem_map.mpr writable.globalFlags
    · exact writable_assignments writable.globalAttributes
  · intro statement hs
    obtain ⟨topic, ht, hs⟩ := List.mem_flatMap.mp hs
    exact (writable.topics topic ht).statements statement hs
  · intro statement hs
    obtain ⟨e, he, hs⟩ := List.mem_flatMap.mp hs
    obtain ⟨c, hc, rfl⟩ := List.mem_map.mp he
    obtain ⟨i, hi⟩ := List.getElem?_of_mem hc
    rw [h.arranged.id_eq i c hi] at hs
    refine (writable.commands c hc).statements (segments_ne_nil h (lt_length_of_getElem? hi)) ?_
      statement hs
    exact isIdentifier_of_mem_climb fun c hc => (writable.commands c hc).name

end Forest

/-- A source of the tree, with a line for every declaration. -/
def source (tree : DeclarationTree) : Text := Statement.write tree.outline.statements

end DeclarationTree

/-- Every tree of declarations is read from a source, but for its lines. The commands have to form
a forest, the names have to be identifiers and the other texts have to fit between quotes. -/
theorem parse_source {tree : DeclarationTree} (arranged : tree.Arranged) (writable : tree.Writable) :
    ∃ read, parse tree.source = .ok read ∧ read.withoutLines = tree.withoutLines := by
  have forest := arranged.isForest
  have attributes : ∀ e ∈ tree.entries, (KeyedList.names e.attributes).Nodup := by
    intro e he
    obtain ⟨c, hc, rfl⟩ := List.mem_map.mp he
    exact (writable.commands c hc).attributes.distinct
  obtain ⟨scope, topic, builds⟩ := tree.outline.builds_statements writable.globalAttributes.distinct
    (fun _ _ _ he => DeclarationTree.missing_before forest he) attributes
  obtain ⟨read, parsed, readForest, outline⟩ :=
    builds.exists_parse_write (DeclarationTree.writable_statements forest writable)
  exact ⟨read, parsed, DeclarationTree.withoutLines_eq_of_outline readForest forest outline⟩

/-- Names that are keywords, a flag without an alias before a statement, topics with an empty body
and with none, and commands that were declared before what is global. -/
theorem parse_source_of_keywords :
    let tree : DeclarationTree := {
      app := some ⟨"flag", []⟩
      globalFlags := [⟨"global", none, "cmd", "true", 5⟩, ⟨"arg", some ("flag" : Text), "attr", [], 6⟩]
      globalAttributes := [("param", ⟨.int 9007199254740991, 7⟩), ("attr", ⟨.bool false, 7⟩)]
      commands := [
        { DeclarationTree.bareCommand 0 none "cmd" 1 with children := [1] },
        { DeclarationTree.bareCommand 1 (some 0) "text" 1 with
          description := "# a\\"
          flags := [⟨"example", none, "flag", [], 2⟩]
          args := [⟨"cmd", "string", []⟩]
          examples := [[]]
          attributes := [("true", ⟨.string [], 3⟩)] },
        DeclarationTree.bareCommand 2 none "name" 8]
      roots := [0, 2]
      topics := [⟨"topic", "x", none⟩, ⟨"text", [], some []⟩] }
    tree.Arranged ∧ tree.Writable ∧
      ∃ read, parse tree.source = .ok read ∧ read.withoutLines = tree.withoutLines := by
  intro tree
  have h : parse (("cmd cmd text \"# a\\\"\nflag example flag \"\"\nattr true = \"\"\n" : Text) ++
      ("example \"\" arg cmd string \"\" topic topic \"x\" topic text \"\" text \"\"\n" : Text) ++
      ("global flag global cmd \"true\"\nflag arg attr \"\" flag name \"flag\" \"\"\n" : Text) ++
      ("param param = 9007199254740991 attr attr = false\ncmd name" : Text)) = .ok tree := by
    decide +kernel
  have arranged := (DeclarationTree.isForest_of_parse h).arranged
  have bare {id : Nat} {parent : Option Nat} {name : Text} {line : Int} {children : List Nat}
      (named : IsIdentifier name) : CommandDeclaration.Writable
        { DeclarationTree.bareCommand id parent name line with children } :=
    ⟨named, by simp [DeclarationTree.bareCommand, IsPlain], List.forall_mem_nil _,
      List.forall_mem_nil _, List.forall_mem_nil _, ⟨List.nodup_nil, List.forall_mem_nil _⟩⟩
  have flag {name kind description : Text} {short : Option Text} {line : Int}
      (words : IsIdentifier name ∧ IsIdentifier kind ∧ ∀ word ∈ short, IsIdentifier word)
      (plain : description.IsPlain) :
      FlagDeclaration.Writable ⟨name, short, kind, description, line⟩ :=
    ⟨⟨words.1, words.2.2, words.2.1⟩, plain⟩
  have text : CommandDeclaration.Writable tree.commands[1] := by
    constructor
    · decide
    · decide
    · exact List.forall_mem_singleton.mpr (flag (by decide) (by decide))
    · exact List.forall_mem_singleton.mpr ⟨⟨by decide, by decide⟩, by decide⟩
    · decide
    · exact ⟨by decide, by decide⟩
  have writable : tree.Writable := by
    constructor
    · decide
    · simp only [tree, List.forall_mem_cons]
      exact ⟨flag (by decide) (by decide), flag (by decide) (by decide), List.forall_mem_nil _⟩
    · exact ⟨by decide, by decide⟩
    · exact List.forall_mem_cons.mpr ⟨bare (by decide), List.forall_mem_cons.mpr ⟨text,
        List.forall_mem_singleton.mpr (bare (by decide))⟩⟩
    · simp only [tree, List.forall_mem_cons]
      exact ⟨⟨by decide, by decide, by decide⟩, ⟨by decide, by decide, by decide⟩,
        List.forall_mem_nil _⟩
  exact ⟨arranged, writable, parse_source arranged writable⟩

end CommandLanguage

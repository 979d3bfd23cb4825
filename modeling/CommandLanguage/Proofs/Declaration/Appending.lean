import CommandLanguage.Proofs.Token.Appending

/-!
# Appending declarations

Every statement adds to a declaration tree and takes nothing away: commands, flags, arguments,
examples and topics come behind those that are there, and only the description of a command, the value
of an attribute and the body of a topic may change. A source that others follow is read as the same
statements, but for the description that its last command may take from behind it; so its tree is
extended.
-/

set_option autoImplicit false

namespace CommandLanguage

open Statement

/-- Names come behind those that are there; their values may differ. -/
def KeyedList.Extends {α : Type} (list other : KeyedList α) : Prop := names list <+: names other

/-- A later state of a command. -/
structure CommandDeclaration.Extends (c d : CommandDeclaration) : Prop where
  id_eq : d.id = c.id
  name_eq : d.name = c.name
  parent_eq : d.parent = c.parent
  line_eq : d.line = c.line
  flags : c.flags <+: d.flags
  args : c.args <+: d.args
  examples : c.examples <+: d.examples
  children : c.children <+: d.children
  attributes : KeyedList.Extends c.attributes d.attributes

/-- What cannot change about a topic. -/
def Topic.heading (topic : Topic) : Text × Text := (topic.name, topic.description)

/-- A later state of a tree. -/
structure DeclarationTree.Extends (tree other : DeclarationTree) : Prop where
  commands : ∀ (i : Nat) (c : CommandDeclaration), tree.commands[i]? = some c →
    ∃ d, other.commands[i]? = some d ∧ c.Extends d
  roots : tree.roots <+: other.roots
  globalFlags : tree.globalFlags <+: other.globalFlags
  topics : tree.topics.map Topic.heading <+: other.topics.map Topic.heading
  globalAttributes : KeyedList.Extends tree.globalAttributes other.globalAttributes
  app : ∀ identity, tree.app = some identity → other.app = some identity

theorem KeyedList.extends_assign {α : Type} (list : KeyedList α) (name : Text) (value : α) :
    Extends list (assign list name value) := by
  by_cases hm : name ∈ names list
  · rw [Extends, names_assign_of_mem value hm]
  · rw [Extends, names_assign_of_not_mem value hm]
    exact List.prefix_append _ _

namespace CommandDeclaration

variable {c d e : CommandDeclaration}

theorem Extends.refl (c : CommandDeclaration) : c.Extends c :=
  ⟨rfl, rfl, rfl, rfl, List.prefix_rfl, List.prefix_rfl, List.prefix_rfl, List.prefix_rfl,
    List.prefix_rfl⟩

theorem Extends.trans (h : c.Extends d) (h' : d.Extends e) : c.Extends e where
  id_eq := h'.id_eq.trans h.id_eq
  name_eq := h'.name_eq.trans h.name_eq
  parent_eq := h'.parent_eq.trans h.parent_eq
  line_eq := h'.line_eq.trans h.line_eq
  flags := h.flags.trans h'.flags
  args := h.args.trans h'.args
  examples := h.examples.trans h'.examples
  children := h.children.trans h'.children
  attributes := List.IsPrefix.trans h.attributes h'.attributes

end CommandDeclaration

namespace DeclarationTree

variable {tree other third : DeclarationTree}

theorem Extends.refl (tree : DeclarationTree) : tree.Extends tree :=
  ⟨fun _ c hc => ⟨c, hc, .refl c⟩, List.prefix_rfl, List.prefix_rfl, List.prefix_rfl, List.prefix_rfl,
    fun _ ha => ha⟩

theorem Extends.trans (h : tree.Extends other) (h' : other.Extends third) : tree.Extends third where
  commands := by
    intro i c hc
    obtain ⟨d, hd, hcd⟩ := h.commands i c hc
    obtain ⟨e, he, hde⟩ := h'.commands i d hd
    exact ⟨e, he, hcd.trans hde⟩
  roots := h.roots.trans h'.roots
  globalFlags := h.globalFlags.trans h'.globalFlags
  topics := h.topics.trans h'.topics
  globalAttributes := List.IsPrefix.trans h.globalAttributes h'.globalAttributes
  app identity ha := h'.app identity (h.app identity ha)

/-- Only commands and roots differ, and these come behind those that are there. -/
theorem extends_of_commands {commands : List CommandDeclaration} {roots : List Nat}
    (hc : ∀ (i : Nat) (c : CommandDeclaration), tree.commands[i]? = some c →
      ∃ d, commands[i]? = some d ∧ c.Extends d)
    (hr : tree.roots <+: roots) : tree.Extends { tree with commands, roots } :=
  ⟨hc, hr, List.prefix_rfl, List.prefix_rfl, List.prefix_rfl, fun _ ha => ha⟩

theorem extends_updateCommand {change : CommandDeclaration → CommandDeclaration}
    (h : ∀ c : CommandDeclaration, c.Extends (change c)) (tree : DeclarationTree) (id : Nat) :
    tree.Extends (tree.updateCommand id change) := by
  refine extends_of_commands ?_ List.prefix_rfl
  intro i c hc
  rw [List.getElem?_modify, hc]
  by_cases hi : id = i
  · exact ⟨change c, by simp [hi], h c⟩
  · exact ⟨c, by simp [hi], .refl c⟩

theorem extends_addChild (tree : DeclarationTree) (parent : Option Nat) (name : Text) (line : Int) :
    tree.Extends (tree.addChild parent name line) := by
  have kept : ∀ (i : Nat) (c : CommandDeclaration), tree.commands[i]? = some c →
      ∃ d, (tree.commands ++ [bareCommand tree.commands.length parent name line])[i]? = some d ∧
        c.Extends d := by
    intro i c hc
    have inside := (List.getElem?_eq_some_iff.mp hc).1
    exact ⟨c, by rwa [List.getElem?_append_left inside], .refl c⟩
  cases parent with
  | none => exact extends_of_commands kept (List.prefix_append _ _)
  | some above =>
    refine (extends_of_commands kept List.prefix_rfl).trans (extends_updateCommand ?_ _ above)
    intro c
    exact { CommandDeclaration.Extends.refl c with children := List.prefix_append _ _ }

theorem extends_enter (tree : DeclarationTree) (parent : Option Nat) (line : Int) (path : List Text) :
    tree.Extends (tree.enter parent line path).1 := by
  induction path generalizing tree parent with
  | nil => exact .refl tree
  | cons name path ih =>
    unfold enter
    split
    · exact ih tree _
    · exact (extends_addChild tree parent name line).trans (ih _ _)

end DeclarationTree

namespace Draft

open DeclarationTree

variable {draft : Draft} {statement : Statement} {statements : List Statement}

theorem extends_updateSelected {change : CommandDeclaration → CommandDeclaration}
    (h : ∀ c : CommandDeclaration, c.Extends (change c)) (draft : Draft) :
    draft.tree.Extends (draft.updateSelected change).tree := by
  unfold updateSelected
  split
  · exact .refl draft.tree
  · exact extends_updateCommand h draft.tree _

/-- What the optional description of a command adds to what its path adds. -/
theorem extends_describe (draft : Draft) (path : List Text) (description : Option Text) (line : Int) :
    (draft.apply (.command path none line)).tree.Extends
      (draft.apply (.command path description line)).tree := by
  cases description with
  | none => exact .refl _
  | some text =>
    apply extends_updateSelected
    intro c
    exact { CommandDeclaration.Extends.refl c with }

/-- The body of a topic is no part of its heading. -/
theorem heading_modify (topics : List Topic) (index : Nat) (text : Text) :
    (topics.modify index fun t => { t with body := some text }).map Topic.heading =
      topics.map Topic.heading := by
  apply List.ext_getElem?
  intro i
  rw [List.getElem?_map, List.getElem?_map, List.getElem?_modify]
  cases topics[i]? with
  | none => rfl
  | some topic => split <;> rfl

/-- A statement that is allowed takes nothing away. -/
theorem extends_apply (allowed : draft.sketch.Allows statement) :
    draft.tree.Extends (draft.apply statement).tree := by
  cases statement with
  | global => exact .refl draft.tree
  | command path description line =>
    exact (extends_enter draft.tree none line path).trans
      (extends_describe draft path description line)
  | flag flag =>
    cases hc : draft.command with
    | none =>
      simp only [apply, hc]
      exact { Extends.refl draft.tree with globalFlags := List.prefix_append _ _ }
    | some id =>
      simp only [apply, hc]
      apply extends_updateSelected
      intro c
      exact { CommandDeclaration.Extends.refl c with flags := List.prefix_append _ _ }
  | argument argument =>
    apply extends_updateSelected
    intro c
    exact { CommandDeclaration.Extends.refl c with args := List.prefix_append _ _ }
  | assignment name entry =>
    cases hc : draft.command with
    | none =>
      simp only [apply, hc]
      exact { Extends.refl draft.tree with globalAttributes := KeyedList.extends_assign _ name entry }
    | some id =>
      simp only [apply, hc]
      apply extends_updateSelected
      intro c
      exact { CommandDeclaration.Extends.refl c with
        attributes := KeyedList.extends_assign _ name entry }
  | identity identity =>
    refine { Extends.refl draft.tree with app := ?_ }
    intro given hg
    have absent : draft.tree.app = none := allowed.2
    rw [absent] at hg
    cases hg
  | exampleLine text =>
    apply extends_updateSelected
    intro c
    exact { CommandDeclaration.Extends.refl c with examples := List.prefix_append _ _ }
  | topic name description =>
    refine { Extends.refl draft.tree with topics := ?_ }
    simp only [apply, List.map_append]
    exact List.prefix_append _ _
  | topicBody text =>
    cases ht : draft.topic with
    | none =>
      simp only [apply, ht]
      exact .refl draft.tree
    | some index =>
      simp only [apply, ht]
      refine { Extends.refl draft.tree with topics := ?_ }
      rw [heading_modify]

section Runs
variable {tokens body others : List Token}

theorem extends_foldl (h : draft.IsSound) (reads : draft.Reads tokens statements) :
    draft.tree.Extends (statements.foldl apply draft).tree := by
  induction reads with
  | done => exact .refl _
  | @step draft _ _ statement _ _ read _ ih =>
    obtain ⟨_, _, _, allowed⟩ := spells_of_read h read
    exact (extends_apply allowed).trans (ih (isSound_apply h statement))

/-- What is read goes on with no string. -/
theorem Reads.plain (reads : draft.Reads tokens statements) :
    ∀ value place, tokens.head? ≠ some ⟨.string value, place⟩ := by
  intro value place he
  obtain ⟨rest, rfl⟩ := List.head?_eq_some_iff.mp he
  cases reads with
  | done complete => cases complete
  | step _ read _ => cases read

/-- What a statement takes from behind it takes nothing away. -/
theorem extends_absorb (draft : Draft) (statement : Statement) (rest : List Token) :
    (draft.apply statement).tree.Extends (draft.apply (absorb statement rest).1).tree := by
  unfold absorb
  split
  · exact extends_describe draft _ _ _
  · exact .refl _

/-- What goes on behind a token goes on before the others, if these stand on later lines. -/
theorem goesOn_before {token : Token} {behind : List Token} {line : Int}
    (apart : ∀ other ∈ others, token.line < other.line)
    (h : GoesOn token.line (behind ++ others)) :
    GoesOn token.line (behind ++ [⟨.endOfInput, line⟩]) := by
  obtain ⟨name, hn⟩ := h
  cases behind with
  | nil => exact absurd (apart _ (List.mem_of_head? hn)) (Int.lt_irrefl _)
  | cons next behind => exact ⟨name, hn⟩

/-- A run over some tokens reaches a tree that a run over more of them extends, if these stand on later
lines. -/
theorem extends_of_reads {line : Int} {more : List Statement} (h : draft.IsSound)
    (inside : ∀ token ∈ body, token.kind.isLast = false)
    (first : draft.Reads (body ++ [⟨.endOfInput, line⟩]) statements)
    (second : draft.Reads (body ++ others) more)
    (apart : ∀ token ∈ body, ∀ other ∈ others, token.line < other.line) :
    (statements.foldl apply draft).tree.Extends (more.foldl apply draft).tree := by
  -- Both runs read the same statement, until no token of the first run is left.
  generalize he : body ++ [⟨.endOfInput, line⟩] = tokens at first
  induction first generalizing body more with
  | done complete =>
    cases body with
    | nil => exact extends_foldl h second
    | cons token body =>
      subst he
      have last := inside token List.mem_cons_self
      rw [of_decide_eq_true complete] at last
      cases last
  | @step draft _ rest statement statements _ read reads ih =>
    obtain ⟨own, hown, spelled, allowed⟩ := spells_of_read h read
    obtain ⟨behind, rfl, rfl⟩ := spelled.exists_behind rfl (he.trans hown)
    obtain ⟨word, place, operands, howns⟩ := spelled.exists_word
    have goesOn : ∀ token ∈ own,
        GoesOn token.line (behind ++ others) → GoesOn token.line (behind ++ [⟨.endOfInput, line⟩]) :=
      fun token ht => goesOn_before (apart token (List.mem_append_left _ ht))
    have readMore := read_of_spells h (spelled.of_goesOn goesOn) allowed
    rw [List.append_assoc] at second
    cases second with
    | done complete =>
      rw [howns] at complete
      cases complete
    | step _ read' othersMore =>
      rw [readMore] at read'
      have taken := Except.ok.inj read'
      cases behind with
      | nil =>
        have described := extends_absorb draft statement others
        rw [List.nil_append] at taken
        rw [taken] at described
        cases reads with
        | done _ => exact described.trans (extends_foldl (isSound_apply h _) othersMore)
        | step unfinished _ _ => cases unfinished
      | cons next behind =>
        have plain : ∀ value place,
            (next :: behind ++ others).head? ≠ some ⟨.string value, place⟩ := reads.plain
        rw [absorb_of_plain plain] at taken
        cases taken
        refine ih (isSound_apply h statement) ?_ othersMore ?_ rfl
        · exact fun token ht => inside token (List.mem_append_right own ht)
        · exact fun token ht => apart token (List.mem_append_right own ht)

end Runs

end Draft

/-- If a source can be read alone and with more on the lines behind it, then what it declares is kept:
every command has its number, name, parent and line, and its flags, arguments, examples and commands
come first; so do the commands at the top, the global flags and the topics; the names of attributes keep
their places, and the program keeps its name. -/
theorem appended_source_extends {source more : Text} {tree grown : DeclarationTree}
    (h : parse source = .ok tree) (hmore : parse (source ++ Text.lineFeed :: more) = .ok grown) :
    tree.Extends grown := by
  obtain ⟨statements, reads, rfl⟩ := parse_eq_ok_iff.mp h
  obtain ⟨others, readsMore, rfl⟩ := parse_eq_ok_iff.mp hmore
  obtain ⟨faultless, _⟩ := reads_scan_iff.mp reads
  obtain ⟨behind, scanned, apart⟩ := exists_scan_append faultless more
  obtain ⟨body, ⟨kind, line⟩, he, hlast, inside⟩ := (Cursor.start source).exists_last
  have alone : scan source = body ++ [⟨kind, line⟩] := he
  rw [alone] at faultless
  have ended := TokenKind.eq_endOfInput hlast
    (faultless ⟨kind, line⟩ (List.mem_append_right body List.mem_cons_self))
  subst ended
  rw [alone, List.dropLast_concat] at scanned apart
  rw [alone] at reads
  rw [scanned] at readsMore
  exact Draft.extends_of_reads Draft.isSound_empty inside reads readsMore apart

/-- What is appended describes the last command, enters it again and replaces an attribute. -/
theorem appended_description_taken :
    ∃ tree grown, parse "cmd a\nattr n = 1\ncmd a b" = .ok tree ∧
      parse ("cmd a\nattr n = 1\ncmd a b" ++
        Text.lineFeed :: "\"B\"\nflag f bool \"\"\ncmd a \"A\"\nattr n = 2") = .ok grown ∧
      tree.commands.map (·.description) = [[], []] ∧
      grown.commands.map (·.description) = [("A" : Text), "B"] ∧ tree.Extends grown := by
  let tree : DeclarationTree :=
    { DeclarationTree.empty with
      commands := [
        { DeclarationTree.bareCommand 0 none "a" 1 with
          attributes := [("n", ⟨.int 1, 2⟩)]
          children := [1] },
        DeclarationTree.bareCommand 1 (some 0) "b" 3]
      roots := [0] }
  let grown : DeclarationTree :=
    { DeclarationTree.empty with
      commands := [
        { DeclarationTree.bareCommand 0 none "a" 1 with
          description := "A"
          attributes := [("n", ⟨.int 2, 7⟩)]
          children := [1] },
        { DeclarationTree.bareCommand 1 (some 0) "b" 3 with
          description := "B"
          flags := [⟨"f", none, "bool", [], 5⟩] }]
      roots := [0] }
  have h : parse "cmd a\nattr n = 1\ncmd a b" = .ok tree := by decide +kernel
  have hmore : parse ("cmd a\nattr n = 1\ncmd a b" ++
      Text.lineFeed :: "\"B\"\nflag f bool \"\"\ncmd a \"A\"\nattr n = 2") = .ok grown := by
    decide +kernel
  exact ⟨tree, grown, h, hmore, rfl, rfl, appended_source_extends h hmore⟩

end CommandLanguage

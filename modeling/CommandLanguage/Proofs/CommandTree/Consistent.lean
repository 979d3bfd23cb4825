import CommandLanguage.Compile
import CommandLanguage.Proofs.Declaration.Ancestry
import CommandLanguage.Proofs.Declaration.Names

/-!
# What holds of every compiled tree

Resolving keeps the forest of the declarations and their names. It adds the segments of each
command, and it accepts flags only if no spelling is taken twice in the scope of a command, to
which the global flags and the help flag belong.
-/

set_option autoImplicit false

namespace CommandLanguage

open Text

def Command.node (c : Command) : Node := ⟨c.id, c.name, c.parent, c.children⟩

/-- The flag keeps everything the declaration says, and its kind is known. -/
structure FlagDeclaration.Means (declared : FlagDeclaration) (flag : Flag) : Prop where
  name : flag.name = declared.name
  short : flag.short = declared.short
  kind : FlagKind.ofWord? declared.kind = some flag.kind
  description : flag.description = declared.description

namespace CommandTree

def nodes (tree : CommandTree) : List Node := tree.commands.map (·.node)

theorem getElem?_nodes {tree : CommandTree} {i : Nat} {node : Node} :
    tree.nodes[i]? = some node ↔ ∃ c, tree.commands[i]? = some c ∧ c.node = node := by
  simp [nodes]

section Flags
variable {scope : FlagScope} {taken : TakenNames} {declared : List FlagDeclaration}
variable {flags : List Flag}

/-- What accepting the first of some flags says about it and leaves for the others. -/
theorem checkFlags_cons {d : FlagDeclaration}
    (h : checkFlags scope taken (d :: declared) = .ok flags) :
    ∃ flag others, flags = flag :: others ∧ d.Means flag ∧ flag.name ∉ taken.names ∧
      (∀ short ∈ flag.short, short ∉ taken.shorts) ∧
      checkFlags scope ⟨flag.name :: taken.names, flag.short.toList ++ taken.shorts⟩ declared =
        .ok others := by
  unfold checkFlags at h
  split at h
  · cases h
  · next kind hk =>
    split at h
    · cases h
    · next hn =>
      split at h
      · cases h
      · next hs =>
        obtain ⟨others, ho, h⟩ := Statement.exists_of_bind_eq_ok h
        cases h
        refine ⟨_, others, rfl, ⟨rfl, rfl, hk, rfl⟩, hn, ?_, ho⟩
        simpa using Option.filter_eq_none_iff.mp hs

theorem means_of_checkFlags (h : checkFlags scope taken declared = .ok flags) :
    List.Forall₂ FlagDeclaration.Means declared flags := by
  induction declared generalizing taken flags with
  | nil => cases h; exact .nil
  | cons d declared ih =>
    obtain ⟨flag, others, rfl, hm, _, _, ho⟩ := checkFlags_cons h
    exact .cons hm (ih ho)

theorem nodup_names_of_checkFlags (h : checkFlags scope taken declared = .ok flags)
    (free : taken.names.Nodup) : (taken.names ++ flags.map (·.name)).Nodup := by
  induction declared generalizing taken flags with
  | nil => cases h; simpa using free
  | cons d declared ih =>
    obtain ⟨flag, others, rfl, _, hn, _, ho⟩ := checkFlags_cons h
    have := ih ho (List.nodup_cons.mpr ⟨hn, free⟩)
    exact List.perm_middle.nodup_iff.mpr this

theorem nodup_shorts_of_checkFlags (h : checkFlags scope taken declared = .ok flags)
    (free : taken.shorts.Nodup) : (taken.shorts ++ flags.filterMap (·.short)).Nodup := by
  induction declared generalizing taken flags with
  | nil => cases h; simpa using free
  | cons d declared ih =>
    obtain ⟨flag, others, rfl, _, _, hs, ho⟩ := checkFlags_cons h
    cases hshort : flag.short with
    | none =>
      rw [hshort] at ho
      simpa [hshort] using ih ho free
    | some short =>
      rw [hshort] at ho
      have := ih ho (List.nodup_cons.mpr ⟨hs short hshort, free⟩)
      rw [List.filterMap_cons_some hshort]
      exact List.perm_middle.nodup_iff.mpr this

end Flags

section Commands
variable {declared : DeclarationTree} {globalFlags : List Flag} {taken : KeyedList Text}
variable {declarations : List CommandDeclaration} {commands : List Command}

/-- The command that a declaration becomes: its flags were accepted beside the global ones. -/
def Becomes (declared : DeclarationTree) (globalFlags : List Flag) (d : CommandDeclaration)
    (c : Command) : Prop :=
  ∃ flags, checkFlags (.command (Text.join "/" (declared.segments d.id)))
      (TakenNames.ofFlags globalFlags) d.flags = .ok flags ∧
    c = commandOf d (declared.segments d.id) flags

theorem becomes_of_checkCommands
    (h : checkCommands declared globalFlags taken declarations = .ok commands) :
    List.Forall₂ (Becomes declared globalFlags) declarations commands := by
  induction declarations generalizing taken commands with
  | nil => cases h; exact .nil
  | cons d declarations ih =>
    obtain ⟨flags, hf, h⟩ := Statement.exists_of_bind_eq_ok h
    simp only at h
    split at h
    · cases h
    · obtain ⟨others, ho, h⟩ := Statement.exists_of_bind_eq_ok h
      cases h
      exact .cons ⟨flags, hf, rfl⟩ (ih ho)

theorem nodes_of_becomes (h : List.Forall₂ (Becomes declared globalFlags) declarations commands) :
    commands.map (·.node) = declarations.map (·.node) := by
  induction h with
  | nil => rfl
  | cons hd _ ih =>
    obtain ⟨flags, _, rfl⟩ := hd
    rw [List.map_cons, List.map_cons, ih]
    rfl

theorem exists_of_becomes (h : List.Forall₂ (Becomes declared globalFlags) declarations commands)
    {i : Nat} {c : Command} (hc : commands[i]? = some c) :
    ∃ d, declarations[i]? = some d ∧ Becomes declared globalFlags d c := by
  induction h generalizing i with
  | nil => cases hc
  | cons hd _ ih =>
    cases i with
    | zero => exact ⟨_, rfl, Option.some.inj hc ▸ hd⟩
    | succ i => exact ih hc

theorem climbs_of_becomes (forest : declared.IsForest)
    (h : List.Forall₂ (Becomes declared globalFlags) declared.commands commands)
    {i : Nat} {c : Command} (hc : commands[i]? = some c) :
    Node.Climbs (commands.map (·.node)) i c.segments := by
  obtain ⟨d, hd, flags, _, rfl⟩ := exists_of_becomes h hc
  have hid := forest.arranged.id_eq i d hd
  have climbs := DeclarationTree.climbs_segments forest (List.getElem?_eq_some_iff.mp hd).1
  rw [nodes_of_becomes h]
  rw [← hid] at climbs ⊢
  exact climbs

end Commands

/-- A flag that can be written with the alphabet of identifiers. -/
structure NamedFlag (flag : Flag) : Prop where
  name : IsIdentifier flag.name
  short : ∀ short ∈ flag.short, IsIdentifier short

/-- No two of the flags share a name or a short alias. -/
structure Unshared (flags : List Flag) : Prop where
  names : (flags.map (·.name)).Nodup
  shorts : (flags.filterMap (·.short)).Nodup

/-- What dispatching relies on. -/
structure Consistent (tree : CommandTree) : Prop where
  forest : Forest tree.nodes tree.roots
  named : ∀ c ∈ tree.commands, IsIdentifier c.name
  climbs : ∀ (i : Nat) (c : Command), tree.commands[i]? = some c →
    Node.Climbs tree.nodes i c.segments
  globalFlags_named : ∀ flag ∈ tree.globalFlags, NamedFlag flag
  flags_named : ∀ c ∈ tree.commands, ∀ flag ∈ c.flags, NamedFlag flag
  globalFlags_unshared : Unshared tree.globalFlags
  flags_unshared : ∀ c ∈ tree.commands, Unshared (tree.globalFlags ++ c.flags)

theorem namedFlag_of_means {declared : List FlagDeclaration} {flags : List Flag}
    (h : List.Forall₂ FlagDeclaration.Means declared flags) (hn : ∀ d ∈ declared, d.Named) :
    ∀ flag ∈ flags, NamedFlag flag := by
  induction h with
  | nil => simp
  | cons hm _ ih =>
    obtain ⟨hd, hn⟩ := List.forall_mem_cons.mp hn
    refine List.forall_mem_cons.mpr ⟨⟨?_, ?_⟩, ih hn⟩
    · rw [hm.name]
      exact hd.name
    · rw [hm.short]
      exact hd.short

theorem namedFlag_help : NamedFlag Flag.help := by
  refine ⟨by decide, ?_⟩
  rintro short ⟨⟩
  decide

/-- The tree is what the checks make of some declarations. -/
structure MadeOf (tree : CommandTree) (declared : DeclarationTree) : Prop where
  app : tree.app = declared.app
  flags : checkFlags .global (TakenNames.ofFlags [Flag.help]) declared.globalFlags =
    .ok tree.declaredFlags
  globalAttributes : tree.globalAttributes = KeyedList.mapValues (·.value) declared.globalAttributes
  commands : checkCommands declared tree.globalFlags [] declared.commands = .ok tree.commands
  roots : tree.roots = declared.roots
  topics : tree.topics = declared.topics
  kinds : collectKinds declared = .ok tree.attributeTable

theorem madeOf_of_resolve {declared : DeclarationTree} {tree : CommandTree}
    (h : resolve declared = .ok tree) : tree.MadeOf declared := by
  obtain ⟨globals, hg, h⟩ := Statement.exists_of_bind_eq_ok h
  obtain ⟨commands, hc, h⟩ := Statement.exists_of_bind_eq_ok h
  obtain ⟨table, ht, h⟩ := Statement.exists_of_bind_eq_ok h
  cases h
  exact
    { app := rfl
      flags := hg
      globalAttributes := rfl
      commands := hc
      roots := rfl
      topics := rfl
      kinds := ht }

theorem madeOf_of_compile {source : Text} {tree : CommandTree} (h : compile source = .ok tree) :
    ∃ declared, parse source = .ok declared ∧ tree.MadeOf declared := by
  obtain ⟨declared, hp, hr⟩ := Statement.exists_of_bind_eq_ok h
  exact ⟨declared, hp, madeOf_of_resolve hr⟩

theorem MadeOf.consistent {declared : DeclarationTree} {tree : CommandTree}
    (made : tree.MadeOf declared) (forest : declared.IsForest) (named : declared.Named) :
    tree.Consistent := by
  have becomes := becomes_of_checkCommands made.commands
  have names := nodup_names_of_checkFlags made.flags (by simp [TakenNames.ofFlags])
  have shorts := nodup_shorts_of_checkFlags made.flags (by simp [TakenNames.ofFlags, Flag.help])
  have member {c : Command} (hm : c ∈ tree.commands) :
      ∃ d ∈ declared.commands, Becomes declared tree.globalFlags d c := by
    obtain ⟨i, hi⟩ := List.getElem?_of_mem hm
    obtain ⟨d, hd, hb⟩ := exists_of_becomes becomes hi
    exact ⟨d, List.mem_of_getElem? hd, hb⟩
  refine ⟨?_, ?_, ?_, ?_, ?_, ⟨names, shorts⟩, ?_⟩
  · rw [made.roots, nodes, nodes_of_becomes becomes]
    exact forest
  · intro c hm
    obtain ⟨d, hd, flags, _, rfl⟩ := member hm
    exact (named.commands d hd).name
  · intro i c hi
    exact climbs_of_becomes forest becomes hi
  · exact List.forall_mem_cons.mpr ⟨namedFlag_help,
      namedFlag_of_means (means_of_checkFlags made.flags) named.globalFlags⟩
  · intro c hm
    obtain ⟨d, hd, flags, hf, rfl⟩ := member hm
    exact namedFlag_of_means (means_of_checkFlags hf) (named.commands d hd).flags
  · intro c hm
    obtain ⟨d, hd, flags, hf, rfl⟩ := member hm
    refine ⟨?_, ?_⟩
    · rw [List.map_append]
      exact nodup_names_of_checkFlags hf names
    · rw [List.filterMap_append]
      exact nodup_shorts_of_checkFlags hf shorts

theorem consistent_of_compile {source : Text} {tree : CommandTree}
    (h : compile source = .ok tree) : tree.Consistent := by
  obtain ⟨declared, hp, made⟩ := madeOf_of_compile h
  exact made.consistent (DeclarationTree.isForest_of_parse hp) (DeclarationTree.named_of_parse hp)

end CommandTree

end CommandLanguage

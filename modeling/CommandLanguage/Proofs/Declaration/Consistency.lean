import CommandLanguage.CommandTree.Resolve
import CommandLanguage.Proofs.Declaration.Ancestry
import Mathlib.Data.List.Pairwise

/-!
# Contradictions between declarations

Declarations are taken in a fixed order, and each may contradict those before it: a flag by its
kind or by a spelling that is taken in its scope, a command by its identifier, an attribute by the
kind of its value. No declaration contradicts the earlier ones exactly if the declarations are
consistent in the sense of `DeclarationTree.IsConsistent`, which knows no order.
-/

set_option autoImplicit false

namespace CommandLanguage

/-- What a tree declares and may contradict; a flag without an owner is global. -/
inductive Declared where
  | flag (owner : Option Nat) (declaration : FlagDeclaration)
  | identifier (command : CommandDeclaration)
  | assignment (name : Text) (entry : AttributeEntry)
  deriving DecidableEq

namespace Declared

def line : Declared → Int
  | .flag _ d => d.line
  | .identifier command => command.line
  | .assignment _ entry => entry.line

/-- The flag is one of the scope of an owner: it is global or has that owner. -/
def InScope (before : List Declared) (owner : Option Nat) (declaration : FlagDeclaration) : Prop :=
  ∃ other, .flag other declaration ∈ before ∧ (other = none ∨ other = owner)

/-- The name is that of the help flag or of an earlier flag of the scope. -/
def TakenName (before : List Declared) (owner : Option Nat) (name : Text) : Prop :=
  name = "help" ∨ ∃ d, InScope before owner d ∧ d.name = name

/-- The alias is that of the help flag or of an earlier flag of the scope. -/
def TakenShort (before : List Declared) (owner : Option Nat) (short : Text) : Prop :=
  short = "h" ∨ ∃ d, InScope before owner d ∧ d.short = some short

end Declared

def FlagDeclaration.HasKnownKind (flag : FlagDeclaration) : Prop :=
  flag.kind = "bool" ∨ flag.kind = "string"

def FlagDeclaration.Differs (flag other : FlagDeclaration) : Prop :=
  flag.name ≠ other.name ∧ ∀ short, flag.short = some short → other.short ≠ some short

/-- The flag has a known kind and no spelling of the help flag. -/
structure FlagDeclaration.StandsAlone (flag : FlagDeclaration) : Prop where
  kind : flag.HasKnownKind
  name : flag.name ≠ "help"
  short : flag.short ≠ some ("h" : Text)

/-- The kinds of the flags are known, and no spelling is one of another flag or of the help flag. -/
structure ConsistentFlags (flags : List FlagDeclaration) : Prop where
  kinds : ∀ flag ∈ flags, flag.HasKnownKind
  names : (("help" : Text) :: flags.map (·.name)).Nodup
  shorts : (("h" : Text) :: flags.filterMap (·.short)).Nodup

namespace DeclarationTree

/-- The scope of the flags of an owner, as messages name it. -/
def scope (tree : DeclarationTree) : Option Nat → FlagScope
  | none => .global
  | some id => .command (Text.join "/" (tree.segments id))

def path (tree : DeclarationTree) (command : CommandDeclaration) : Text :=
  Text.join "/" (tree.segments command.id)

def identifier (tree : DeclarationTree) (command : CommandDeclaration) : Text :=
  Text.pathIdentifier (tree.segments command.id)

/-- The entries of the global and of all commands' attributes. -/
def attributeEntries (tree : DeclarationTree) : KeyedList AttributeEntry :=
  tree.globalAttributes ++ tree.commands.flatMap (·.attributes)

/-- The flags of every scope are consistent, where the global flags belong to the scope of each
command; no two commands share an identifier; and no attribute has values of two kinds. -/
structure IsConsistent (tree : DeclarationTree) : Prop where
  globalFlags : ConsistentFlags tree.globalFlags
  flags : ∀ c ∈ tree.commands, ConsistentFlags (tree.globalFlags ++ c.flags)
  identifiers : (tree.commands.map tree.identifier).Nodup
  attributes : ∀ entry ∈ tree.attributeEntries, ∀ other ∈ tree.attributeEntries,
    entry.1 = other.1 → entry.2.value.kind = other.2.value.kind

def declaredBy (command : CommandDeclaration) : List Declared :=
  command.flags.map (.flag (some command.id)) ++ [.identifier command]

/-- All attributes, the global ones first and then those of commands from the top down. -/
def assignments (tree : DeclarationTree) : List Declared :=
  (tree.globalAttributes ++ tree.walk.flatMap (·.attributes)).map fun entry =>
    .assignment entry.1 entry.2

/-- The global flags, the flags and then the identifier of each command in order, the attributes. -/
def declared (tree : DeclarationTree) : List Declared :=
  tree.globalFlags.map (.flag none) ++ (tree.commands.flatMap declaredBy ++ tree.assignments)

/-- How a declaration contradicts the ones before it. Of a flag the kind counts before the name and
the name before the alias. -/
inductive Contradicts (tree : DeclarationTree) (before : List Declared) :
    Declared → ConsistencyFault → Prop where
  | kind {owner : Option Nat} {flag : FlagDeclaration} (unknown : ¬ flag.HasKnownKind) :
      Contradicts tree before (.flag owner flag) (.unsupportedKind flag.name flag.kind)
  | name {owner : Option Nat} {flag : FlagDeclaration} (known : flag.HasKnownKind)
      (taken : Declared.TakenName before owner flag.name) :
      Contradicts tree before (.flag owner flag) (.duplicateFlag flag.name (tree.scope owner))
  | short {owner : Option Nat} {flag : FlagDeclaration} {short : Text}
      (known : flag.HasKnownKind) (free : ¬ Declared.TakenName before owner flag.name)
      (given : flag.short = some short) (taken : Declared.TakenShort before owner short) :
      Contradicts tree before (.flag owner flag) (.duplicateShort short (tree.scope owner))
  | identifier {command other : CommandDeclaration} (earlier : .identifier other ∈ before)
      (same : tree.identifier other = tree.identifier command) :
      Contradicts tree before (.identifier command)
        (.sharedIdentifier (tree.path other) (tree.path command) (tree.identifier command))
  | assignment {name : Text} {entry other : AttributeEntry} (earlier : .assignment name other ∈ before)
      (differ : other.value.kind ≠ entry.value.kind) :
      Contradicts tree before (.assignment name entry)
        (.conflictingKinds name other.value.kind entry.value.kind)

/-- None of some declarations contradicts the ones before it. -/
def Coherent (tree : DeclarationTree) (items : List Declared) : Prop :=
  ∀ before item after, items = before ++ item :: after → ∀ fault, ¬ tree.Contradicts before item fault

/-- Going through some declarations, behind others, up to the first that contradicts earlier ones. -/
inductive Finds (tree : DeclarationTree) :
    List Declared → List Declared → Option CompileError → Prop where
  | nothing {before : List Declared} : Finds tree before [] none
  | here {before rest : List Declared} {item : Declared} {fault : ConsistencyFault}
      (contradicts : tree.Contradicts before item fault) :
      Finds tree before (item :: rest) (some (.semantic fault item.line))
  | later {before rest : List Declared} {item : Declared} {found : Option CompileError}
      (fits : ∀ fault, ¬ tree.Contradicts before item fault)
      (others : Finds tree (before ++ [item]) rest found) : Finds tree before (item :: rest) found

/-- A declaration contradicts nothing by itself; only a flag can. -/
def Fits : Declared → Prop
  | .flag _ d => d.StandsAlone
  | _ => True

/-- An earlier declaration and a later one do not contradict each other. -/
def Agrees (tree : DeclarationTree) : Declared → Declared → Prop
  | .flag owner d, .flag other e => owner = none ∨ owner = other → d.Differs e
  | .identifier c, .identifier d => tree.identifier c ≠ tree.identifier d
  | .assignment name entry, .assignment other another =>
    name = other → entry.value.kind = another.value.kind
  | _, _ => True

variable {tree : DeclarationTree} {before items others : List Declared} {item : Declared}
variable {found : Option CompileError} {e : CompileError}

theorem Finds.append (h : tree.Finds before items none)
    (ho : tree.Finds (before ++ items) others found) : tree.Finds before (items ++ others) found := by
  generalize hn : (none : Option CompileError) = nothing at h
  induction h with
  | nothing => simpa using ho
  | here => cases hn
  | later fits _ ih =>
    refine .later fits (ih ?_ hn)
    simpa using ho

theorem Finds.append_of_some (h : tree.Finds before items (some e)) :
    tree.Finds before (items ++ others) (some e) := by
  generalize hs : some e = found at h
  induction h with
  | nothing => cases hs
  | here contradicts => exact .here contradicts
  | later fits _ ih => exact .later fits (ih hs)

theorem Finds.exists_first (h : tree.Finds before items (some e)) :
    ∃ passed item rest fault, items = passed ++ item :: rest ∧ tree.Finds before passed none ∧
      tree.Contradicts (before ++ passed) item fault ∧ e = .semantic fault item.line := by
  generalize hs : some e = found at h
  induction h with
  | nothing => cases hs
  | @here _ rest item fault contradicts =>
    cases hs
    exact ⟨[], item, rest, fault, rfl, .nothing, by simpa using contradicts, rfl⟩
  | @later _ _ item _ fits _ ih =>
    obtain ⟨passed, other, rest, fault, rfl, hp, hc, he⟩ := ih hs
    exact ⟨item :: passed, other, rest, fault, rfl, .later fits hp, by simpa using hc, he⟩

theorem finds_cons_none : tree.Finds before (item :: items) none ↔
    (∀ fault, ¬ tree.Contradicts before item fault) ∧ tree.Finds (before ++ [item]) items none := by
  constructor
  · intro h
    cases h with
    | later fits others => exact ⟨fits, others⟩
  · rintro ⟨fits, others⟩
    exact .later fits others

theorem Finds.not_contradicts (h : tree.Finds before items none) :
    ∀ passed item rest, items = passed ++ item :: rest →
      ∀ fault, ¬ tree.Contradicts (before ++ passed) item fault := by
  induction items generalizing before with
  | nil => simp
  | cons first items ih =>
    obtain ⟨fits, others⟩ := finds_cons_none.mp h
    intro passed item rest he
    cases passed with
    | nil =>
      cases he
      simpa using fits
    | cons _ passed =>
      cases he
      simpa using ih others passed item rest rfl

theorem Finds.coherent (h : tree.Finds [] items none) : tree.Coherent items :=
  h.not_contradicts

theorem flag_not_contradicts_iff {owner : Option Nat} {d : FlagDeclaration} :
    (∀ fault, ¬ tree.Contradicts before (.flag owner d) fault) ↔ d.HasKnownKind ∧
      ¬ Declared.TakenName before owner d.name ∧
      ∀ short, d.short = some short → ¬ Declared.TakenShort before owner short := by
  constructor
  · intro h
    have known : d.HasKnownKind := by
      by_contra unknown
      exact h _ (.kind unknown)
    have free : ¬ Declared.TakenName before owner d.name := fun taken => h _ (.name known taken)
    exact ⟨known, free, fun short given taken => h _ (.short known free given taken)⟩
  · rintro ⟨known, free, unused⟩ fault h
    cases h with
    | kind unknown => exact unknown known
    | name _ taken => exact free taken
    | short _ _ given taken => exact unused _ given taken

theorem forall_not_contradicts_iff : (∀ fault, ¬ tree.Contradicts before item fault) ↔
    Fits item ∧ ∀ other ∈ before, tree.Agrees other item := by
  cases item with
  | flag owner d =>
    rw [flag_not_contradicts_iff]
    constructor
    · rintro ⟨known, free, unused⟩
      refine ⟨⟨known, fun he => free (.inl he), fun given => unused _ given (.inl rfl)⟩, ?_⟩
      intro other hm
      cases other with
      | flag another f =>
        intro shared
        have scope : Declared.InScope before owner f := ⟨another, hm, shared⟩
        exact ⟨fun he => free (.inr ⟨f, scope, he⟩),
          fun short hf given => unused short given (.inr ⟨f, scope, hf⟩)⟩
      | _ => trivial
    · rintro ⟨⟨known, named, unlike⟩, agrees⟩
      refine ⟨known, ?_, ?_⟩
      · rintro (he | ⟨f, ⟨another, hm, shared⟩, he⟩)
        · exact named he
        · exact (agrees _ hm shared).1 he
      · rintro short given (rfl | ⟨f, ⟨another, hm, shared⟩, hf⟩)
        · exact unlike given
        · exact (agrees _ hm shared).2 short hf given
  | identifier c =>
    constructor
    · intro h
      refine ⟨trivial, fun other hm => ?_⟩
      cases other with
      | identifier d => exact fun same => h _ (.identifier hm same)
      | _ => trivial
    · rintro ⟨_, agrees⟩ fault h
      cases h with
      | identifier earlier same => exact agrees _ earlier same
  | assignment name entry =>
    constructor
    · intro h
      refine ⟨trivial, fun other hm => ?_⟩
      cases other with
      | assignment another first =>
        rintro rfl
        by_contra differ
        exact h _ (.assignment hm differ)
      | _ => trivial
    · rintro ⟨_, agrees⟩ fault h
      cases h with
      | assignment earlier differ => exact differ (agrees _ earlier rfl)

theorem finds_none_iff : tree.Finds before items none ↔
    (∀ item ∈ items, Fits item ∧ ∀ other ∈ before, tree.Agrees other item) ∧
      items.Pairwise tree.Agrees := by
  induction items generalizing before with
  | nil => simp [Finds.nothing]
  | cons item items ih =>
    rw [finds_cons_none, ih, forall_not_contradicts_iff]
    simp only [List.forall_mem_cons, List.pairwise_cons, List.forall_mem_append,
      List.not_mem_nil, false_implies, implies_true, and_true]
    constructor
    · rintro ⟨first, others, pairs⟩
      exact ⟨⟨first, fun d hd => ⟨(others d hd).1, (others d hd).2.1⟩⟩,
        fun d hd => (others d hd).2.2, pairs⟩
    · rintro ⟨⟨first, others⟩, agrees, pairs⟩
      exact ⟨first, fun d hd => ⟨(others d hd).1, (others d hd).2, agrees d hd⟩, pairs⟩

theorem consistentFlags_iff {flags : List FlagDeclaration} : ConsistentFlags flags ↔
    (∀ flag ∈ flags, flag.StandsAlone) ∧ flags.Pairwise FlagDeclaration.Differs := by
  have pairs : flags.Pairwise FlagDeclaration.Differs ↔
      (flags.map (·.name)).Nodup ∧ (flags.filterMap (·.short)).Nodup := by
    unfold List.Nodup
    rw [List.pairwise_map, List.pairwise_filterMap, ← List.pairwise_and_iff]
    refine List.Pairwise.iff fun f g => and_congr_right fun _ => ?_
    constructor
    · rintro differs short hf _ hg rfl
      exact differs short hf hg
    · intro differs short hf hg
      exact differs short hf short hg rfl
  rw [pairs]
  constructor
  · rintro ⟨kinds, names, shorts⟩
    obtain ⟨hname, names⟩ := List.nodup_cons.mp names
    obtain ⟨hshort, shorts⟩ := List.nodup_cons.mp shorts
    refine ⟨fun f hf => ⟨kinds f hf, ?_, ?_⟩, names, shorts⟩
    · exact fun he => hname (List.mem_map.mpr ⟨f, hf, he⟩)
    · exact fun he => hshort (List.mem_filterMap.mpr ⟨f, hf, he⟩)
  · rintro ⟨alone, names, shorts⟩
    refine ⟨fun f hf => (alone f hf).kind, List.nodup_cons.mpr ⟨?_, names⟩,
      List.nodup_cons.mpr ⟨?_, shorts⟩⟩
    · intro hm
      obtain ⟨f, hf, he⟩ := List.mem_map.mp hm
      exact (alone f hf).name he
    · intro hm
      obtain ⟨f, hf, he⟩ := List.mem_filterMap.mp hm
      exact (alone f hf).short he

theorem agrees_declaredBy {c d : CommandDeclaration} (hne : c.id ≠ d.id) :
    (∀ x ∈ declaredBy c, ∀ y ∈ declaredBy d, tree.Agrees x y) ↔
      tree.identifier c ≠ tree.identifier d := by
  simp only [declaredBy, List.forall_mem_append, List.forall_mem_map, List.forall_mem_singleton,
    Agrees]
  simp [hne]

theorem distinct_ids (h : tree.IsForest) : tree.commands.Pairwise fun c d => c.id ≠ d.id := by
  rw [List.pairwise_iff_getElem]
  intro i j hi hj hij
  rw [h.arranged.id_eq i _ (List.getElem?_eq_getElem hi),
    h.arranged.id_eq j _ (List.getElem?_eq_getElem hj)]
  exact Nat.ne_of_lt hij

theorem pairwise_declaredBy (h : tree.IsForest) :
    (tree.commands.flatMap declaredBy).Pairwise tree.Agrees ↔
      (∀ c ∈ tree.commands, c.flags.Pairwise FlagDeclaration.Differs) ∧
        (tree.commands.map tree.identifier).Nodup := by
  have ids := distinct_ids h
  rw [List.pairwise_flatMap]
  refine and_congr (forall₂_congr fun c _ => ?_) ?_
  · simp [declaredBy, List.pairwise_append, List.pairwise_map, Agrees]
  · rw [List.Nodup, List.pairwise_map]
    constructor
    · intro pairs
      exact (pairs.and ids).imp fun hp => (agrees_declaredBy hp.2).mp hp.1
    · intro pairs
      exact (pairs.and ids).imp fun hp => (agrees_declaredBy hp.2).mpr hp.1

/-- The walk from the top down reaches the attributes of all commands. -/
theorem mem_walked_attributes (h : tree.IsForest) {entry : Text × AttributeEntry} :
    entry ∈ tree.globalAttributes ++ tree.walk.flatMap (·.attributes) ↔
      entry ∈ tree.attributeEntries := by
  simp only [attributeEntries, List.mem_append, List.mem_flatMap, mem_walk_iff h]

theorem pairwise_assignments (h : tree.IsForest) : tree.assignments.Pairwise tree.Agrees ↔
    ∀ entry ∈ tree.attributeEntries, ∀ other ∈ tree.attributeEntries, entry.1 = other.1 →
      entry.2.value.kind = other.2.value.kind := by
  simp only [← mem_walked_attributes h]
  rw [assignments, List.pairwise_map]
  constructor
  · intro pairs
    apply pairs.forall_of_forall_of_flip
    · exact fun _ _ _ => rfl
    · exact pairs.imp fun agree he => (agree he.symm).symm
  · intro agree
    exact List.pairwise_iff_forall_sublist.mpr fun hs =>
      agree _ (hs.subset (by simp)) _ (hs.subset (by simp))

theorem fits_declared : (∀ item ∈ tree.declared, Fits item) ↔
    (∀ f ∈ tree.globalFlags, f.StandsAlone) ∧
      ∀ c ∈ tree.commands, ∀ f ∈ c.flags, f.StandsAlone := by
  simp only [declared, declaredBy, assignments, List.forall_mem_append, List.forall_mem_map,
    List.forall_mem_flatMap, List.forall_mem_singleton, Fits, implies_true, and_true]

theorem pairwise_declared (h : tree.IsForest) : tree.declared.Pairwise tree.Agrees ↔
    tree.globalFlags.Pairwise FlagDeclaration.Differs ∧
      (∀ c ∈ tree.commands, c.flags.Pairwise FlagDeclaration.Differs ∧
        ∀ f ∈ tree.globalFlags, ∀ g ∈ c.flags, f.Differs g) ∧
      (tree.commands.map tree.identifier).Nodup ∧
      ∀ entry ∈ tree.attributeEntries, ∀ other ∈ tree.attributeEntries,
        entry.1 = other.1 → entry.2.value.kind = other.2.value.kind := by
  have outer : (∀ x ∈ tree.globalFlags.map (Declared.flag none),
      ∀ y ∈ tree.commands.flatMap declaredBy ++ tree.assignments, tree.Agrees x y) ↔
      ∀ f ∈ tree.globalFlags, ∀ c ∈ tree.commands, ∀ g ∈ c.flags, f.Differs g := by
    simp only [declaredBy, assignments, List.forall_mem_append, List.forall_mem_map,
      List.forall_mem_flatMap, List.forall_mem_singleton, Agrees, true_or, true_implies,
      implies_true, and_true]
  have inner : ∀ x ∈ tree.commands.flatMap declaredBy, ∀ y ∈ tree.assignments,
      tree.Agrees x y := by
    simp only [declaredBy, assignments, List.forall_mem_append, List.forall_mem_map,
      List.forall_mem_flatMap, List.forall_mem_singleton, Agrees, implies_true, and_true]
  have globals : (tree.globalFlags.map (Declared.flag none)).Pairwise tree.Agrees ↔
      tree.globalFlags.Pairwise FlagDeclaration.Differs := by
    simp only [List.pairwise_map, Agrees, true_or, true_implies]
  rw [declared, List.pairwise_append, List.pairwise_append, pairwise_declaredBy h,
    pairwise_assignments h, globals, outer]
  constructor
  · rintro ⟨pg, ⟨⟨pl, identifiers⟩, attributes, _⟩, cross⟩
    exact ⟨pg, fun c hc => ⟨pl c hc, fun f hf => cross f hf c hc⟩, identifiers, attributes⟩
  · rintro ⟨pg, pl, identifiers, attributes⟩
    exact ⟨pg, ⟨⟨fun c hc => (pl c hc).1, identifiers⟩, attributes, inner⟩,
      fun f hf c hc => (pl c hc).2 f hf⟩

/-- Consistency in any order is the absence of a contradiction in the given one. -/
theorem isConsistent_iff (h : tree.IsForest) :
    tree.IsConsistent ↔ tree.Finds [] tree.declared none := by
  have alone : (∀ item ∈ tree.declared, Fits item ∧ ∀ other ∈ [], tree.Agrees other item) ↔
      ∀ item ∈ tree.declared, Fits item := by simp
  rw [finds_none_iff, alone, fits_declared, pairwise_declared h]
  constructor
  · rintro ⟨globals, locals, identifiers, attributes⟩
    obtain ⟨hg, pg⟩ := consistentFlags_iff.mp globals
    have split {c : CommandDeclaration} (hc : c ∈ tree.commands) :=
      consistentFlags_iff.mp (locals c hc)
    refine ⟨⟨hg, fun c hc f hf => (split hc).1 f (List.mem_append_right _ hf)⟩, pg,
      fun c hc => (List.pairwise_append.mp (split hc).2).2, identifiers, attributes⟩
  · rintro ⟨⟨hg, hl⟩, pg, pl, identifiers, attributes⟩
    refine ⟨consistentFlags_iff.mpr ⟨hg, pg⟩, fun c hc => consistentFlags_iff.mpr ⟨?_, ?_⟩,
      identifiers, attributes⟩
    · exact List.forall_mem_append.mpr ⟨hg, hl c hc⟩
    · exact List.pairwise_append.mpr ⟨pg, pl c hc⟩

end DeclarationTree

end CommandLanguage

import CommandLanguage.Proofs.CommandTree.Consistent
import CommandLanguage.Proofs.Declaration.Consistency

/-!
# The verdict on declarations

The checks that make a command tree go through the declarations in their order and stop at the
first that contradicts earlier ones. Each check keeps a record of what it went through; the record
answers what the earlier declarations answer.
-/

set_option autoImplicit false

namespace CommandLanguage

open DeclarationTree Declared

/-- The error of a check that failed. -/
def reported {α : Type} : Except CompileError α → Option CompileError
  | .ok _ => none
  | .error e => some e

theorem reported_bind_ok {α β : Type} (check : Except CompileError α) (f : α → β) :
    reported (check >>= fun a => .ok (f a)) = reported check := by
  cases check <;> rfl

namespace DeclarationTree

variable {tree : DeclarationTree} {before items others : List Declared}

theorem Finds.bind {α β : Type} {check : Except CompileError α} {next : α → Except CompileError β}
    (h : tree.Finds before items (reported check))
    (ho : ∀ a, check = .ok a → tree.Finds (before ++ items) others (reported (next a))) :
    tree.Finds before (items ++ others) (reported (check >>= next)) := by
  cases check with
  | error e => exact h.append_of_some
  | ok a => exact h.append (ho a rfl)

end DeclarationTree

theorem FlagKind.ofWord?_eq_none_iff {d : FlagDeclaration} :
    FlagKind.ofWord? d.kind = none ↔ ¬ d.HasKnownKind := by
  unfold FlagKind.ofWord? FlagDeclaration.HasKnownKind
  split
  · simp_all
  · split <;> simp_all

namespace CommandTree

variable {tree : DeclarationTree} {before : List Declared} {owner : Option Nat}
variable {d f : FlagDeclaration} {taken : TakenNames}

/-- A record of spellings answers what the earlier flags of a scope answer. -/
structure TakenNames.Records (taken : TakenNames) (before : List Declared) (owner : Option Nat) :
    Prop where
  names : ∀ name, name ∈ taken.names ↔ TakenName before owner name
  shorts : ∀ short, short ∈ taken.shorts ↔ TakenShort before owner short

theorem inScope_flag :
    InScope (before ++ [.flag owner d]) owner f ↔ InScope before owner f ∨ f = d := by
  simp only [InScope, List.mem_append, List.mem_singleton, Declared.flag.injEq]
  constructor
  · rintro ⟨other, hm | ⟨_, rfl⟩, shared⟩
    · exact .inl ⟨other, hm, shared⟩
    · exact .inr rfl
  · rintro (⟨other, hm, shared⟩ | rfl)
    · exact ⟨other, .inl hm, shared⟩
    · exact ⟨owner, .inr ⟨rfl, rfl⟩, .inr rfl⟩

theorem TakenNames.Records.flag (h : taken.Records before owner) (d : FlagDeclaration) :
    Records ⟨d.name :: taken.names, d.short.toList ++ taken.shorts⟩ (before ++ [.flag owner d])
      owner where
  names name := by
    simp only [List.mem_cons, h.names, TakenName, inScope_flag, or_and_right, exists_or,
      exists_eq_left]
    rw [or_left_comm, or_comm (a := name = d.name), eq_comm (a := d.name)]
  shorts short := by
    simp only [List.mem_append, Option.mem_toList, h.shorts, TakenShort, inScope_flag,
      or_and_right, exists_or, exists_eq_left]
    rw [or_left_comm, or_comm (a := d.short = some short)]

theorem finds_checkFlags {flags : List FlagDeclaration} (records : taken.Records before owner) :
    tree.Finds before (flags.map (.flag owner))
      (reported (checkFlags (tree.scope owner) taken flags)) := by
  -- The record grows with each flag that is passed and keeps answering for all of them.
  induction flags generalizing taken before with
  | nil => exact .nothing
  | cons d flags ih =>
    unfold checkFlags
    split
    · next hk => exact .here (.kind (FlagKind.ofWord?_eq_none_iff.mp hk))
    · next kind hk =>
      have known : d.HasKnownKind := by
        by_contra unknown
        rw [FlagKind.ofWord?_eq_none_iff.mpr unknown] at hk
        cases hk
      split
      · next hn => exact .here (.name known ((records.names d.name).mp hn))
      · next hn =>
        have free := mt (records.names d.name).mpr hn
        split
        · next short hs =>
          obtain ⟨given, used⟩ := Option.filter_eq_some_iff.mp hs
          have used : short ∈ taken.shorts := of_decide_eq_true used
          exact .here (.short known free given ((records.shorts short).mp used))
        · next hs =>
          have unused : ∀ short, d.short = some short → ¬ TakenShort before owner short := by
            intro short given used
            have := Option.filter_eq_none_iff.mp hs short given
            exact this (decide_eq_true ((records.shorts short).mpr used))
          refine .later (flag_not_contradicts_iff.mpr ⟨known, free, unused⟩) ?_
          rw [reported_bind_ok]
          exact ih (records.flag d)

theorem inScope_declaredBy {c : CommandDeclaration} {id : Nat} (hne : c.id ≠ id) :
    InScope (before ++ declaredBy c) (some id) f ↔ InScope before (some id) f := by
  constructor
  · rintro ⟨other, hm, shared⟩
    rcases List.mem_append.mp hm with hm | hm
    · exact ⟨other, hm, shared⟩
    · have : other = some c.id := by
        simp only [declaredBy, List.mem_append, List.mem_map, List.mem_singleton, Declared.flag.injEq,
          reduceCtorEq, or_false] at hm
        obtain ⟨_, _, rfl, _⟩ := hm
        rfl
      rcases shared with rfl | rfl
      · cases this
      · exact absurd (Option.some.inj this).symm hne
  · rintro ⟨other, hm, shared⟩
    exact ⟨other, List.mem_append_left _ hm, shared⟩

theorem inScope_globals {flags : List FlagDeclaration} :
    InScope (flags.map (.flag none)) owner f ↔ f ∈ flags := by
  simp [InScope]

theorem TakenNames.Records.declaredBy {id : Nat} (h : taken.Records before (some id))
    {c : CommandDeclaration} (hne : c.id ≠ id) : taken.Records (before ++ declaredBy c) (some id) where
  names name := by simp only [h.names, TakenName, inScope_declaredBy hne]
  shorts short := by simp only [h.shorts, TakenShort, inScope_declaredBy hne]

/-- The help flag is the one flag that no declaration has to name. -/
theorem records_nothing : (TakenNames.ofFlags [Flag.help]).Records [] none where
  names name := by simp [TakenNames.ofFlags, TakenName, InScope, Flag.help]
  shorts short := by simp [TakenNames.ofFlags, TakenShort, InScope, Flag.help]

theorem records_globals {declared : List FlagDeclaration} {flags : List Flag}
    (means : List.Forall₂ FlagDeclaration.Means declared flags) :
    (TakenNames.ofFlags (Flag.help :: flags)).Records (declared.map (.flag none)) owner := by
  have spellings : flags.map (·.name) = declared.map (·.name) ∧
      flags.filterMap (·.short) = declared.filterMap (·.short) := by
    induction means with
    | nil => exact ⟨rfl, rfl⟩
    | cons hm _ ih =>
      rw [List.map_cons, List.map_cons, List.filterMap_cons, List.filterMap_cons, hm.name, hm.short,
        ih.1, ih.2]
      exact ⟨rfl, rfl⟩
  constructor
  · intro name
    simp [TakenNames.ofFlags, TakenName, inScope_globals, spellings.1, Flag.help]
  · intro short
    simp [TakenNames.ofFlags, TakenShort, inScope_globals, spellings.2, Flag.help]

/-- A record of identifiers and paths answers what the earlier commands answer. -/
structure RecordsIdentifiers (tree : DeclarationTree) (taken : KeyedList Text)
    (before : List Declared) : Prop where
  found : ∀ identifier path, KeyedList.get? taken identifier = some path →
    ∃ c, .identifier c ∈ before ∧ tree.identifier c = identifier ∧ tree.path c = path
  complete : ∀ c, .identifier c ∈ before → KeyedList.get? taken (tree.identifier c) ≠ none

theorem identifier_mem_declaredBy {c other : CommandDeclaration} :
    Declared.identifier other ∈ declaredBy c ↔ other = c := by
  simp [DeclarationTree.declaredBy]

theorem RecordsIdentifiers.declaredBy {taken : KeyedList Text}
    (h : RecordsIdentifiers tree taken before) (c : CommandDeclaration) :
    RecordsIdentifiers tree (KeyedList.assign taken (tree.identifier c) (tree.path c))
      (before ++ declaredBy c) where
  found identifier path hg := by
    rw [KeyedList.get?_assign] at hg
    split at hg
    · next he =>
      cases hg
      exact ⟨c, List.mem_append_right _ (identifier_mem_declaredBy.mpr rfl), he.symm, rfl⟩
    · obtain ⟨other, hm, hi, hp⟩ := h.found identifier path hg
      exact ⟨other, List.mem_append_left _ hm, hi, hp⟩
  complete other hm := by
    rw [KeyedList.get?_assign]
    split
    · simp
    · next hne =>
      rcases List.mem_append.mp hm with hm | hm
      · exact h.complete other hm
      · rw [identifier_mem_declaredBy.mp hm] at hne
        exact absurd rfl hne

theorem finds_checkCommands {globalFlags : List Flag} {taken : KeyedList Text}
    {commands : List CommandDeclaration} (distinct : commands.Pairwise fun c d => c.id ≠ d.id)
    (flags : ∀ c ∈ commands, (TakenNames.ofFlags globalFlags).Records before (some c.id))
    (identifiers : RecordsIdentifiers tree taken before) :
    tree.Finds before (commands.flatMap declaredBy)
      (reported (checkCommands tree globalFlags taken commands)) := by
  -- What is taken by one command is dropped before the next: only the global flags stay in scope.
  induction commands generalizing taken before with
  | nil => exact .nothing
  | cons c commands ih =>
    obtain ⟨apart, distinct⟩ := List.pairwise_cons.mp distinct
    obtain ⟨own, others⟩ := List.forall_mem_cons.mp flags
    rw [List.flatMap_cons, DeclarationTree.declaredBy, List.append_assoc, checkCommands]
    refine Finds.bind (finds_checkFlags own) fun accepted _ => ?_
    have mem {other : CommandDeclaration} :
        .identifier other ∈ before ++ c.flags.map (.flag (some c.id)) ↔
          .identifier other ∈ before := by
      simp
    dsimp only
    split
    · next path hg =>
      obtain ⟨other, hm, hi, rfl⟩ := identifiers.found _ _ hg
      exact .here (.identifier (mem.mpr hm) hi)
    · next hg =>
      refine .later ?_ ?_
      · rintro fault h
        cases h with
        | identifier earlier same =>
          refine identifiers.complete _ (mem.mp earlier) ?_
          rw [same]
          exact hg
      · rw [reported_bind_ok, List.append_assoc]
        exact ih distinct (fun d hd => (others d hd).declaredBy (apart d hd))
          (identifiers.declaredBy c)

theorem noteKinds_append (kinds : KeyedList AttributeKind) (entries others : KeyedList AttributeEntry) :
    noteKinds kinds (entries ++ others) =
      noteKinds kinds entries >>= fun kinds => noteKinds kinds others := by
  induction entries generalizing kinds with
  | nil => rfl
  | cons entry entries ih =>
    simp only [List.cons_append, noteKinds]
    split
    · rfl
    · exact ih _

theorem foldlM_noteKinds (kinds : KeyedList AttributeKind)
    (scopes : List (KeyedList AttributeEntry)) :
    scopes.foldlM noteKinds kinds = noteKinds kinds scopes.flatten := by
  induction scopes generalizing kinds with
  | nil => rfl
  | cons scope scopes ih =>
    rw [List.foldlM_cons, List.flatten_cons, noteKinds_append]
    simp only [ih]

/-- A record of kinds answers what the earlier attributes answer. -/
structure RecordsKinds (kinds : KeyedList AttributeKind) (before : List Declared) : Prop where
  found : ∀ name kind, KeyedList.get? kinds name = some kind →
    ∃ entry, .assignment name entry ∈ before ∧ entry.value.kind = kind
  complete : ∀ name entry, .assignment name entry ∈ before →
    KeyedList.get? kinds name = some entry.value.kind

section Kinds
variable {kinds : KeyedList AttributeKind} {name : Text} {entry : AttributeEntry}
variable (unlike : (KeyedList.get? kinds name).filter (· ≠ entry.value.kind) = none)
include unlike

theorem RecordsKinds.kind_eq (h : RecordsKinds kinds before) {earlier : AttributeEntry}
    (hm : .assignment name earlier ∈ before) : earlier.value.kind = entry.value.kind := by
  by_contra differ
  exact Option.filter_eq_none_iff.mp unlike _ (h.complete name _ hm) (decide_eq_true differ)

theorem RecordsKinds.assignment (h : RecordsKinds kinds before) :
    RecordsKinds (KeyedList.assign kinds name entry.value.kind)
      (before ++ [.assignment name entry]) := by
  constructor
  · intro other kind hg
    rw [KeyedList.get?_assign] at hg
    split at hg
    · next he =>
      cases hg
      exact ⟨entry, List.mem_append_right _ (he ▸ List.mem_cons_self), rfl⟩
    · obtain ⟨earlier, hm, hk⟩ := h.found other kind hg
      exact ⟨earlier, List.mem_append_left _ hm, hk⟩
  · intro other another hm
    rw [KeyedList.get?_assign]
    rcases List.mem_append.mp hm with earlier | hm
    · split
      · next he =>
        subst he
        rw [h.kind_eq unlike earlier]
      · exact h.complete other another earlier
    · cases List.mem_singleton.mp hm
      rw [if_pos rfl]

theorem RecordsKinds.fits (h : RecordsKinds kinds before) :
    ∀ fault, ¬ tree.Contradicts before (.assignment name entry) fault := by
  rintro fault contradicts
  cases contradicts with
  | assignment earlier differ => exact differ (h.kind_eq unlike earlier)

end Kinds

theorem finds_noteKinds {kinds : KeyedList AttributeKind} {entries : KeyedList AttributeEntry}
    (records : RecordsKinds kinds before) :
    tree.Finds before (entries.map fun entry => .assignment entry.1 entry.2)
      (reported (noteKinds kinds entries)) := by
  induction entries generalizing kinds before with
  | nil => exact .nothing
  | cons entry entries ih =>
    obtain ⟨name, entry⟩ := entry
    unfold noteKinds
    split
    · next other hk =>
      obtain ⟨hg, differ⟩ := Option.filter_eq_some_iff.mp hk
      obtain ⟨earlier, hm, rfl⟩ := records.found name other hg
      exact .here (.assignment hm (by simpa using differ))
    · next hk => exact .later (records.fits hk) (ih (records.assignment hk))

/-- Resolving goes through all declarations in their order. -/
theorem finds_resolve (h : tree.IsForest) : tree.Finds [] tree.declared (reported (resolve tree)) := by
  refine Finds.bind (finds_checkFlags records_nothing) fun flags hf => ?_
  have means := means_of_checkFlags hf
  refine Finds.bind (finds_checkCommands (distinct_ids h) (fun c _ => records_globals means) ?_)
    fun commands _ => ?_
  · constructor
    · intro _ _ hg
      cases hg
    · intro c hm
      simp at hm
  · rw [reported_bind_ok, collectKinds, reported_bind_ok, foldlM_noteKinds]
    have hs : (attributeScopes tree).flatten =
        tree.globalAttributes ++ tree.walk.flatMap (·.attributes) := by
      rw [attributeScopes, List.flatten_cons, List.flatMap_def]
    rw [hs]
    apply finds_noteKinds
    constructor
    · intro _ _ hg
      cases hg
    · intro name entry hm
      simp [DeclarationTree.declaredBy] at hm

end CommandTree

open CommandTree

/-- The declarations of a source make a command tree exactly if they are consistent. If they are
not, resolving fails with the fault and the line of the first declaration that contradicts the ones
before it. -/
theorem resolve_first_contradiction {source : Text} {tree : DeclarationTree}
    (h : parse source = .ok tree) :
    ((∃ resolved, resolve tree = .ok resolved) ↔ tree.IsConsistent) ∧
    (¬ tree.IsConsistent → ∃ before item after fault, tree.declared = before ++ item :: after ∧
      tree.Coherent before ∧ tree.Contradicts before item fault ∧
      resolve tree = .error (.semantic fault item.line)) := by
  have forest := isForest_of_parse h
  have finds := finds_resolve forest
  rw [isConsistent_iff forest]
  cases hr : resolve tree with
  | ok resolved =>
    rw [hr] at finds
    exact ⟨⟨fun _ => finds, fun _ => ⟨resolved, rfl⟩⟩, fun none => absurd finds none⟩
  | error e =>
    rw [hr] at finds
    obtain ⟨before, item, after, fault, hd, fits, contradicts, rfl⟩ := finds.exists_first
    refine ⟨⟨?_, ?_⟩, fun _ => ?_⟩
    · rintro ⟨_, hok⟩
      cases hok
    · intro none
      exact absurd contradicts (none.coherent before item after hd fault)
    · exact ⟨before, item, after, fault, hd, fits.coherent, contradicts, rfl⟩

/-- Two commands have one identifier, but a flag of the second contradicts first. -/
theorem flag_before_identifier :
    ∃ tree, parse "cmd user-add\ncmd user add\nflag retries number \"\"" = .ok tree ∧
      ¬ tree.IsConsistent ∧ ∃ before item after, tree.declared = before ++ item :: after ∧
        tree.Coherent before ∧ tree.Contradicts before item (.unsupportedKind "retries" "number") ∧
        item.line = 3 := by
  let tree : DeclarationTree :=
    { empty with
      commands := [
        bareCommand 0 none "user-add" 1,
        { bareCommand 1 none "user" 2 with children := [2] },
        { bareCommand 2 (some 1) "add" 2 with flags := [⟨"retries", none, "number", [], 3⟩] }]
      roots := [0, 1] }
  have h : parse "cmd user-add\ncmd user add\nflag retries number \"\"" = .ok tree := by
    decide +kernel
  have fails : resolve tree = .error (.semantic (.unsupportedKind "retries" "number") 3) := by
    decide +kernel
  obtain ⟨accepted, rejected⟩ := resolve_first_contradiction h
  have inconsistent : ¬ tree.IsConsistent := by
    intro consistent
    obtain ⟨resolved, hok⟩ := accepted.mpr consistent
    rw [fails] at hok
    cases hok
  obtain ⟨before, item, after, fault, hd, fits, contradicts, hr⟩ := rejected inconsistent
  simp only [fails, CompileError.semantic, Except.error.injEq, CompileError.mk.injEq,
    CompileFault.semantic.injEq, Option.some.injEq] at hr
  obtain ⟨rfl, hl⟩ := hr
  exact ⟨tree, h, inconsistent, before, item, after, hd, fits, contradicts, hl.symm⟩

end CommandLanguage

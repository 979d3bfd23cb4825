import CommandLanguage.Proofs.CommandTree.Enrichment

/-!
# Attributes of a compiled tree

The check of kinds reaches every command, so the table of attributes has a row for each name that is
set anywhere, and all values under a name have the kind of its row. The value on a command is the
one that the source assigned last to the command, else the last global one, else the zero value.
-/

set_option autoImplicit false

namespace CommandLanguage

namespace CommandTree

/-- All values that are set, the global ones first. -/
def attributeValues (tree : CommandTree) : KeyedList AttributeValue :=
  tree.globalAttributes ++ tree.commands.flatMap (·.attributes)

variable {declared : DeclarationTree} {tree : CommandTree} {d : AttributeDefinition}

section Kinds
variable {table : List AttributeDefinition}

theorem records_of_noteKinds {kinds noted : KeyedList AttributeKind}
    {entries : KeyedList AttributeEntry} {before : List Declared}
    (h : noteKinds kinds entries = .ok noted) (records : RecordsKinds kinds before) :
    RecordsKinds noted (before ++ entries.map fun entry => .assignment entry.1 entry.2) := by
  induction entries generalizing kinds before with
  | nil =>
    cases h
    rw [List.map_nil, List.append_nil]
    exact records
  | cons entry entries ih =>
    rw [noteKinds] at h
    split at h
    · cases h
    · next hk =>
      have grown := ih h (records.assignment hk)
      rw [List.append_assoc] at grown
      exact grown

theorem exists_records_of_collectKinds (h : collectKinds declared = .ok table) :
    ∃ noted : KeyedList AttributeKind, (KeyedList.names noted).Nodup ∧
      table = sortByPath (·.name) (noted.map fun entry => ⟨entry.1, entry.2⟩) ∧
      RecordsKinds noted declared.assignments := by
  obtain ⟨noted, hn, h⟩ := Statement.exists_of_bind_eq_ok h
  cases h
  rw [foldlM_noteKinds] at hn
  have nothing : RecordsKinds [] [] := ⟨fun _ _ he => (nomatch he), fun _ _ hm => (nomatch hm)⟩
  have records := records_of_noteKinds hn nothing
  rw [attributeScopes, List.flatten_cons, ← List.flatMap_def] at records
  exact ⟨noted, nodup_names_of_noteKinds hn List.nodup_nil, rfl, records⟩

/-- The rows of the table are the names and the kinds of attributes. -/
theorem mem_table_iff (forest : declared.IsForest) (h : collectKinds declared = .ok table) :
    d ∈ table ↔ ∃ entry, (d.name, entry) ∈ declared.attributeEntries ∧ entry.value.kind = d.kind := by
  obtain ⟨noted, nodup, rfl, records⟩ := exists_records_of_collectKinds h
  have assigned {name : Text} {entry : AttributeEntry} :
      .assignment name entry ∈ declared.assignments ↔
        (name, entry) ∈ declared.attributeEntries := by
    rw [← DeclarationTree.mem_walked_attributes forest, DeclarationTree.assignments, List.mem_map]
    constructor
    · rintro ⟨_, hm, he⟩
      cases he
      exact hm
    · exact fun hm => ⟨_, hm, rfl⟩
  have row : d ∈ sortByPath (·.name)
        (noted.map fun entry => (⟨entry.1, entry.2⟩ : AttributeDefinition)) ↔
      KeyedList.get? noted d.name = some d.kind := by
    rw [sortByPath, List.mem_mergeSort, List.mem_map]
    constructor
    · rintro ⟨entry, hm, rfl⟩
      exact KeyedList.get?_of_mem nodup hm
    · exact fun hg => ⟨_, KeyedList.mem_of_get? hg, rfl⟩
  rw [row]
  constructor
  · intro hg
    obtain ⟨entry, hm, hk⟩ := records.found _ _ hg
    exact ⟨entry, assigned.mp hm, hk⟩
  · rintro ⟨entry, hm, hk⟩
    rw [← hk]
    exact records.complete _ _ (assigned.mpr hm)

theorem pairwise_names_of_collectKinds (h : collectKinds declared = .ok table) :
    (table.map (·.name)).Pairwise (· < ·) := by
  obtain ⟨noted, nodup, rfl, _⟩ := exists_records_of_collectKinds h
  have names : ((noted.map fun entry =>
      (⟨entry.1, entry.2⟩ : AttributeDefinition)).map (·.name)).Nodup := by
    rw [List.map_map]
    exact nodup
  exact pairwise_sortByPath names.of_map fun _ ha _ hb => List.inj_on_of_nodup_map names ha hb

end Kinds

theorem Keeps.attributeValues_eq (keeps : tree.Keeps declared) :
    tree.attributeValues = KeyedList.mapValues (·.value) declared.attributeEntries := by
  have own {declarations : List CommandDeclaration} {commands : List Command}
      (h : List.Forall₂ CommandDeclaration.Resolves declarations commands) :
      commands.flatMap (·.attributes) =
        KeyedList.mapValues (·.value) (declarations.flatMap (·.attributes)) := by
    induction h with
    | nil => rfl
    | cons hd _ ih =>
      rw [List.flatMap_cons, List.flatMap_cons, ih, hd.attributes]
      exact List.map_append.symm
  rw [attributeValues, keeps.globalAttributes, own keeps.commands]
  exact List.map_append.symm

theorem MadeOf.exists_declaration (made : tree.MadeOf declared) (forest : declared.IsForest) {i : Nat}
    {c : Command} (hc : tree.commands[i]? = some c) :
    ∃ d flags, declared.commands[i]? = some d ∧ c = commandOf d (declared.segments i) flags := by
  obtain ⟨d, hd, flags, _, rfl⟩ := exists_of_becomes (becomes_of_checkCommands made.commands) hc
  rw [forest.arranged.id_eq i d hd]
  exact ⟨d, flags, hd, rfl⟩

section Lookup
variable {name : Text} {value : AttributeValue}

theorem attribute?_of_command {i : Nat} {c : Command} (hc : tree.commands[i]? = some c) :
    tree.attribute? (some i) name =
      (KeyedList.get? c.attributes name).or (KeyedList.get? tree.globalAttributes name) := by
  simp [attribute?, hc]

theorem mem_attributeValues_of_attribute? {command : Option Nat}
    (h : tree.attribute? command name = some value) : (name, value) ∈ tree.attributeValues := by
  have global (hg : KeyedList.get? tree.globalAttributes name = some value) :
      (name, value) ∈ tree.attributeValues :=
    List.mem_append_left _ (KeyedList.mem_of_get? hg)
  cases command with
  | none => exact global h
  | some i =>
    cases hc : tree.commands[i]? with
    | none =>
      refine global ?_
      simpa [attribute?, hc] using h
    | some c =>
      rw [attribute?_of_command hc] at h
      rcases Option.or_eq_some_iff.mp h with own | ⟨_, hg⟩
      · exact List.mem_append_right _ (List.mem_flatMap.mpr
          ⟨c, List.mem_of_getElem? hc, KeyedList.mem_of_get? own⟩)
      · exact global hg

end Lookup

section Compiled
variable {source : Text} {statements : List Statement} {name : Text} {value : AttributeValue}
variable (h : compile source = .ok tree)
include h

/-- The rows of the table are the names and the kinds of the values that are set. -/
theorem mem_attributeTable_iff : d ∈ tree.attributeTable ↔
    ∃ value, (d.name, value) ∈ tree.attributeValues ∧ value.kind = d.kind := by
  obtain ⟨declared, hp, made⟩ := madeOf_of_compile h
  rw [mem_table_iff (DeclarationTree.isForest_of_parse hp) made.kinds, made.keeps.attributeValues_eq,
    KeyedList.mapValues]
  constructor
  · rintro ⟨entry, hm, hk⟩
    exact ⟨entry.value, List.mem_map.mpr ⟨_, hm, rfl⟩, hk⟩
  · rintro ⟨_, hm, hk⟩
    obtain ⟨⟨_, entry⟩, declares, he⟩ := List.mem_map.mp hm
    cases he
    exact ⟨entry, declares, hk⟩

theorem mem_attributeTable_names : name ∈ tree.attributeTable.map (·.name) ↔
    name ∈ KeyedList.names tree.globalAttributes ∨
      ∃ c ∈ tree.commands, name ∈ KeyedList.names c.attributes := by
  have values : name ∈ KeyedList.names tree.attributeValues ↔
      name ∈ KeyedList.names tree.globalAttributes ∨
        ∃ c ∈ tree.commands, name ∈ KeyedList.names c.attributes := by
    simp only [attributeValues, KeyedList.names, List.map_append, List.map_flatMap, List.mem_append,
      List.mem_flatMap]
  rw [← values, List.mem_map]
  constructor
  · rintro ⟨d, hd, rfl⟩
    obtain ⟨value, hm, _⟩ := (mem_attributeTable_iff h).mp hd
    exact List.mem_map.mpr ⟨_, hm, rfl⟩
  · intro hm
    obtain ⟨⟨_, value⟩, hv, rfl⟩ := List.mem_map.mp hm
    exact ⟨⟨_, value.kind⟩, (mem_attributeTable_iff h).mpr ⟨value, hv, rfl⟩, rfl⟩

theorem pairwise_attributeTable : (tree.attributeTable.map (·.name)).Pairwise (· < ·) := by
  obtain ⟨_, _, made⟩ := madeOf_of_compile h
  exact pairwise_names_of_collectKinds made.kinds

/-- All values under the name of a row have the kind of the row. -/
theorem kind_of_mem_attributeValues (hd : d ∈ tree.attributeTable)
    (hv : (d.name, value) ∈ tree.attributeValues) : value.kind = d.kind := by
  have row : (⟨d.name, value.kind⟩ : AttributeDefinition) ∈ tree.attributeTable :=
    (mem_attributeTable_iff h).mpr ⟨value, hv, rfl⟩
  have same := List.inj_on_of_nodup_map (nodup_attributeTable_of_compile h) row hd rfl
  exact congrArg AttributeDefinition.kind same

theorem kind_attributeValue (hd : d ∈ tree.attributeTable) (command : Option Nat) :
    (tree.attributeValue command d).kind = d.kind := by
  unfold attributeValue
  cases hv : tree.attribute? command d.name with
  | none => exact d.kind.kind_zero
  | some value => exact kind_of_mem_attributeValues h hd (mem_attributeValues_of_attribute? hv)

variable (written : Written .empty (scan source).dropLast statements)
include written

theorem get?_globalAttributes : KeyedList.get? tree.globalAttributes name =
    Statement.lastAssigned [] name statements := by
  obtain ⟨declared, hp, made⟩ := madeOf_of_compile h
  rw [made.globalAttributes, KeyedList.get?_mapValues, ← DeclarationTree.value?_contents hp written]
  rfl

theorem get?_attributes {i : Nat} {c : Command} (hc : tree.commands[i]? = some c) :
    KeyedList.get? c.attributes name = Statement.lastAssigned c.segments name statements := by
  obtain ⟨declared, hp, made⟩ := madeOf_of_compile h
  have forest := DeclarationTree.isForest_of_parse hp
  obtain ⟨d, flags, hd, rfl⟩ := made.exists_declaration forest hc
  rw [commandOf, KeyedList.get?_mapValues, ← DeclarationTree.value?_contents hp written,
    DeclarationTree.contents_of_command forest hd]
  rfl

end Compiled

end CommandTree

end CommandLanguage

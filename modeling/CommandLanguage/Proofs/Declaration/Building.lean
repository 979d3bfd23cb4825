import CommandLanguage.Proofs.Statement.Writing
import Mathlib.Data.Nat.PSub

/-!
# Statements for an outline

The statements of an outline are its declarations in order: what is global comes first, then the
topics, and then every command with what is declared under it. When each command stands behind
those above it, these statements build the outline.
-/

set_option autoImplicit false

namespace CommandLanguage

open Text

def Statement.assignments (attributes : KeyedList AttributeEntry) : List Statement :=
  attributes.map fun entry => .assignment entry.1 entry.2

namespace Sketch

/-- Some statements may come one after the other, and lead from one sketch to another. -/
inductive Builds : Sketch → List Statement → Sketch → Prop where
  | nothing {sketch : Sketch} : Builds sketch [] sketch
  | statement {sketch built : Sketch} {statement : Statement} {statements : List Statement}
      (allowed : sketch.Allows statement) (others : Builds (sketch.apply statement) statements built) :
      Builds sketch (statement :: statements) built

namespace Builds

variable {sketch between built : Sketch} {statement : Statement} {statements more : List Statement}

theorem append (h : Builds sketch statements between) (others : Builds between more built) :
    Builds sketch (statements ++ more) built := by
  induction h with
  | nothing => exact others
  | statement allowed _ ih => exact .statement allowed (ih others)

theorem single (allowed : sketch.Allows statement) (he : sketch.apply statement = built) :
    Builds sketch [statement] built := by
  subst he
  exact .statement allowed .nothing

section Items
variable {α : Type} (view : List α → Sketch)

/-- Items are declared one after the other; `view` is the sketch in which some of them are. -/
theorem each (statements : α → List Statement) (items : List α)
    (step : ∀ done item rest, items = done ++ item :: rest →
      Builds (view done) (statements item) (view (done ++ [item]))) :
    Builds (view []) (items.flatMap statements) (view items) := by
  have go : ∀ rest done, items = done ++ rest →
      Builds (view done) (rest.flatMap statements) (view items) := by
    intro rest
    induction rest with
    | nil =>
      intro done he
      rw [he, List.append_nil]
      exact .nothing
    | cons item rest ih =>
      intro done he
      exact (step done item rest he).append (ih (done ++ [item]) (he.trans (by simp)))
  exact go items [] rfl

theorem each_single (statement : α → Statement) (items : List α)
    (step : ∀ done item rest, items = done ++ item :: rest →
      (view done).Allows (statement item) ∧
        (view done).apply (statement item) = view (done ++ [item])) :
    Builds (view []) (items.map statement) (view items) := by
  rw [List.map_eq_flatMap]
  refine each view (fun item => [statement item]) items fun done item rest he => ?_
  obtain ⟨allowed, built⟩ := step done item rest he
  exact .single allowed built

theorem assignments (view : KeyedList AttributeEntry → Sketch) {attributes : KeyedList AttributeEntry}
    (distinct : (KeyedList.names attributes).Nodup)
    (step : ∀ done name entry,
      (view done).apply (.assignment name entry) = view (KeyedList.assign done name entry)) :
    Builds (view []) (Statement.assignments attributes) (view attributes) := by
  refine each_single view (fun entry => .assignment entry.1 entry.2) attributes
    fun done entry rest he => ⟨trivial, ?_⟩
  have absent := KeyedList.not_mem_names_before distinct he
  rw [step, KeyedList.assign_of_not_mem entry.2 absent]

end Items

theorem exists_written (h : Builds sketch statements built)
    (writable : ∀ statement ∈ statements, statement.Writable) {other : Sketch}
    (same : other.withoutLines = sketch.withoutLines) (line : Int) :
    ∃ own, Written other (Statement.tokensFrom line statements) own ∧
      (own.foldl Sketch.apply other).withoutLines = built.withoutLines := by
  -- Both sketches vary: they differ in lines, and so do those that the next statement makes of them.
  induction h generalizing other line with
  | nothing => exact ⟨[], .nothing, same⟩
  | @statement sketch _ statement statements allowed _ ih =>
    obtain ⟨first, rest⟩ := List.forall_mem_cons.mp writable
    obtain ⟨own, written, built⟩ := ih rest (same_apply same statement line) (line + 1)
    have spelled := Statement.spells_tokens first (Statement.tokensFrom_stops line statements)
    exact ⟨_ :: own, .statement spelled (allows_of_same same line allowed) written, built⟩

/-- Written statements are read as the forest that they build, up to its lines. -/
theorem exists_parse_write (h : Builds .empty statements built)
    (writable : ∀ statement ∈ statements, statement.Writable) :
    ∃ tree, parse (Statement.write statements) = .ok tree ∧ tree.IsForest ∧
      tree.outline.withoutLines = built.toOutline.withoutLines := by
  obtain ⟨line, scanned⟩ := Statement.exists_scan_write writable
  obtain ⟨own, written, he⟩ := h.exists_written writable rfl 2
  have faultless : Faultless (scan (Statement.write statements)) := by
    rw [scanned]
    refine List.forall_mem_append.mpr ⟨?_, List.forall_mem_singleton.mpr (by simp)⟩
    intro token ht cause fault
    have inside := Statement.isLast_of_mem_tokensFrom token ht
    rw [fault] at inside
    cases inside
  have body : (scan (Statement.write statements)).dropLast = Statement.tokensFrom 2 statements := by
    rw [scanned]
    exact List.dropLast_concat
  rw [← body] at written
  have reads := reads_scan_iff.mpr ⟨faultless, written⟩
  obtain ⟨sound, sketch⟩ := Draft.sketch_foldl Draft.isSound_empty own
  refine ⟨_, parse_eq_ok_iff.mpr ⟨own, reads, rfl⟩, sound.forest, ?_⟩
  have outline := congrArg Sketch.toOutline sketch
  refine (congrArg Outline.withoutLines outline).trans ?_
  exact congrArg Sketch.toOutline he

end Builds

/-- The outline with one more entry, whose command is selected. -/
def within (outline : Outline) (done : List Entry) (topic : Option Nat) (e : Entry) : Sketch :=
  ⟨{ outline with entries := done ++ [e] }, e.path, topic⟩

section Within
variable {outline : Outline} {done : List Entry} {topic : Option Nat} {e : Entry}

theorem change_within (fresh : e.path ∉ done.map (·.path)) {new : Entry → Entry}
    (kept : (new e).path = e.path) :
    (within outline done topic e).change new = within outline done topic (new e) := by
  have others : (done.map fun d => if d.path = e.path then new d else d) = done := by
    refine (List.map_congr_left fun d hd => if_neg fun same => fresh ?_).trans done.map_id'
    exact List.mem_map.mpr ⟨d, hd, same⟩
  have entries : ((done ++ [e]).map fun d => if d.path = e.path then new d else d) =
      done ++ [new e] := by
    rw [List.map_append, others, List.map_singleton, if_pos rfl]
  rw [within, within, kept, ← entries]
  rfl

variable {path : List Text} (alone : missing done path = [path])
include alone

theorem new_of_missing : path ≠ [] ∧ path ∉ done.map (·.path) := by
  have first : path ∈ missing done path := by
    rw [alone]
    exact List.mem_cons_self
  obtain ⟨start, fresh⟩ := List.mem_filter.mp first
  exact ⟨DeclarationTree.ne_nil_of_mem_tail_inits start, of_decide_eq_true fresh⟩

theorem command_within (scope : List Text) (description : Text) (line : Int) :
    Sketch.apply ⟨{ outline with entries := done }, scope, topic⟩
      (.command path (some description) line) =
        within outline done topic { bareEntry line path with description } := by
  have entered : Sketch.apply ⟨{ outline with entries := done }, scope, topic⟩
      (.command path none line) = within outline done topic (bareEntry line path) := by
    simp only [Sketch.apply, alone]
    rfl
  exact (congrArg (change · fun e => { e with description }) entered).trans
    (change_within (new_of_missing alone).2 rfl)

end Within

end Sketch

def Topic.statements (topic : Topic) : List Statement :=
  .topic topic.name topic.description :: topic.body.toList.map .topicBody

def Entry.statements (e : Entry) : List Statement :=
  .command e.path (some e.description) e.line ::
    (e.flags.map .flag ++ (e.args.map .argument ++ (e.examples.map .exampleLine ++
      Statement.assignments e.attributes)))

namespace Outline

def globalStatements (outline : Outline) : List Statement :=
  outline.app.toList.map .identity ++
    (outline.globalFlags.map .flag ++ Statement.assignments outline.globalAttributes)

/-- Statements that declare what the outline holds, in its order. -/
def statements (outline : Outline) : List Statement :=
  outline.globalStatements ++
    (outline.topics.flatMap Topic.statements ++ outline.entries.flatMap Entry.statements)

open Sketch

variable (outline : Outline)

theorem builds_globals (distinct : (KeyedList.names outline.globalAttributes).Nodup) :
    Builds .empty outline.globalStatements
      ⟨{ outline with entries := [], topics := [] }, [], none⟩ := by
  obtain ⟨app, flags, attributes, entries, topics⟩ := outline
  have named : Builds .empty (app.toList.map .identity) ⟨⟨app, [], [], [], []⟩, [], none⟩ := by
    cases app with
    | none => exact .nothing
    | some identity => exact .single ⟨rfl, rfl⟩ rfl
  have flagged : Builds ⟨⟨app, [], [], [], []⟩, [], none⟩ (flags.map .flag)
      ⟨⟨app, flags, [], [], []⟩, [], none⟩ :=
    .each_single (fun flags => ⟨⟨app, flags, [], [], []⟩, [], none⟩) .flag flags
      fun _ _ _ _ => ⟨trivial, rfl⟩
  have assigned : Builds ⟨⟨app, flags, [], [], []⟩, [], none⟩ (Statement.assignments attributes)
      ⟨⟨app, flags, attributes, [], []⟩, [], none⟩ :=
    .assignments (fun attributes => ⟨⟨app, flags, attributes, [], []⟩, [], none⟩) distinct
      fun _ _ _ => rfl
  exact named.append (flagged.append assigned)

theorem builds_topics : ∃ topic, Builds ⟨{ outline with entries := [], topics := [] }, [], none⟩
    (outline.topics.flatMap Topic.statements) ⟨{ outline with entries := [] }, [], topic⟩ := by
  -- The topic that was declared last is the one to which a body belongs.
  let view (topics : List Topic) : Sketch :=
    ⟨{ outline with entries := [], topics }, [], topics.length.ppred⟩
  refine ⟨_, Builds.each view Topic.statements outline.topics fun done topic _ _ => ?_⟩
  obtain ⟨name, description, body⟩ := topic
  have declared : (view done).apply (.topic name description) =
      view (done ++ [⟨name, description, none⟩]) := by
    simp [view, Sketch.apply]
  cases body with
  | none => exact .single trivial declared
  | some text =>
    refine .statement trivial (.single ?_ ?_)
    · simp [declared, view, Allows]
    · have last := List.modifyTailIdx_add
        (List.modifyHead fun t : Topic => { t with body := some text }) 0 done
        [⟨name, description, none⟩]
      rw [declared]
      simp only [view, Sketch.apply, List.length_append, List.length_singleton, Nat.ppred_succ]
      rw [List.modify, ← Nat.add_zero done.length, last]
      rfl

section Entries
variable {outline} {done : List Entry} {topic : Option Nat} {e : Entry}

theorem builds_entry (alone : missing done e.path = [e.path])
    (distinct : (KeyedList.names e.attributes).Nodup) (scope : List Text) :
    Builds ⟨{ outline with entries := done }, scope, topic⟩ e.statements
      (within outline done topic e) := by
  obtain ⟨path, description, flags, args, examples, attributes, line⟩ := e
  obtain ⟨nonempty, fresh⟩ : path ≠ [] ∧ path ∉ done.map (·.path) := new_of_missing alone
  let reached (flags : List FlagDeclaration) (args : List Argument) (examples : List Text)
      (attributes : KeyedList AttributeEntry) : Sketch :=
    within outline done topic ⟨path, description, flags, args, examples, attributes, line⟩
  have flagged : Builds (reached [] [] [] []) (flags.map .flag) (reached flags [] [] []) :=
    .each_single (reached · [] [] []) .flag flags fun _ _ _ _ =>
      ⟨trivial, (if_neg nonempty).trans (change_within fresh rfl)⟩
  have taking : Builds (reached flags [] [] []) (args.map .argument) (reached flags args [] []) :=
    .each_single (reached flags · [] []) .argument args fun _ _ _ _ =>
      ⟨nonempty, change_within fresh rfl⟩
  have shown : Builds (reached flags args [] []) (examples.map .exampleLine)
      (reached flags args examples []) :=
    .each_single (reached flags args · []) .exampleLine examples fun _ _ _ _ =>
      ⟨nonempty, change_within fresh rfl⟩
  have assigned : Builds (reached flags args examples []) (Statement.assignments attributes)
      (reached flags args examples attributes) :=
    .assignments (reached flags args examples) distinct fun _ _ _ =>
      (if_neg nonempty).trans (change_within fresh rfl)
  refine .statement trivial ?_
  rw [command_within alone scope description line]
  exact flagged.append (taking.append (shown.append assigned))

theorem builds_entries (topic : Option Nat)
    (alone : ∀ done e rest, outline.entries = done ++ e :: rest → missing done e.path = [e.path])
    (distinct : ∀ e ∈ outline.entries, (KeyedList.names e.attributes).Nodup) :
    ∃ scope, Builds ⟨{ outline with entries := [] }, [], topic⟩
      (outline.entries.flatMap Entry.statements) ⟨outline, scope, topic⟩ := by
  -- The command that was declared last stays selected until the next one.
  let view (entries : List Entry) : Sketch :=
    ⟨{ outline with entries }, (entries.getLast?.map (·.path)).getD [], topic⟩
  refine ⟨_, Builds.each view Entry.statements outline.entries fun done e rest he => ?_⟩
  have last : view (done ++ [e]) = within outline done topic e := by
    simp [view, within]
  have member : e ∈ outline.entries := by
    rw [he]
    exact List.mem_append_right _ List.mem_cons_self
  rw [last]
  exact builds_entry (alone done e rest he) (distinct e member) _

end Entries

/-- The statements of an outline build it, if every entry stands behind those above it. -/
theorem builds_statements (globals : (KeyedList.names outline.globalAttributes).Nodup)
    (alone : ∀ done e rest, outline.entries = done ++ e :: rest → missing done e.path = [e.path])
    (distinct : ∀ e ∈ outline.entries, (KeyedList.names e.attributes).Nodup) :
    ∃ scope topic, Builds .empty outline.statements ⟨outline, scope, topic⟩ := by
  obtain ⟨topic, topics⟩ := outline.builds_topics
  obtain ⟨scope, entries⟩ := builds_entries topic alone distinct
  exact ⟨scope, topic, (outline.builds_globals globals).append (topics.append entries)⟩

end Outline

end CommandLanguage

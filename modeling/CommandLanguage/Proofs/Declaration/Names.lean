import CommandLanguage.Proofs.Statement.Reading
import Mathlib.Data.List.TakeWhile

/-!
# Declared names are identifiers

Every name of a declaration was scanned as an identifier: it begins with a letter, an underscore
or a dot. The property is followed from the tokens to the statements and on to the declarations.
-/

set_option autoImplicit false

namespace CommandLanguage

namespace Text

/-- A text that is scanned as one identifier. -/
def IsIdentifier : Text → Prop
  | [] => False
  | u :: rest => isIdentifierStart u = true ∧ ∀ v ∈ rest, isIdentifierPart v = true

instance : DecidablePred IsIdentifier
  | [] => isFalse id
  | u :: rest =>
    have : Decidable (∀ v ∈ rest, isIdentifierPart v = true) := List.decidableBAll _ rest
    inferInstanceAs (Decidable (isIdentifierStart u = true ∧ ∀ v ∈ rest, isIdentifierPart v = true))

theorem IsIdentifier.ne_nil {name : Text} (h : IsIdentifier name) : name ≠ [] := by
  rintro rfl
  exact h

theorem IsIdentifier.head?_ne_dash {name : Text} (h : IsIdentifier name) :
    name.head? ≠ some (unit '-') := by
  cases name with
  | nil => exact h.elim
  | cons u rest =>
    intro he
    obtain ⟨hu, _⟩ := h
    rw [Option.some.inj he] at hu
    exact absurd hu (by decide)

end Text

open Text

def NamedTokens (tokens : List Token) : Prop :=
  ∀ token ∈ tokens, ∀ name, token.kind = .identifier name → IsIdentifier name

theorem NamedTokens.cons_iff {token : Token} {tokens : List Token} :
    NamedTokens (token :: tokens) ↔
      (∀ name, token.kind = .identifier name → IsIdentifier name) ∧ NamedTokens tokens :=
  List.forall_mem_cons

theorem NamedTokens.append_iff {tokens behind : List Token} :
    NamedTokens (tokens ++ behind) ↔ NamedTokens tokens ∧ NamedTokens behind :=
  List.forall_mem_append

namespace Cursor

theorem string_fst_ne_identifier (rest : Text) (line : Int) (name : Text) :
    (string rest line).1 ≠ .identifier name := by
  unfold string
  split
  · split <;> simp
  · split
    · simp
    · split <;> simp

theorem isIdentifier_of_token {u : CodeUnit} {rest : Text} {line : Int} {name : Text}
    (h : (token u rest line).1 = .identifier name) : IsIdentifier name := by
  unfold token at h
  split at h
  · exact absurd h (string_fst_ne_identifier rest line name)
  · split at h
    · cases h
    · split at h
      · cases h
      · split at h
        · next hu =>
          cases h
          exact ⟨hu, fun v hv => List.mem_takeWhile_imp hv⟩
        · cases h

theorem isIdentifier_of_next {c : Cursor} {name : Text} (h : c.next.1.kind = .identifier name) :
    IsIdentifier name := by
  unfold next at h
  simp only at h
  split at h
  · cases h
  · exact isIdentifier_of_token h

theorem namedTokens_tokens (c : Cursor) : NamedTokens c.tokens := by
  have first (c : Cursor) : ∀ name, c.next.1.kind = .identifier name → IsIdentifier name :=
    fun _ => isIdentifier_of_next
  induction c using tokens.induct with
  | case1 c last =>
    rw [tokens, if_pos last]
    exact NamedTokens.cons_iff.mpr ⟨first c, by simp [NamedTokens]⟩
  | case2 c more ih =>
    rw [tokens, if_neg more]
    exact NamedTokens.cons_iff.mpr ⟨first c, ih⟩

end Cursor

structure FlagDeclaration.Named (flag : FlagDeclaration) : Prop where
  name : IsIdentifier flag.name
  short : ∀ short ∈ flag.short, IsIdentifier short
  kind : IsIdentifier flag.kind

structure Argument.Named (argument : Argument) : Prop where
  name : IsIdentifier argument.name
  kind : IsIdentifier argument.kind

structure CommandDeclaration.Named (command : CommandDeclaration) : Prop where
  name : IsIdentifier command.name
  flags : ∀ flag ∈ command.flags, flag.Named
  args : ∀ argument ∈ command.args, argument.Named
  attributes : ∀ name ∈ KeyedList.names command.attributes, IsIdentifier name

/-- All names in the tree are identifiers. -/
structure DeclarationTree.Named (tree : DeclarationTree) : Prop where
  globalFlags : ∀ flag ∈ tree.globalFlags, flag.Named
  globalAttributes : ∀ name ∈ KeyedList.names tree.globalAttributes, IsIdentifier name
  commands : ∀ command ∈ tree.commands, command.Named
  topics : ∀ topic ∈ tree.topics, IsIdentifier topic.name

namespace Statement

def Named : Statement → Prop
  | .command path _ _ => ∀ name ∈ path, IsIdentifier name
  | .flag declared => declared.Named
  | .argument declared => declared.Named
  | .assignment name _ => IsIdentifier name
  | .topic name _ => IsIdentifier name
  | _ => True

variable {tokens rest : List Token} {name : Text}

theorem named_expect {α : Type} {accept : TokenKind → Option α} {operand : Operand} {value : α}
    (h : NamedTokens tokens) (read : expect accept operand tokens = .ok (value, rest)) :
    NamedTokens rest := by
  obtain ⟨token, rfl, _⟩ := expect_eq_ok_iff.mp read
  exact (NamedTokens.cons_iff.mp h).2

theorem named_expect_identifier {operand : Operand} (h : NamedTokens tokens)
    (read : expect TokenKind.identifier? operand tokens = .ok (name, rest)) :
    IsIdentifier name ∧ NamedTokens rest := by
  refine ⟨?_, named_expect h read⟩
  obtain ⟨line, rfl⟩ := exists_of_expect TokenKind.eq_of_identifier? read
  exact (NamedTokens.cons_iff.mp h).1 name rfl

theorem named_readPath (h : NamedTokens tokens) (line : Int) :
    (∀ name ∈ (readPath line tokens).1, IsIdentifier name) ∧
      NamedTokens (readPath line tokens).2 := by
  rw [eq_readPath line tokens, NamedTokens.append_iff] at h
  refine ⟨fun name hn => ?_, h.2⟩
  exact h.1 _ (List.mem_map.mpr ⟨name, hn, rfl⟩) name rfl

theorem named_readOptionalString (h : NamedTokens tokens) :
    NamedTokens (readOptionalString tokens).2 := by
  obtain ⟨line, he⟩ := eq_readOptionalString tokens
  rw [he, NamedTokens.append_iff] at h
  exact h.2

theorem named_readShort (h : NamedTokens tokens) (line : Int) :
    (∀ short ∈ (readShort line tokens).1, IsIdentifier short) ∧
      NamedTokens (readShort line tokens).2 := by
  rw [eq_readShort line tokens, NamedTokens.append_iff] at h
  refine ⟨fun short hs => ?_, h.2⟩
  refine h.1 ⟨.identifier short, line⟩ (List.mem_map.mpr ⟨short, ?_, rfl⟩) short rfl
  exact Option.mem_toList.mpr hs

theorem named_readOperands {line : Int} {keyword : Keyword} {statement : Statement}
    (h : NamedTokens tokens) (read : readOperands line tokens keyword = .ok (statement, rest)) :
    statement.Named ∧ NamedTokens rest := by
  cases keyword with
  | global =>
    cases read
    exact ⟨trivial, h⟩
  | cmd =>
    have hp := named_readPath h line
    simp only [readOperands] at read
    split at read
    · cases read
    · next path behind _ he =>
      cases read
      rw [he] at hp
      exact ⟨hp.1, named_readOptionalString hp.2⟩
  | flag =>
    obtain ⟨⟨_, t₁⟩, h₁, read⟩ := exists_of_bind_eq_ok read
    obtain ⟨⟨_, t₂⟩, h₂, read⟩ := exists_of_bind_eq_ok read
    obtain ⟨⟨_, t₃⟩, h₃, read⟩ := exists_of_bind_eq_ok read
    obtain ⟨hname, h⟩ := named_expect_identifier h h₁
    obtain ⟨hkind, h⟩ := named_expect_identifier h h₂
    obtain ⟨hshort, h⟩ := named_readShort (named_expect h h₃) line
    cases read
    exact ⟨⟨hname, hshort, hkind⟩, h⟩
  | arg =>
    obtain ⟨⟨_, t₁⟩, h₁, read⟩ := exists_of_bind_eq_ok read
    obtain ⟨⟨_, t₂⟩, h₂, read⟩ := exists_of_bind_eq_ok read
    obtain ⟨⟨_, t₃⟩, h₃, read⟩ := exists_of_bind_eq_ok read
    obtain ⟨hname, h⟩ := named_expect_identifier h h₁
    obtain ⟨hkind, h⟩ := named_expect_identifier h h₂
    cases read
    exact ⟨⟨hname, hkind⟩, named_expect h h₃⟩
  | attr =>
    obtain ⟨⟨_, t₁⟩, h₁, read⟩ := exists_of_bind_eq_ok read
    obtain ⟨⟨_, t₂⟩, h₂, read⟩ := exists_of_bind_eq_ok read
    obtain ⟨⟨_, t₃⟩, h₃, read⟩ := exists_of_bind_eq_ok read
    cases read
    obtain ⟨hname, h⟩ := named_expect_identifier h h₁
    have h := named_expect h h₂
    obtain ⟨_, rfl⟩ := exists_of_readAttributeValue h₃
    exact ⟨hname, (NamedTokens.cons_iff.mp h).2⟩
  | name =>
    obtain ⟨⟨_, t₁⟩, h₁, read⟩ := exists_of_bind_eq_ok read
    obtain ⟨⟨_, t₂⟩, h₂, read⟩ := exists_of_bind_eq_ok read
    cases read
    exact ⟨trivial, named_expect (named_expect h h₁) h₂⟩
  | topic =>
    obtain ⟨⟨_, t₁⟩, h₁, read⟩ := exists_of_bind_eq_ok read
    obtain ⟨⟨_, t₂⟩, h₂, read⟩ := exists_of_bind_eq_ok read
    obtain ⟨hname, h⟩ := named_expect_identifier h h₁
    cases read
    exact ⟨hname, named_expect h h₂⟩
  | exampleLine =>
    obtain ⟨⟨_, t₁⟩, h₁, read⟩ := exists_of_bind_eq_ok read
    cases read
    exact ⟨trivial, named_expect h h₁⟩
  | text =>
    obtain ⟨⟨_, t₁⟩, h₁, read⟩ := exists_of_bind_eq_ok read
    cases read
    exact ⟨trivial, named_expect h h₁⟩

theorem named_read {draft : Draft} {statement : Statement} (h : NamedTokens tokens)
    (hr : read draft tokens = .ok (statement, rest)) : statement.Named ∧ NamedTokens rest := by
  unfold read at hr
  split at hr
  · split at hr
    · cases hr
    · split at hr
      · cases hr
      · exact named_readOperands (NamedTokens.cons_iff.mp h).2 hr
  · cases hr

end Statement

namespace DeclarationTree

variable {tree : DeclarationTree}

theorem named_updateCommand (h : tree.Named) (id : Nat)
    {change : CommandDeclaration → CommandDeclaration} (kept : ∀ c, c.Named → (change c).Named) :
    (tree.updateCommand id change).Named where
  globalFlags := h.globalFlags
  globalAttributes := h.globalAttributes
  topics := h.topics
  commands := by
    intro c hc
    obtain ⟨i, hi⟩ := List.getElem?_of_mem hc
    rw [updateCommand, List.getElem?_modify] at hi
    obtain ⟨d, hd, rfl⟩ := Option.map_eq_some_iff.mp hi
    have hn := h.commands d (List.mem_of_getElem? hd)
    split
    · exact kept d hn
    · exact hn

theorem named_addChild (h : tree.Named) (parent : Option Nat) {name : Text}
    (hn : IsIdentifier name) (line : Int) : (tree.addChild parent name line).Named := by
  have bare (above : Option Nat) : (bareCommand tree.commands.length above name line).Named :=
    ⟨hn, by simp [bareCommand], by simp [bareCommand], by simp [bareCommand, KeyedList.names]⟩
  have grown (above : Option Nat) : { tree with
      commands := tree.commands ++ [bareCommand tree.commands.length above name line] }.Named :=
    ⟨h.globalFlags, h.globalAttributes, List.forall_mem_append.mpr
      ⟨h.commands, List.forall_mem_singleton.mpr (bare above)⟩, h.topics⟩
  cases parent with
  | none => exact ⟨h.globalFlags, h.globalAttributes, (grown none).commands, h.topics⟩
  | some above =>
    refine named_updateCommand (grown (some above)) above fun c hc => ?_
    exact ⟨hc.name, hc.flags, hc.args, hc.attributes⟩

theorem named_enter (h : tree.Named) (parent : Option Nat) (line : Int) {path : List Text}
    (hp : ∀ name ∈ path, IsIdentifier name) : (tree.enter parent line path).1.Named := by
  induction path generalizing tree parent with
  | nil => exact h
  | cons name path ih =>
    obtain ⟨hn, hp⟩ := List.forall_mem_cons.mp hp
    unfold enter
    split
    · exact ih h _ hp
    · exact ih (named_addChild h parent hn line) _ hp

theorem named_empty : empty.Named := by
  constructor <;> simp [empty, KeyedList.names]

end DeclarationTree

namespace Draft

open DeclarationTree

theorem named_updateSelected {draft : Draft} (h : draft.tree.Named)
    {change : CommandDeclaration → CommandDeclaration} (kept : ∀ c, c.Named → (change c).Named) :
    (draft.updateSelected change).tree.Named := by
  unfold updateSelected
  split
  · exact h
  · exact named_updateCommand h _ kept

theorem named_apply {draft : Draft} (h : draft.tree.Named) {statement : Statement}
    (hs : statement.Named) : (draft.apply statement).tree.Named := by
  cases statement with
  | global => exact h
  | identity identity => exact ⟨h.globalFlags, h.globalAttributes, h.commands, h.topics⟩
  | exampleLine text =>
    exact named_updateSelected h fun c hc => ⟨hc.name, hc.flags, hc.args, hc.attributes⟩
  | argument argument =>
    refine named_updateSelected h fun c hc => ⟨hc.name, hc.flags, ?_, hc.attributes⟩
    exact List.forall_mem_append.mpr ⟨hc.args, List.forall_mem_singleton.mpr hs⟩
  | command path description line =>
    have entered := named_enter h none line hs
    cases description with
    | none => exact entered
    | some text =>
      exact named_updateSelected entered fun c hc => ⟨hc.name, hc.flags, hc.args, hc.attributes⟩
  | flag flag =>
    simp only [apply]
    split
    · exact ⟨List.forall_mem_append.mpr ⟨h.globalFlags, List.forall_mem_singleton.mpr hs⟩,
        h.globalAttributes, h.commands, h.topics⟩
    · refine named_updateSelected h fun c hc => ⟨hc.name, ?_, hc.args, hc.attributes⟩
      exact List.forall_mem_append.mpr ⟨hc.flags, List.forall_mem_singleton.mpr hs⟩
  | assignment name entry =>
    have assigned {list : KeyedList AttributeEntry}
        (hl : ∀ other ∈ KeyedList.names list, IsIdentifier other) :
        ∀ other ∈ KeyedList.names (KeyedList.assign list name entry), IsIdentifier other := by
      intro other ho
      rcases (KeyedList.mem_names_assign _).mp ho with ho | rfl
      · exact hl other ho
      · exact hs
    simp only [apply]
    split
    · exact ⟨h.globalFlags, assigned h.globalAttributes, h.commands, h.topics⟩
    · exact named_updateSelected h fun c hc =>
        ⟨hc.name, hc.flags, hc.args, assigned hc.attributes⟩
  | topic name description =>
    refine ⟨h.globalFlags, h.globalAttributes, h.commands, ?_⟩
    exact List.forall_mem_append.mpr ⟨h.topics, List.forall_mem_singleton.mpr hs⟩
  | topicBody text =>
    simp only [apply]
    split
    · exact h
    · refine ⟨h.globalFlags, h.globalAttributes, h.commands, fun topic ht => ?_⟩
      obtain ⟨i, hi⟩ := List.getElem?_of_mem ht
      rw [List.getElem?_modify] at hi
      obtain ⟨old, ho, rfl⟩ := Option.map_eq_some_iff.mp hi
      have hn := h.topics old (List.mem_of_getElem? ho)
      split <;> exact hn

theorem named_foldl {draft : Draft} {tokens : List Token} {statements : List Statement}
    (h : draft.tree.Named) (ht : NamedTokens tokens) (hr : Reads draft tokens statements) :
    (statements.foldl apply draft).tree.Named := by
  induction hr with
  | done => exact h
  | step _ read _ ih =>
    obtain ⟨hs, hrest⟩ := Statement.named_read ht read
    exact ih (named_apply h hs) hrest

end Draft

theorem DeclarationTree.named_of_parse {source : Text} {tree : DeclarationTree}
    (h : parse source = .ok tree) : tree.Named := by
  obtain ⟨statements, hr, rfl⟩ := parse_eq_ok_iff.mp h
  exact Draft.named_foldl named_empty (Cursor.namedTokens_tokens _) hr

end CommandLanguage

import CommandLanguage.Proofs.Statement.Reading
import Mathlib.Logic.Basic
import Mathlib.Tactic.SplitIfs

/-!
# The grammar of statements

`Spells` is the grammar of one statement, as a relation between its tokens, the statement and the
tokens behind it. What stands behind matters in two places, where an identifier on the line of the
keyword would have to be taken as well.
-/

set_option autoImplicit false

namespace CommandLanguage

def Keyword.words : Keyword → List Text
  | .global => ["global"]
  | .cmd => ["cmd"]
  | .flag => ["flag"]
  | .arg => ["arg"]
  | .attr => ["attr", "param"]
  | .name => ["name"]
  | .exampleLine => ["example"]
  | .topic => ["topic"]
  | .text => ["text"]

theorem Keyword.ofWord?_eq_some_iff {word : Text} {keyword : Keyword} :
    ofWord? word = some keyword ↔ word ∈ keyword.words := by
  constructor
  · intro h
    unfold ofWord? at h
    -- The words are compared in turn.
    iterate 10
      rcases ite_eq_iff.mp h with ⟨rfl, hk⟩ | ⟨_, h⟩
      · cases hk
        decide
    cases h
  · intro h
    cases keyword
    all_goals
      simp only [words, List.mem_cons, List.not_mem_nil, or_false] at h
    case attr =>
      rcases h with rfl | rfl
      · decide
      · decide
    all_goals
      subst h
      decide

namespace Statement

def keyword : Statement → Keyword
  | .global => .global
  | .command .. => .cmd
  | .flag _ => .flag
  | .argument _ => .arg
  | .assignment .. => .attr
  | .identity _ => .name
  | .exampleLine _ => .exampleLine
  | .topic .. => .topic
  | .topicBody _ => .text

/-- The next token is an identifier on the given line. -/
def GoesOn (line : Int) (rest : List Token) : Prop :=
  ∃ name, rest.head? = some ⟨.identifier name, line⟩

/-- How the value of an attribute is written. -/
inductive IsValue : TokenKind → AttributeValue → Prop where
  | string {value : Text} : IsValue (.string value) (.string value)
  | yes : IsValue (.identifier "true") (.bool true)
  | no : IsValue (.identifier "false") (.bool false)
  | number {digits : Text} (bound : digits.digitsValue ≤ Nat.pow 2 53 - 1) :
      IsValue (.number digits) (.int digits.digitsValue)

/-- The tokens of a statement, given those that follow. -/
inductive Spells : List Token → Statement → List Token → Prop where
  | global {line : Int} {rest : List Token} : Spells [⟨.identifier "global", line⟩] .global rest
  | command {line : Int} {path : List Text} {rest : List Token} (nonempty : path ≠ [])
      (stops : ¬ GoesOn line rest) :
      Spells (⟨.identifier "cmd", line⟩ :: path.map fun name => ⟨.identifier name, line⟩)
        (.command path none line) rest
  | described {line place : Int} {path : List Text} {description : Text} {rest : List Token}
      (nonempty : path ≠ []) :
      Spells (⟨.identifier "cmd", line⟩ ::
          ((path.map fun name => ⟨.identifier name, line⟩) ++ [⟨.string description, place⟩]))
        (.command path (some description) line) rest
  | flag {line l₁ l₂ l₃ : Int} {name kind description : Text} {rest : List Token}
      (stops : ¬ GoesOn line rest) :
      Spells [⟨.identifier "flag", line⟩, ⟨.identifier name, l₁⟩, ⟨.identifier kind, l₂⟩,
          ⟨.string description, l₃⟩]
        (.flag ⟨name, none, kind, description, line⟩) rest
  | flagWithShort {line l₁ l₂ l₃ : Int} {name kind description short : Text} {rest : List Token} :
      Spells [⟨.identifier "flag", line⟩, ⟨.identifier name, l₁⟩, ⟨.identifier kind, l₂⟩,
          ⟨.string description, l₃⟩, ⟨.identifier short, line⟩]
        (.flag ⟨name, some short, kind, description, line⟩) rest
  | argument {l₀ l₁ l₂ l₃ : Int} {name kind description : Text} {rest : List Token} :
      Spells [⟨.identifier "arg", l₀⟩, ⟨.identifier name, l₁⟩, ⟨.identifier kind, l₂⟩,
          ⟨.string description, l₃⟩]
        (.argument ⟨name, kind, description⟩) rest
  | assignment {l₀ l₁ l₂ : Int} {word name : Text} {token : Token} {value : AttributeValue}
      {rest : List Token} (either : word = "attr" ∨ word = "param")
      (written : IsValue token.kind value) :
      Spells [⟨.identifier word, l₀⟩, ⟨.identifier name, l₁⟩, ⟨.equals, l₂⟩, token]
        (.assignment name ⟨value, token.line⟩) rest
  | identity {l₀ l₁ l₂ : Int} {name tagline : Text} {rest : List Token} :
      Spells [⟨.identifier "name", l₀⟩, ⟨.string name, l₁⟩, ⟨.string tagline, l₂⟩]
        (.identity ⟨name, tagline⟩) rest
  | exampleLine {l₀ l₁ : Int} {text : Text} {rest : List Token} :
      Spells [⟨.identifier "example", l₀⟩, ⟨.string text, l₁⟩] (.exampleLine text) rest
  | topic {l₀ l₁ l₂ : Int} {name description : Text} {rest : List Token} :
      Spells [⟨.identifier "topic", l₀⟩, ⟨.identifier name, l₁⟩, ⟨.string description, l₂⟩]
        (.topic name description) rest
  | topicBody {l₀ l₁ : Int} {text : Text} {rest : List Token} :
      Spells [⟨.identifier "text", l₀⟩, ⟨.string text, l₁⟩] (.topicBody text) rest

variable {tokens own rest : List Token} {line : Int} {statement : Statement}

theorem IsValue.isLast_eq_false {kind : TokenKind} {value : AttributeValue}
    (h : IsValue kind value) : kind.isLast = false := by
  cases h <;> rfl

theorem Spells.exists_word (h : Spells own statement rest) :
    ∃ word line operands, own = ⟨.identifier word, line⟩ :: operands := by
  cases h <;> exact ⟨_, _, _, rfl⟩

theorem Spells.isLast_eq_false (h : Spells own statement rest) :
    ∀ token ∈ own, token.kind.isLast = false := by
  cases h with
  | assignment _ written =>
    have hvalue := written.isLast_eq_false
    simp only [List.forall_mem_cons, hvalue]
    simp [TokenKind.isLast]
  | _ =>
    simp only [List.forall_mem_cons, List.forall_mem_append, List.forall_mem_map]
    simp [TokenKind.isLast]

/-- The tokens behind a statement matter only in how they go on on the lines of the statement. -/
theorem Spells.of_goesOn (h : Spells own statement rest) {others : List Token}
    (same : ∀ token ∈ own, GoesOn token.line others → GoesOn token.line rest) :
    Spells own statement others := by
  cases h with
  | command nonempty stops => exact .command nonempty (mt (same _ List.mem_cons_self) stops)
  | described nonempty => exact .described nonempty
  | flag stops => exact .flag (mt (same _ List.mem_cons_self) stops)
  | assignment either written => exact .assignment either written
  | global => exact .global
  | flagWithShort => exact .flagWithShort
  | argument => exact .argument
  | identity => exact .identity
  | exampleLine => exact .exampleLine
  | topic => exact .topic
  | topicBody => exact .topicBody

theorem goesOn_cons {token : Token} : GoesOn line (token :: rest) ↔
    ∃ name, token = ⟨.identifier name, line⟩ := by
  simp [GoesOn]

theorem readPath_stops (line : Int) (tokens : List Token) :
    ¬ GoesOn line (readPath line tokens).2 := by
  induction tokens with
  | nil => simp [readPath, GoesOn]
  | cons token tokens ih =>
    obtain ⟨kind, place⟩ := token
    unfold readPath
    cases kind with
    | identifier name =>
      by_cases h : place = line
      · simpa [h] using ih
      · simp [h, GoesOn]
    | _ => simp [GoesOn]

theorem readShort_stops (h : (readShort line tokens).1 = none) : ¬ GoesOn line tokens := by
  rintro ⟨name, hn⟩
  cases tokens with
  | nil => cases hn
  | cons token tokens =>
    cases hn
    simp [readShort] at h

theorem takes_nothing_of_stops (stops : ¬ GoesOn line rest) :
    readPath line rest = ([], rest) ∧ readShort line rest = (none, rest) := by
  cases rest with
  | nil => exact ⟨rfl, rfl⟩
  | cons token rest =>
    obtain ⟨kind, place⟩ := token
    cases kind with
    | identifier name =>
      have apart : place ≠ line := by
        intro he
        apply stops
        rw [he]
        exact ⟨name, rfl⟩
      constructor
      · simp [readPath, apart]
      · simp [readShort, apart]
    | _ => exact ⟨rfl, rfl⟩

theorem readPath_append {path : List Text} (stops : ¬ GoesOn line rest) :
    readPath line ((path.map fun name => ⟨.identifier name, line⟩) ++ rest) = (path, rest) := by
  induction path with
  | nil => exact (takes_nothing_of_stops stops).1
  | cons name path ih => simp [readPath, ih]

theorem readAttributeValue_eq_ok_iff {entry : AttributeEntry} :
    readAttributeValue tokens = .ok (entry, rest) ↔
      ∃ token value, tokens = token :: rest ∧ IsValue token.kind value ∧
        entry = ⟨value, token.line⟩ := by
  constructor
  · intro h
    unfold readAttributeValue at h
    split at h
    · cases h
    · next token behind =>
      obtain ⟨kind, place⟩ := token
      cases kind with
      | string value =>
        cases h
        exact ⟨_, _, rfl, .string, rfl⟩
      | identifier word =>
        simp only at h
        split_ifs at h with yes no
        · cases h
          subst yes
          exact ⟨_, _, rfl, .yes, rfl⟩
        · cases h
          subst no
          exact ⟨_, _, rfl, .no, rfl⟩
      | number digits =>
        simp only at h
        split_ifs at h with bound
        · cases h
          exact ⟨_, _, rfl, .number bound, rfl⟩
      | _ => cases h
  · rintro ⟨⟨kind, place⟩, value, rfl, written, rfl⟩
    cases written with
    | string => rfl
    | yes => rfl
    | no => rfl
    | number bound => exact if_pos bound

/-- What is read behind a keyword is spelled by the keyword and the tokens that are gone. -/
theorem spells_of_readOperands {word : Text} {keyword : Keyword}
    (hword : word ∈ keyword.words) (h : readOperands line tokens keyword = .ok (statement, rest)) :
    statement.keyword = keyword ∧
      ∃ own, tokens = own ++ rest ∧ Spells (⟨.identifier word, line⟩ :: own) statement rest := by
  cases keyword with
  | global =>
    cases h
    cases List.mem_singleton.mp hword
    exact ⟨rfl, [], rfl, .global⟩
  | cmd =>
    cases List.mem_singleton.mp hword
    have spelled := eq_readPath line tokens
    have stops := readPath_stops line tokens
    simp only [readOperands] at h
    split at h
    · cases h
    · next path behind nonempty he =>
      rw [he] at spelled stops
      obtain ⟨place, described⟩ := eq_readOptionalString behind
      cases h
      refine ⟨rfl, ?_⟩
      cases hd : (readOptionalString behind).1 with
      | none =>
        rw [hd] at described
        have all : behind = (readOptionalString behind).2 := described
        rw [← all]
        exact ⟨_, spelled, .command nonempty stops⟩
      | some description =>
        rw [hd] at described
        rw [described] at spelled
        exact ⟨_, spelled.trans (List.append_assoc ..).symm, .described nonempty⟩
  | flag =>
    cases List.mem_singleton.mp hword
    obtain ⟨⟨name, t₁⟩, h₁, h⟩ := exists_of_bind_eq_ok h
    obtain ⟨⟨kind, t₂⟩, h₂, h⟩ := exists_of_bind_eq_ok h
    obtain ⟨⟨description, t₃⟩, h₃, h⟩ := exists_of_bind_eq_ok h
    simp only [Except.ok.injEq, Prod.mk.injEq] at h
    obtain ⟨rfl, rfl⟩ := h
    obtain ⟨l₁, rfl⟩ := exists_of_expect TokenKind.eq_of_identifier? h₁
    obtain ⟨l₂, rfl⟩ := exists_of_expect TokenKind.eq_of_identifier? h₂
    obtain ⟨l₃, rfl⟩ := exists_of_expect TokenKind.eq_of_string? h₃
    have spelled := eq_readShort line t₃
    cases hs : (readShort line t₃).1 with
    | none =>
      rw [hs] at spelled
      have all : t₃ = (readShort line t₃).2 := spelled
      rw [← all]
      exact ⟨rfl, [_, _, _], rfl, .flag (readShort_stops hs)⟩
    | some short =>
      rw [hs] at spelled
      exact ⟨rfl, [_, _, _, _], congrArg (_ :: _ :: _ :: ·) spelled, .flagWithShort⟩
  | arg =>
    cases List.mem_singleton.mp hword
    obtain ⟨⟨name, t₁⟩, h₁, h⟩ := exists_of_bind_eq_ok h
    obtain ⟨⟨kind, t₂⟩, h₂, h⟩ := exists_of_bind_eq_ok h
    obtain ⟨⟨description, t₃⟩, h₃, h⟩ := exists_of_bind_eq_ok h
    obtain ⟨l₁, rfl⟩ := exists_of_expect TokenKind.eq_of_identifier? h₁
    obtain ⟨l₂, rfl⟩ := exists_of_expect TokenKind.eq_of_identifier? h₂
    obtain ⟨l₃, rfl⟩ := exists_of_expect TokenKind.eq_of_string? h₃
    cases h
    exact ⟨rfl, [_, _, _], rfl, .argument⟩
  | attr =>
    obtain ⟨⟨name, t₁⟩, h₁, h⟩ := exists_of_bind_eq_ok h
    obtain ⟨⟨_, t₂⟩, h₂, h⟩ := exists_of_bind_eq_ok h
    obtain ⟨⟨entry, t₃⟩, h₃, h⟩ := exists_of_bind_eq_ok h
    obtain ⟨l₁, rfl⟩ := exists_of_expect TokenKind.eq_of_identifier? h₁
    obtain ⟨l₂, rfl⟩ := exists_of_expect TokenKind.eq_of_equals? h₂
    obtain ⟨token, value, rfl, written, rfl⟩ := readAttributeValue_eq_ok_iff.mp h₃
    cases h
    have either : word = "attr" ∨ word = "param" := by simpa [Keyword.words] using hword
    exact ⟨rfl, [_, _, token], rfl, .assignment either written⟩
  | name =>
    cases List.mem_singleton.mp hword
    obtain ⟨⟨name, t₁⟩, h₁, h⟩ := exists_of_bind_eq_ok h
    obtain ⟨⟨tagline, t₂⟩, h₂, h⟩ := exists_of_bind_eq_ok h
    obtain ⟨l₁, rfl⟩ := exists_of_expect TokenKind.eq_of_string? h₁
    obtain ⟨l₂, rfl⟩ := exists_of_expect TokenKind.eq_of_string? h₂
    cases h
    exact ⟨rfl, [_, _], rfl, .identity⟩
  | exampleLine =>
    cases List.mem_singleton.mp hword
    obtain ⟨⟨text, t₁⟩, h₁, h⟩ := exists_of_bind_eq_ok h
    obtain ⟨l₁, rfl⟩ := exists_of_expect TokenKind.eq_of_string? h₁
    cases h
    exact ⟨rfl, [_], rfl, .exampleLine⟩
  | topic =>
    cases List.mem_singleton.mp hword
    obtain ⟨⟨name, t₁⟩, h₁, h⟩ := exists_of_bind_eq_ok h
    obtain ⟨⟨description, t₂⟩, h₂, h⟩ := exists_of_bind_eq_ok h
    obtain ⟨l₁, rfl⟩ := exists_of_expect TokenKind.eq_of_identifier? h₁
    obtain ⟨l₂, rfl⟩ := exists_of_expect TokenKind.eq_of_string? h₂
    cases h
    exact ⟨rfl, [_, _], rfl, .topic⟩
  | text =>
    cases List.mem_singleton.mp hword
    obtain ⟨⟨text, t₁⟩, h₁, h⟩ := exists_of_bind_eq_ok h
    obtain ⟨l₁, rfl⟩ := exists_of_expect TokenKind.eq_of_string? h₁
    cases h
    exact ⟨rfl, [_], rfl, .topicBody⟩

/-- A command without a description takes a string that follows, wherever it stands; no other statement
takes more than its own tokens. -/
def absorb : Statement → List Token → Statement × List Token
  | .command path none line, rest =>
    (.command path (readOptionalString rest).1 line, (readOptionalString rest).2)
  | statement, rest => (statement, rest)

theorem readOptionalString_of_plain (plain : ∀ value place, rest.head? ≠ some ⟨.string value, place⟩) :
    readOptionalString rest = (none, rest) := by
  unfold readOptionalString
  split
  · exact absurd rfl (plain _ _)
  · rfl

theorem absorb_of_plain (plain : ∀ value place, rest.head? ≠ some ⟨.string value, place⟩)
    (statement : Statement) : absorb statement rest = (statement, rest) := by
  unfold absorb
  split
  · rw [readOptionalString_of_plain plain]
  · rfl

/-- The operands of a statement are read as that statement and what it takes besides. -/
theorem readOperands_of_spells (h : Spells own statement rest) :
    ∃ word line operands, own = ⟨.identifier word, line⟩ :: operands ∧
      word ∈ statement.keyword.words ∧
      readOperands line (operands ++ rest) statement.keyword = .ok (absorb statement rest) := by
  cases h with
  | command nonempty stops =>
    refine ⟨_, _, _, rfl, List.mem_cons_self, ?_⟩
    simp [keyword, readOperands, readPath_append stops, absorb]
  | @described line place path description _ nonempty =>
    refine ⟨_, _, _, rfl, List.mem_cons_self, ?_⟩
    have stops : ¬ GoesOn line (⟨.string description, place⟩ :: rest) := by simp [goesOn_cons]
    simp [keyword, readOperands, readPath_append stops, readOptionalString, absorb]
  | flag stops =>
    refine ⟨_, _, _, rfl, List.mem_cons_self, ?_⟩
    simp [keyword, readOperands, expect, TokenKind.identifier?, TokenKind.string?, Bind.bind,
      Except.bind, absorb, (takes_nothing_of_stops stops).2]
  | flagWithShort =>
    refine ⟨_, _, _, rfl, List.mem_cons_self, ?_⟩
    simp [keyword, readOperands, expect, TokenKind.identifier?, TokenKind.string?, Bind.bind,
      Except.bind, readShort, absorb]
  | assignment either written =>
    refine ⟨_, _, _, rfl, by simpa [keyword, Keyword.words] using either, ?_⟩
    have h : readAttributeValue (_ :: rest) = .ok (_, rest) :=
      readAttributeValue_eq_ok_iff.mpr ⟨_, _, rfl, written, rfl⟩
    simp [keyword, readOperands, expect, TokenKind.identifier?, TokenKind.equals?, Bind.bind,
      Except.bind, h, absorb]
  | _ => exact ⟨_, _, _, rfl, List.mem_cons_self, rfl⟩

end Statement

end CommandLanguage

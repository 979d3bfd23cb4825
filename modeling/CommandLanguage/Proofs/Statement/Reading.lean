import CommandLanguage.Parse

/-!
# What reading takes from the tokens

Each reader of an operand either fails or takes exactly the tokens that spell the operand. A
source is read as a run of such steps: its tree is the left fold of the statements that were read.
-/

set_option autoImplicit false

namespace CommandLanguage

namespace TokenKind

variable {kind : TokenKind}

theorem eq_of_identifier? {name : Text} (h : kind.identifier? = some name) :
    kind = .identifier name := by
  cases kind with
  | identifier => rw [Option.some.inj h]
  | _ => cases h

theorem eq_of_string? {value : Text} (h : kind.string? = some value) : kind = .string value := by
  cases kind with
  | string => rw [Option.some.inj h]
  | _ => cases h

theorem eq_of_equals? {u : Unit} (h : kind.equals? = some u) : kind = .equals := by
  cases kind with
  | equals => rfl
  | _ => cases h

end TokenKind

namespace Statement

variable {tokens rest : List Token}

section Expect
variable {α : Type} {accept : TokenKind → Option α} {operand : Operand} {value : α}

theorem expect_eq_ok_iff :
    expect accept operand tokens = .ok (value, rest) ↔
      ∃ token, tokens = token :: rest ∧ accept token.kind = some value := by
  constructor
  · intro h
    unfold expect at h
    split at h
    · cases h
    · next token behind =>
      split at h
      · next value ha =>
        cases h
        exact ⟨token, rfl, ha⟩
      · cases h
  · rintro ⟨token, rfl, ha⟩
    simp only [expect, ha]

/-- A value that only one kind spells was read from a token of that kind. -/
theorem exists_of_expect {spell : α → TokenKind}
    (spelled : ∀ {kind : TokenKind} {value : α}, accept kind = some value → kind = spell value)
    (h : expect accept operand tokens = .ok (value, rest)) :
    ∃ line, tokens = ⟨spell value, line⟩ :: rest := by
  obtain ⟨⟨kind, line⟩, rfl, ha⟩ := expect_eq_ok_iff.mp h
  cases spelled ha
  exact ⟨line, rfl⟩

end Expect

theorem eq_readPath (line : Int) (tokens : List Token) :
    tokens = (readPath line tokens).1.map (fun name => ⟨.identifier name, line⟩) ++
      (readPath line tokens).2 := by
  induction tokens with
  | nil => rfl
  | cons token tokens ih =>
    obtain ⟨kind, place⟩ := token
    unfold readPath
    cases kind with
    | identifier name =>
      by_cases h : place = line
      · subst h
        simpa using ih
      · simp [h]
    | _ => rfl

theorem eq_readOptionalString (tokens : List Token) :
    ∃ line, tokens =
      (readOptionalString tokens).1.toList.map (fun value => ⟨.string value, line⟩) ++
        (readOptionalString tokens).2 := by
  unfold readOptionalString
  split
  · exact ⟨_, rfl⟩
  · exact ⟨0, rfl⟩

theorem eq_readShort (line : Int) (tokens : List Token) :
    tokens = (readShort line tokens).1.toList.map (fun name => ⟨.identifier name, line⟩) ++
      (readShort line tokens).2 := by
  cases tokens with
  | nil => rfl
  | cons token rest =>
    obtain ⟨kind, place⟩ := token
    cases kind with
    | identifier name =>
      by_cases h : place = line
      · subst h
        simp [readShort]
      · simp [readShort, h]
    | _ => rfl

theorem exists_of_readAttributeValue {entry : AttributeEntry}
    (h : readAttributeValue tokens = .ok (entry, rest)) : ∃ token, tokens = token :: rest := by
  unfold readAttributeValue at h
  split at h
  · cases h
  · next token behind =>
    simp only at h
    split at h
    · cases h
      exact ⟨token, rfl⟩
    · split at h
      · cases h
        exact ⟨token, rfl⟩
      · split at h
        · cases h
          exact ⟨token, rfl⟩
        · cases h
    · split at h
      · cases h
        exact ⟨token, rfl⟩
      · cases h
    · cases h

end Statement

namespace Draft

/-- Some tokens are read as these statements, one after the other, with nothing left over. -/
inductive Reads : Draft → List Token → List Statement → Prop where
  | done {draft : Draft} {tokens : List Token} (complete : isComplete tokens = true) :
      Reads draft tokens []
  | step {draft : Draft} {tokens rest : List Token} {statement : Statement}
      {statements : List Statement} (more : isComplete tokens = false)
      (read : Statement.read draft tokens = .ok (statement, rest))
      (others : Reads (draft.apply statement) rest statements) :
      Reads draft tokens (statement :: statements)

section Extend
variable {draft : Draft} {tokens rest : List Token} {statement : Statement} {e : CompileError}

theorem extend_of_complete (complete : isComplete tokens = true) :
    draft.extend tokens = .ok draft.tree := by
  rw [extend, if_pos complete]

theorem extend_of_read (more : isComplete tokens = false)
    (read : Statement.read draft tokens = .ok (statement, rest)) :
    draft.extend tokens = (draft.apply statement).extend rest := by
  rw [extend, if_neg (ne_true_of_eq_false more)]
  split
  · next read' => rw [read] at read'; cases read'
  · next read' => rw [read] at read'; cases read'; rfl

theorem extend_of_read_error (more : isComplete tokens = false)
    (read : Statement.read draft tokens = .error e) : draft.extend tokens = .error e := by
  rw [extend, if_neg (ne_true_of_eq_false more)]
  split
  · next read' => rw [read] at read'; cases read'; rfl
  · next read' => rw [read] at read'; cases read'

theorem extend_eq_ok_iff {tree : DeclarationTree} :
    draft.extend tokens = .ok tree ↔
      ∃ statements, Reads draft tokens statements ∧ (statements.foldl apply draft).tree = tree := by
  constructor
  · intro h
    induction draft, tokens using extend.induct with
    | case1 draft tokens complete =>
      rw [extend_of_complete complete] at h
      exact ⟨[], .done complete, Except.ok.inj h⟩
    | case2 draft tokens more error read =>
      rw [extend_of_read_error (eq_false_of_ne_true more) read] at h
      cases h
    | case3 draft tokens more statement rest read ih =>
      rw [extend_of_read (eq_false_of_ne_true more) read] at h
      obtain ⟨statements, others, he⟩ := ih h
      exact ⟨statement :: statements, .step (eq_false_of_ne_true more) read others, he⟩
  · rintro ⟨statements, h, rfl⟩
    induction h with
    | done complete => exact extend_of_complete complete
    | step more read _ ih => exact (extend_of_read more read).trans ih

end Extend

end Draft

theorem parse_eq_ok_iff {source : Text} {tree : DeclarationTree} :
    parse source = .ok tree ↔ ∃ statements, Draft.Reads .empty (scan source) statements ∧
      (statements.foldl Draft.apply .empty).tree = tree :=
  Draft.extend_eq_ok_iff

end CommandLanguage

import CommandLanguage.Cursor
import CommandLanguage.Draft

/-!
# Reading a source

`parse` scans a source and reads its tokens statement by statement, up to the end or to the
first token that the grammar does not allow. Every statement takes at least its keyword
(`Statement.length_read_lt`), which is why reading ends.
-/

set_option autoImplicit false

namespace CommandLanguage

namespace Statement

/-- Reads the statement that comes next in a draft. -/
def read (draft : Draft) : List Token → Except CompileError (Statement × List Token)
  | ⟨.identifier word, line⟩ :: rest =>
    match Keyword.ofWord? word with
    | none => .error ⟨.grammatical (.unknownKeyword word), some line⟩
    | some keyword =>
      match draft.objection keyword with
      | some fault => .error ⟨.grammatical fault, some line⟩
      | none => readOperands line rest keyword
  | tokens => .error (.atToken .expectedKeyword tokens)

section Length

variable {tokens rest : List Token}

theorem length_expect_le {α : Type} {accept : TokenKind → Option α} {operand : Operand} {value : α}
    (h : expect accept operand tokens = .ok (value, rest)) : rest.length ≤ tokens.length := by
  unfold expect at h
  split at h
  · cases h
  · split at h
    · cases h
      exact Nat.le_succ _
    · cases h

theorem length_readPath_le (line : Int) (tokens : List Token) :
    (readPath line tokens).2.length ≤ tokens.length := by
  induction tokens with
  | nil => simp [readPath]
  | cons token tokens ih =>
    unfold readPath
    split
    · split
      · exact Nat.le_succ_of_le ih
      · exact Nat.le_refl _
    · exact Nat.le_refl _

theorem length_readOptionalString_le (tokens : List Token) :
    (readOptionalString tokens).2.length ≤ tokens.length := by
  unfold readOptionalString
  split
  · exact Nat.le_succ _
  · exact Nat.le_refl _

theorem length_readShort_le (line : Int) (tokens : List Token) :
    (readShort line tokens).2.length ≤ tokens.length := by
  unfold readShort
  split
  · exact Nat.le_refl _
  · split
    · split
      · exact Nat.le_succ _
      · exact Nat.le_refl _
    · exact Nat.le_refl _

theorem length_readAttributeValue_le {entry : AttributeEntry}
    (h : readAttributeValue tokens = .ok (entry, rest)) : rest.length ≤ tokens.length := by
  unfold readAttributeValue at h
  split at h
  · cases h
  · next token behind =>
    have hb : behind.length ≤ (token :: behind).length := Nat.le_succ _
    simp only at h
    split at h
    · cases h
      exact hb
    · split at h
      · cases h
        exact hb
      · split at h
        · cases h
          exact hb
        · cases h
    · split at h
      · cases h
        exact hb
      · cases h
    · cases h

/-- Steps that succeed together succeed one by one. -/
theorem exists_of_bind_eq_ok {ε α β : Type} {step : Except ε α} {next : α → Except ε β} {b : β}
    (h : (step >>= next) = .ok b) : ∃ a, step = .ok a ∧ next a = .ok b := by
  cases step with
  | error e => cases h
  | ok a => exact ⟨a, rfl, h⟩

theorem length_readOperands_le {line : Int} {keyword : Keyword} {statement : Statement}
    (h : readOperands line tokens keyword = .ok (statement, rest)) :
    rest.length ≤ tokens.length := by
  cases keyword with
  | global =>
    cases h
    exact Nat.le_refl _
  | cmd =>
    have hp := length_readPath_le line tokens
    simp only [readOperands] at h
    split at h
    · cases h
    · next path behind _ he =>
      cases h
      rw [he] at hp
      exact Nat.le_trans (length_readOptionalString_le behind) hp
  | flag =>
    obtain ⟨⟨_, t₁⟩, h₁, h⟩ := exists_of_bind_eq_ok h
    obtain ⟨⟨_, t₂⟩, h₂, h⟩ := exists_of_bind_eq_ok h
    obtain ⟨⟨_, t₃⟩, h₃, h⟩ := exists_of_bind_eq_ok h
    simp only [Except.ok.injEq, Prod.mk.injEq] at h
    rw [← h.2]
    have := length_expect_le h₁
    have := length_expect_le h₂
    have := length_expect_le h₃
    exact Nat.le_trans (length_readShort_le line t₃) (by omega)
  | arg =>
    obtain ⟨⟨_, t₁⟩, h₁, h⟩ := exists_of_bind_eq_ok h
    obtain ⟨⟨_, t₂⟩, h₂, h⟩ := exists_of_bind_eq_ok h
    obtain ⟨⟨_, t₃⟩, h₃, h⟩ := exists_of_bind_eq_ok h
    cases h
    have := length_expect_le h₁
    have := length_expect_le h₂
    have := length_expect_le h₃
    omega
  | attr =>
    obtain ⟨⟨_, t₁⟩, h₁, h⟩ := exists_of_bind_eq_ok h
    obtain ⟨⟨_, t₂⟩, h₂, h⟩ := exists_of_bind_eq_ok h
    obtain ⟨⟨_, t₃⟩, h₃, h⟩ := exists_of_bind_eq_ok h
    cases h
    have := length_expect_le h₁
    have := length_expect_le h₂
    have := length_readAttributeValue_le h₃
    omega
  | name =>
    obtain ⟨⟨_, t₁⟩, h₁, h⟩ := exists_of_bind_eq_ok h
    obtain ⟨⟨_, t₂⟩, h₂, h⟩ := exists_of_bind_eq_ok h
    cases h
    exact Nat.le_trans (length_expect_le h₂) (length_expect_le h₁)
  | exampleLine =>
    obtain ⟨⟨_, t₁⟩, h₁, h⟩ := exists_of_bind_eq_ok h
    cases h
    exact length_expect_le h₁
  | topic =>
    obtain ⟨⟨_, t₁⟩, h₁, h⟩ := exists_of_bind_eq_ok h
    obtain ⟨⟨_, t₂⟩, h₂, h⟩ := exists_of_bind_eq_ok h
    cases h
    exact Nat.le_trans (length_expect_le h₂) (length_expect_le h₁)
  | text =>
    obtain ⟨⟨_, t₁⟩, h₁, h⟩ := exists_of_bind_eq_ok h
    cases h
    exact length_expect_le h₁

/-- A statement takes at least its keyword. -/
theorem length_read_lt {draft : Draft} {statement : Statement}
    (h : read draft tokens = .ok (statement, rest)) : rest.length < tokens.length := by
  unfold read at h
  split at h
  · split at h
    · cases h
    · split at h
      · cases h
      · exact Nat.lt_succ_of_le (length_readOperands_le h)
  · cases h

end Length

end Statement

namespace Draft

def isComplete : List Token → Bool
  | [] => true
  | token :: _ => token.kind = .endOfInput

/-- The tree of a draft and the statements that follow it. -/
def extend (draft : Draft) (tokens : List Token) : Except CompileError DeclarationTree :=
  if isComplete tokens then .ok draft.tree
  else
    match _ : Statement.read draft tokens with
    | .error e => .error e
    | .ok (statement, rest) => (draft.apply statement).extend rest
termination_by tokens.length
decreasing_by
  rename_i h
  exact Statement.length_read_lt h

end Draft

/-- The declarations of a source, or the first error in it. -/
def parse (source : Text) : Except CompileError DeclarationTree :=
  Draft.empty.extend (scan source)

end CommandLanguage

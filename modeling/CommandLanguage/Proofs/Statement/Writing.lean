import CommandLanguage.Proofs.Declaration.Lines
import CommandLanguage.Proofs.Text.Digits
import CommandLanguage.Proofs.Token.Layout

/-!
# Writing statements

A statement is written as its keyword and its operands. With a line to itself, it takes no
identifier of the statement behind it, and any name may be an operand of it, keywords included.
-/

set_option autoImplicit false

namespace CommandLanguage

open Text

/-- The text can stand between quotes on one line. -/
def Text.IsPlain (t : Text) : Prop := quote ∉ t ∧ lineFeed ∉ t

instance : DecidablePred Text.IsPlain := fun t =>
  inferInstanceAs (Decidable (quote ∉ t ∧ lineFeed ∉ t))

namespace AttributeValue

/-- Numbers are written without a sign, up to the greatest whole number of an attribute. -/
def Writable : AttributeValue → Prop
  | .bool _ => True
  | .string value => value.IsPlain
  | .int value => 0 ≤ value ∧ value ≤ (Nat.pow 2 53 - 1 : Nat)

instance : DecidablePred Writable
  | .bool _ => isTrue trivial
  | .string value => inferInstanceAs (Decidable value.IsPlain)
  | .int value => inferInstanceAs (Decidable (0 ≤ value ∧ value ≤ (Nat.pow 2 53 - 1 : Nat)))

def lexeme : AttributeValue → Lexeme
  | .bool true => .word "true"
  | .bool false => .word "false"
  | .string value => .quoted value
  | .int value => .number (ofNat value.toNat)

theorem isValue_lexeme {value : AttributeValue} (h : value.Writable) :
    Statement.IsValue value.lexeme.kind value := by
  cases value with
  | bool value =>
    cases value
    · exact .no
    · exact .yes
  | string value => exact .string
  | int value =>
    obtain ⟨low, high⟩ := h
    have digits : (ofNat value.toNat).digitsValue = value.toNat := digitsValue_ofNat _
    have bound : (ofNat value.toNat).digitsValue ≤ Nat.pow 2 53 - 1 := by
      rw [digits]
      exact Int.toNat_le.mpr high
    have written := Statement.IsValue.number bound
    rwa [digits, Int.toNat_of_nonneg low] at written

end AttributeValue

namespace Lexeme

def FitsOnLine (lexeme : Lexeme) : Prop := lexeme.WellFormed ∧ lexeme.text.lineFeeds = 0

theorem word_fits {name : Text} (h : IsIdentifier name) : (word name).FitsOnLine := by
  have formed : (word name).WellFormed := h
  exact ⟨formed, lineFeeds_text formed⟩

theorem quoted_fits {body : Text} (h : body.IsPlain) : (quoted body).FitsOnLine := by
  have formed : (quoted body).WellFormed := h
  exact ⟨formed, lineFeeds_text formed⟩

theorem number_fits (n : Nat) : (number (ofNat n)).FitsOnLine := by
  have nonempty : ofNat n ≠ [] := by
    intro empty
    have numeral := isNumeral_ofNat n
    rw [empty] at numeral
    cases numeral
  have formed : (number (ofNat n)).WellFormed := ⟨nonempty, isDigit_of_mem_ofNat n⟩
  exact ⟨formed, lineFeeds_text formed⟩

theorem equalsSign_fits : equalsSign.FitsOnLine := ⟨trivial, rfl⟩

theorem value_fits {value : AttributeValue} (h : value.Writable) : value.lexeme.FitsOnLine := by
  cases value with
  | bool value =>
    cases value
    · exact word_fits (by decide)
    · exact word_fits (by decide)
  | string value => exact quoted_fits h
  | int value => exact number_fits _

end Lexeme

structure FlagDeclaration.Writable (flag : FlagDeclaration) : Prop extends flag.Named where
  description : flag.description.IsPlain

structure Argument.Writable (argument : Argument) : Prop extends argument.Named where
  description : argument.description.IsPlain

namespace Statement

/-- The operands of the statement can be written. -/
def Writable : Statement → Prop
  | .global => True
  | .command path description _ =>
    path ≠ [] ∧ (∀ name ∈ path, IsIdentifier name) ∧ ∀ text ∈ description, text.IsPlain
  | .flag declared => declared.Writable
  | .argument declared => declared.Writable
  | .assignment name entry => IsIdentifier name ∧ entry.value.Writable
  | .identity declared => declared.name.IsPlain ∧ declared.tagline.IsPlain
  | .exampleLine text => text.IsPlain
  | .topic name description => IsIdentifier name ∧ description.IsPlain
  | .topicBody text => text.IsPlain

def word (statement : Statement) : Text := statement.keyword.words.headD []

def operands : Statement → List Lexeme
  | .global => []
  | .command path description _ => path.map .word ++ description.toList.map .quoted
  | .flag declared =>
    [.word declared.name, .word declared.kind, .quoted declared.description] ++
      declared.short.toList.map .word
  | .argument declared =>
    [.word declared.name, .word declared.kind, .quoted declared.description]
  | .assignment name entry => [.word name, .equalsSign, entry.value.lexeme]
  | .identity declared => [.quoted declared.name, .quoted declared.tagline]
  | .exampleLine text => [.quoted text]
  | .topic name description => [.word name, .quoted description]
  | .topicBody text => [.quoted text]

/-- The tokens of the statement on one line. -/
def tokens (line : Int) (statement : Statement) : List Token :=
  ⟨.identifier statement.word, line⟩ ::
    statement.operands.map fun lexeme => ⟨lexeme.kind, line⟩

/-- The statement on a line of its own. -/
def pieces (statement : Statement) : List (Text × Lexeme) :=
  ([lineFeed], .word statement.word) ::
    statement.operands.map fun lexeme => ([unit ' '], lexeme)

variable {statement : Statement} {rest : List Token} {line : Int}

theorem isIdentifier_word (statement : Statement) : IsIdentifier statement.word := by
  have words : ∀ keyword : Keyword, IsIdentifier (keyword.words.headD []) := by
    intro keyword
    cases keyword <;> decide
  exact words statement.keyword

theorem operands_fit (h : statement.Writable) :
    ∀ lexeme ∈ statement.operands, lexeme.FitsOnLine := by
  cases statement with
  | global => exact List.forall_mem_nil _
  | command path description line =>
    obtain ⟨_, names, text⟩ := h
    refine List.forall_mem_append.mpr ⟨?_, ?_⟩
    · exact List.forall_mem_map.mpr fun name hn => Lexeme.word_fits (names name hn)
    · refine List.forall_mem_map.mpr fun value hv => Lexeme.quoted_fits (text value ?_)
      exact Option.mem_toList.mp hv
  | flag declared =>
    refine List.forall_mem_append.mpr ⟨?_, ?_⟩
    · simp only [List.forall_mem_cons]
      exact ⟨Lexeme.word_fits h.name, Lexeme.word_fits h.kind, Lexeme.quoted_fits h.description,
        List.forall_mem_nil _⟩
    · refine List.forall_mem_map.mpr fun short hs => Lexeme.word_fits (h.short short ?_)
      exact Option.mem_toList.mp hs
  | argument declared =>
    simp only [operands, List.forall_mem_cons]
    exact ⟨Lexeme.word_fits h.name, Lexeme.word_fits h.kind, Lexeme.quoted_fits h.description,
      List.forall_mem_nil _⟩
  | assignment name entry =>
    simp only [operands, List.forall_mem_cons]
    exact ⟨Lexeme.word_fits h.1, Lexeme.equalsSign_fits, Lexeme.value_fits h.2,
      List.forall_mem_nil _⟩
  | identity declared =>
    simp only [operands, List.forall_mem_cons]
    exact ⟨Lexeme.quoted_fits h.1, Lexeme.quoted_fits h.2, List.forall_mem_nil _⟩
  | exampleLine text => exact List.forall_mem_singleton.mpr (Lexeme.quoted_fits h)
  | topic name description =>
    simp only [operands, List.forall_mem_cons]
    exact ⟨Lexeme.word_fits h.1, Lexeme.quoted_fits h.2, List.forall_mem_nil _⟩
  | topicBody text => exact List.forall_mem_singleton.mpr (Lexeme.quoted_fits h)

/-- On a line of its own, a statement is spelled by its tokens. -/
theorem spells_tokens (h : statement.Writable) (stops : ¬ GoesOn line rest) :
    Spells (statement.tokens line) (statement.onLine line) rest := by
  cases statement with
  | global => exact .global
  | command path description _ =>
    have names : (path.map Lexeme.word).map (fun lexeme => (⟨lexeme.kind, line⟩ : Token)) =
        path.map fun name => ⟨.identifier name, line⟩ := List.map_map
    rw [tokens, operands, List.map_append, names]
    cases description with
    | none =>
      rw [Option.toList_none, List.map_nil, List.map_nil, List.append_nil]
      exact .command h.1 stops
    | some description => exact .described h.1
  | flag declared =>
    obtain ⟨name, short, kind, description, _⟩ := declared
    cases short with
    | none => exact .flag stops
    | some short => exact .flagWithShort
  | argument declared => exact .argument
  | assignment name entry => exact .assignment (.inl rfl) (AttributeValue.isValue_lexeme h.2)
  | identity declared => exact .identity
  | exampleLine text => exact .exampleLine
  | topic name description => exact .topic
  | topicBody text => exact .topicBody

/-- A source in which every statement has a line to itself. -/
def write (statements : List Statement) : Text := layOut (statements.flatMap pieces) []

def tokensFrom (line : Int) : List Statement → List Token
  | [] => []
  | statement :: statements => statement.tokens line ++ tokensFrom (line + 1) statements

theorem tokensFrom_stops (line : Int) (statements : List Statement) :
    ¬ GoesOn line (tokensFrom (line + 1) statements) := by
  rintro ⟨name, hn⟩
  cases statements with
  | nil => cases hn
  | cons statement statements =>
    have later : line + 1 = line := congrArg Token.line (Option.some.inj hn)
    omega

theorem isLast_of_mem_tokensFrom {line : Int} {statements : List Statement} :
    ∀ token ∈ tokensFrom line statements, token.kind.isLast = false := by
  induction statements generalizing line with
  | nil => exact List.forall_mem_nil _
  | cons statement statements ih =>
    refine List.forall_mem_append.mpr ⟨List.forall_mem_cons.mpr ⟨rfl, ?_⟩, ih⟩
    exact List.forall_mem_map.mpr fun lexeme _ => lexeme.isLast_kind

section Lines
variable {statements : List Statement}

theorem tokensBehind_operands {lexemes : List Lexeme}
    (fit : ∀ lexeme ∈ lexemes, lexeme.FitsOnLine) (before : Text)
    (others : List (Text × Lexeme)) :
    ∃ after : Text, after.lineFeeds = before.lineFeeds ∧
      tokensBehind before ((lexemes.map fun lexeme => ([unit ' '], lexeme)) ++ others) [] =
        (lexemes.map fun lexeme => ⟨lexeme.kind, 1 + before.lineFeeds⟩) ++
          tokensBehind after others [] := by
  have blank : lineFeeds [unit ' '] = 0 := by decide
  -- The text before grows with every operand, and its line feeds stay.
  induction lexemes generalizing before with
  | nil => exact ⟨before, rfl, rfl⟩
  | cons lexeme lexemes ih =>
    obtain ⟨first, rest⟩ := List.forall_mem_cons.mp fit
    have same : lineFeeds (before ++ ([unit ' '] ++ lexeme.text)) = before.lineFeeds := by
      rw [lineFeeds_append, lineFeeds_append, blank, first.2]
      omega
    obtain ⟨after, ha, tokens⟩ := ih rest (before ++ ([unit ' '] ++ lexeme.text))
    rw [same] at ha tokens
    refine ⟨after, ha, ?_⟩
    rw [List.map_cons, List.cons_append, tokensBehind, tokens, lineFeeds_append, blank,
      Int.add_zero, List.map_cons, List.cons_append]

theorem tokensBehind_pieces (h : statement.Writable) (before : Text)
    (others : List (Text × Lexeme)) :
    ∃ after : Text, after.lineFeeds = before.lineFeeds + 1 ∧
      tokensBehind before (statement.pieces ++ others) [] =
        statement.tokens (1 + (before.lineFeeds + 1)) ++ tokensBehind after others [] := by
  have line : lineFeeds [lineFeed] = 1 := by decide
  have begun : lineFeeds (before ++ ([lineFeed] ++ statement.word)) = before.lineFeeds + 1 := by
    have word : statement.word.lineFeeds = 0 := (Lexeme.word_fits (isIdentifier_word statement)).2
    rw [lineFeeds_append, lineFeeds_append, line, word]
    omega
  obtain ⟨after, ha, tokens⟩ :=
    tokensBehind_operands (operands_fit h) (before ++ ([lineFeed] ++ statement.word)) others
  rw [begun] at ha tokens
  refine ⟨after, ha, ?_⟩
  rw [pieces, List.cons_append, tokensBehind]
  refine Eq.trans (congrArg _ tokens) ?_
  rw [lineFeeds_append, line]
  rfl

theorem exists_tokensBehind (h : ∀ statement ∈ statements, statement.Writable) (before : Text) :
    ∃ line, tokensBehind before (statements.flatMap pieces) [] =
      tokensFrom (1 + (before.lineFeeds + 1)) statements ++ [⟨.endOfInput, line⟩] := by
  induction statements generalizing before with
  | nil => exact ⟨_, rfl⟩
  | cons statement statements ih =>
    obtain ⟨first, rest⟩ := List.forall_mem_cons.mp h
    obtain ⟨after, ha, tokens⟩ := tokensBehind_pieces first before (statements.flatMap pieces)
    obtain ⟨line, others⟩ := ih rest after
    have next : 1 + (after.lineFeeds + 1) = 1 + (before.lineFeeds + 1) + 1 := by omega
    refine ⟨line, ?_⟩
    rw [List.flatMap_cons, tokens, others, next, tokensFrom, List.append_assoc]

theorem isLayout_write (h : ∀ statement ∈ statements, statement.Writable) :
    IsLayout (statements.flatMap pieces) [] := by
  have blank {u : CodeUnit} (hu : isBlank u = true) : IsTrivia [u] := .blank hu .nil
  have fits : ∀ piece ∈ statements.flatMap pieces,
      piece.2.WellFormed ∧ IsTrivia piece.1 ∧ piece.1 ≠ [] := by
    intro piece hp
    obtain ⟨statement, hs, hp⟩ := List.mem_flatMap.mp hp
    rcases List.mem_cons.mp hp with rfl | hp
    · exact ⟨isIdentifier_word statement, blank (by decide), by simp⟩
    · obtain ⟨lexeme, hl, rfl⟩ := List.mem_map.mp hp
      exact ⟨(operands_fit (h statement hs) lexeme hl).1, blank (by decide), by simp⟩
  constructor
  · exact fun piece hp => (fits piece hp).1
  · exact fun piece hp => (fits piece hp).2.1
  · exact fun piece hp => (fits piece (List.mem_of_mem_tail hp)).2.2
  · exact .inl .nil

/-- The tokens of written statements are theirs, on consecutive lines. -/
theorem exists_scan_write (h : ∀ statement ∈ statements, statement.Writable) :
    ∃ line, scan (write statements) = tokensFrom 2 statements ++ [⟨.endOfInput, line⟩] := by
  obtain ⟨line, tokens⟩ := exists_tokensBehind h []
  exact ⟨line, (tokens_layOut (isLayout_write h) []).trans tokens⟩

end Lines

end Statement

end CommandLanguage

import CommandLanguage.Proofs.Statement.OnDemand
import Mathlib.Data.List.Infix

/-!
# Where reading halts

Statements and sources read on demand. Every lookahead of a statement is at the token at hand, and
the token is taken only when it is neither the end of the input nor a fault, so a source is read
like the list of its tokens, and an error depends on the tokens up to the one at which reading halts.
-/

set_option autoImplicit false

namespace CommandLanguage

open Statement (readPath readOptionalString readShort readAttributeValue readOperands greatestInt
  length_read_lt)

/-- The name of an identifier on the given line. -/
def Token.nameOn (line : Int) (token : Token) : Option Text :=
  if token.line = line then token.kind.identifier? else none

theorem Token.isLast_eq_false_of_nameOn {line : Int} {token : Token} {name : Text}
    (h : token.nameOn line = some name) : token.kind.isLast = false := by
  unfold nameOn at h
  split at h
  · rw [TokenKind.eq_of_identifier? h]
    rfl
  · cases h

namespace OnDemand

/-- Takes the identifiers on the given line, up to the first other token. -/
def namesOn (line : Int) (r : Reader) : List Text × Reader :=
  match _ : r.token.nameOn line with
  | none => ([], r)
  | some name =>
    let (names, after) := namesOn line r.advance
    (name :: names, after)
termination_by r.ahead.length
decreasing_by
  rename_i h
  rw [Reader.ahead_advance (Token.isLast_eq_false_of_nameOn h)]
  exact Nat.lt_succ_self _

def path (line : Int) : OnDemand (List Text) :=
  fun r => (.ok (namesOn line r).1, (namesOn line r).2)

def identifier (operand : Operand) : OnDemand Text := expect TokenKind.identifier? operand

def string (operand : Operand) : OnDemand Text := expect TokenKind.string? operand

/-- The value that a token gives to an attribute. -/
def attributeEntry (found : Token) : Except GrammarFault AttributeEntry :=
  match found.kind with
  | .string value => .ok ⟨.string value, found.line⟩
  | .identifier word =>
    if word = "true" then .ok ⟨.bool true, found.line⟩
    else if word = "false" then .ok ⟨.bool false, found.line⟩
    else .error (.expectedAttributeValue found.kind)
  | .number digits =>
    if digits.digitsValue ≤ greatestInt then .ok ⟨.int digits.digitsValue, found.line⟩
    else .error (.invalidNumber digits)
  | _ => .error (.expectedAttributeValue found.kind)

/-- The command of a path, which has to name some command, and its description, if it has one. -/
def command (line : Int) : List Text → OnDemand Statement
  | [] => do
    let found ← token
    fail (.expectedCommandPath found.kind)
  | name :: names => do
    let description ← optional fun found => found.kind.string?
    pure (.command (name :: names) description line)

/-- Reads the operands of a keyword that stands on the given line. -/
def operands (line : Int) : Keyword → OnDemand Statement
  | .global => pure .global
  | .cmd => do
    let path ← path line
    command line path
  | .flag => do
    let name ← identifier .flagName
    let kind ← identifier .flagType
    let description ← string .flagDescription
    let short ← optional (Token.nameOn line)
    pure (.flag ⟨name, short, kind, description, line⟩)
  | .arg => do
    let name ← identifier .argName
    let kind ← identifier .argType
    let description ← string .argDescription
    pure (.argument ⟨name, kind, description⟩)
  | .attr => do
    let name ← identifier .attributeName
    let () ← expect TokenKind.equals? .equalsSign
    let entry ← take attributeEntry
    pure (.assignment name entry)
  | .name => do
    let name ← string .appName
    let tagline ← string .tagline
    pure (.identity ⟨name, tagline⟩)
  | .exampleLine => do
    let text ← string .exampleLine
    pure (.exampleLine text)
  | .topic => do
    let name ← identifier .topicName
    let description ← string .topicDescription
    pure (.topic name description)
  | .text => do
    let text ← string .topicText
    pure (.topicBody text)

/-- The keyword that a token spells and its line, if a draft allows the keyword. -/
def keyword (draft : Draft) (found : Token) : Except GrammarFault (Keyword × Int) :=
  match found.kind with
  | .identifier word =>
    match Keyword.ofWord? word with
    | none => .error (.unknownKeyword word)
    | some keyword =>
      match draft.objection keyword with
      | some fault => .error fault
      | none => .ok (keyword, found.line)
  | got => .error (.expectedKeyword got)

/-- Reads the statement that comes next in a draft. -/
def statement (draft : Draft) : OnDemand Statement := do
  let (keyword, line) ← take (keyword draft)
  operands line keyword

variable {r : Reader} {draft : Draft} {line : Int}

theorem readPath_of_nameOn {token : Token} {name : Text} (h : token.nameOn line = some name)
    (rest : List Token) : readPath line (token :: rest) =
      (name :: (readPath line rest).1, (readPath line rest).2) := by
  obtain ⟨kind, place⟩ := token
  unfold Token.nameOn at h
  split at h
  · next hline =>
    cases kind with
    | identifier word =>
      cases h
      simp only [readPath, if_pos hline]
    | _ => cases h
  · cases h

theorem readPath_of_nameOn_none {token : Token} (h : token.nameOn line = none) (rest : List Token) :
    readPath line (token :: rest) = ([], token :: rest) := by
  obtain ⟨kind, place⟩ := token
  unfold Token.nameOn at h
  cases kind with
  | identifier word =>
    split at h
    · cases h
    · next hline => simp only [readPath, if_neg hline]
  | _ => rfl

theorem namesOn_takes (line : Int) (r : Reader) :
    ∃ own, r.Takes own (namesOn line r).2 ∧ ∀ rest,
      readPath line (own ++ (namesOn line r).2.token :: rest) =
        ((namesOn line r).1, (namesOn line r).2.token :: rest) := by
  fun_induction namesOn line r with
  | case1 r hn =>
    refine ⟨[], r.takes_nothing, ?_⟩
    intro rest
    rw [List.nil_append, readPath_of_nameOn_none hn]
  | case2 r name hn names after run ih =>
    obtain ⟨own, takes, same⟩ := ih
    rw [run] at takes same
    refine ⟨r.token :: own, takes.cons (Token.isLast_eq_false_of_nameOn hn), ?_⟩
    intro rest
    rw [List.cons_append, readPath_of_nameOn hn, same]

theorem drives_path (line : Int) : Drives (path line) fun tokens => .ok (readPath line tokens) := by
  intro r
  obtain ⟨own, takes, same⟩ := namesOn_takes line r
  refine .ok rfl takes ?_
  intro rest
  rw [same]

theorem drives_identifier (operand : Operand) :
    Drives (identifier operand) (Statement.expect TokenKind.identifier? operand) :=
  drives_expect rfl (fun _ => rfl) operand

theorem drives_string (operand : Operand) :
    Drives (string operand) (Statement.expect TokenKind.string? operand) :=
  drives_expect rfl (fun _ => rfl) operand

theorem drives_attributeEntry : Drives (take attributeEntry) readAttributeValue := by
  apply drives_take
  · rintro ⟨kind, line⟩ entry h
    cases kind with
    | endOfInput | fault => cases h
    | _ => rfl
  · rintro ⟨kind, line⟩ rest
    cases kind with
    | identifier word =>
      by_cases ht : word = "true"
      · simp only [readAttributeValue, attributeEntry, if_pos ht]
      · by_cases hf : word = "false"
        · simp only [readAttributeValue, attributeEntry, if_neg ht, if_pos hf]
        · simp only [readAttributeValue, attributeEntry, if_neg ht, if_neg hf]
          rfl
    | number digits =>
      by_cases hd : digits.digitsValue ≤ greatestInt
      · simp only [readAttributeValue, attributeEntry, if_pos hd]
      · simp only [readAttributeValue, attributeEntry, if_neg hd]
        rfl
    | _ => rfl

theorem drives_optionalString : Drives (optional fun found => found.kind.string?) fun tokens =>
    .ok (readOptionalString tokens) := by
  apply drives_optional
  · intro token value
    exact TokenKind.isLast_eq_false rfl fun _ => rfl
  · rintro ⟨kind, line⟩ rest
    cases kind <;> rfl

theorem drives_short (line : Int) : Drives (optional (Token.nameOn line)) fun tokens =>
    .ok (readShort line tokens) := by
  apply drives_optional
  · intro token name
    exact Token.isLast_eq_false_of_nameOn
  · rintro ⟨kind, place⟩ rest
    by_cases h : place = line <;> cases kind <;>
      simp [readShort, Token.nameOn, TokenKind.identifier?, h]

theorem drives_command (line : Int) (path : List Text) :
    Drives (command line path) fun tokens =>
      match path with
      | [] => .error (.atToken .expectedCommandPath tokens)
      | name :: names =>
        let (description, rest) := readOptionalString tokens
        .ok (.command (name :: names) description line, rest) := by
  cases path with
  | nil =>
    intro r
    refine .error (fail_apply _ r) r.takes_nothing (CompileError.isAt_atToken _ _ _) ?_
    intro rest
    rw [List.nil_append, CompileError.atToken_cons]
  | cons name names => exact drives_optionalString.bind fun description => drives_pure _

theorem drives_operands (line : Int) (keyword : Keyword) :
    Drives (operands line keyword) fun tokens => readOperands line tokens keyword := by
  cases keyword with
  | global => exact drives_pure _
  | cmd =>
    have read := (drives_path line).bind (drives_command line)
    have same (tokens : List Token) : readOperands line tokens .cmd =
        match (readPath line tokens).1 with
        | [] => .error (.atToken .expectedCommandPath (readPath line tokens).2)
        | name :: names =>
          let (description, rest) := readOptionalString (readPath line tokens).2
          .ok (.command (name :: names) description line, rest) := by
      unfold readOperands
      rcases readPath line tokens with ⟨_ | _, _⟩ <;> rfl
    simp only [same]
    exact read
  | flag =>
    exact (drives_identifier .flagName).bind fun name =>
      (drives_identifier .flagType).bind fun kind =>
      (drives_string .flagDescription).bind fun description =>
      (drives_short line).bind fun short => drives_pure _
  | arg =>
    exact (drives_identifier .argName).bind fun name =>
      (drives_identifier .argType).bind fun kind =>
      (drives_string .argDescription).bind fun description => drives_pure _
  | attr =>
    exact (drives_identifier .attributeName).bind fun name =>
      (drives_expect rfl (fun _ => rfl) .equalsSign).bind fun _ =>
      drives_attributeEntry.bind fun entry => drives_pure _
  | name =>
    exact (drives_string .appName).bind fun name =>
      (drives_string .tagline).bind fun tagline => drives_pure _
  | exampleLine => exact (drives_string .exampleLine).bind fun text => drives_pure _
  | topic =>
    exact (drives_identifier .topicName).bind fun name =>
      (drives_string .topicDescription).bind fun description => drives_pure _
  | text => exact (drives_string .topicText).bind fun text => drives_pure _

/-- What the keyword takes from a list of tokens. -/
def readKeyword (draft : Draft) : List Token → Except CompileError ((Keyword × Int) × List Token)
  | [] => .error (.atToken .expectedKeyword [])
  | token :: rest =>
    match keyword draft token with
    | .ok read => .ok (read, rest)
    | .error fault => .error (.atToken (fun _ => fault) [token])

theorem read_eq (draft : Draft) (tokens : List Token) : Statement.read draft tokens =
    readKeyword draft tokens >>= fun read => readOperands read.1.2 read.2 read.1.1 := by
  match tokens with
  | [] => rfl
  | ⟨.identifier word, line⟩ :: rest =>
    cases hk : Keyword.ofWord? word with
    | none =>
      simp only [Statement.read, readKeyword, OnDemand.keyword, hk]
      rfl
    | some keyword =>
      cases hf : draft.objection keyword <;>
        simp only [Statement.read, readKeyword, OnDemand.keyword, hk, hf] <;> rfl
  | ⟨.string _, _⟩ :: _ | ⟨.number _, _⟩ :: _ | ⟨.equals, _⟩ :: _ | ⟨.endOfInput, _⟩ :: _
  | ⟨.fault _, _⟩ :: _ => rfl

theorem drives_keyword (draft : Draft) : Drives (take (keyword draft)) (readKeyword draft) := by
  apply drives_take
  · rintro ⟨kind, line⟩ read h
    cases kind with
    | identifier => rfl
    | _ => cases h
  · intro token rest
    rw [readKeyword]
    cases keyword draft token <;> rfl

theorem drives_statement (draft : Draft) : Drives (statement draft) (Statement.read draft) := by
  have read := (drives_keyword draft).bind fun read => drives_operands read.2 read.1
  rw [funext (read_eq draft)]
  exact read

/-- A statement leaves fewer tokens. -/
theorem length_ahead_lt {read : Statement} {after : Reader}
    (h : statement draft r = (.ok read, after)) : after.ahead.length < r.ahead.length := by
  cases drives_statement draft r with
  | error run => rw [run] at h; cases h
  | @ok own _ _ run takes same =>
    rw [run] at h
    cases h
    have taken := length_read_lt (same [])
    rw [List.length_append] at taken
    rw [takes.ahead, List.length_append]
    omega

/-- Reads statements and applies them to a draft, up to the end of the input. -/
def declarations (draft : Draft) (r : Reader) : Except CompileError DeclarationTree × Reader :=
  match check r with
  | (.error e, _) => (.error e, r)
  | (.ok (), _) =>
    if r.token.kind = .endOfInput then (.ok draft.tree, r)
    else
      match _ : statement draft r with
      | (.error e, after) => (.error e, after)
      | (.ok statement, after) => declarations (draft.apply statement) after
termination_by r.ahead.length
decreasing_by
  rename_i h
  exact length_ahead_lt h

end OnDemand

/-- Reads a source on demand; the reader that is left is where reading ended or halted. -/
def parseOnDemand (source : Text) : Except CompileError DeclarationTree × Reader :=
  OnDemand.declarations .empty (Reader.start source)

namespace OnDemand

variable {r : Reader}

theorem exists_fault_of_check {e : CompileError} {after : Reader}
    (h : check r = (.error e, after)) :
    ∃ cause, r.token.kind = .fault cause ∧ e = ⟨.lexical cause, some r.token.line⟩ := by
  obtain ⟨taken, ⟨kind, line⟩, behind⟩ := r
  cases kind with
  | fault cause =>
    cases h
    exact ⟨cause, rfl, rfl⟩
  | _ => cases h

theorem isComplete_front {own : List Token} {after : Reader} (takes : r.Takes own after)
    (more : r.token.kind ≠ .endOfInput) (rest : List Token) :
    Draft.isComplete (own ++ after.token :: rest) = false := by
  obtain ⟨others, hfront⟩ := takes.exists_front rest
  rw [hfront]
  exact decide_eq_false more

/-- Reading on demand takes some tokens and ends like reading a list that begins with them and the
token then at hand, whatever stands behind it. -/
theorem declarations_take (draft : Draft) (r : Reader) :
    ∃ own, r.Takes own (declarations draft r).2 ∧
      (∀ e, (declarations draft r).1 = .error e → e.IsAt (declarations draft r).2.token) ∧
      ∀ rest, draft.extend (own ++ (declarations draft r).2.token :: rest) =
        (declarations draft r).1 := by
  fun_induction declarations draft r with
  | case1 draft r e _ hc =>
    obtain ⟨cause, hk, rfl⟩ := exists_fault_of_check hc
    obtain ⟨taken, ⟨kind, line⟩, behind⟩ := r
    obtain rfl : kind = .fault cause := hk
    refine ⟨[], Reader.takes_nothing _, ?_, fun rest => Draft.extend_of_read_error rfl rfl⟩
    rintro _ ⟨⟩
    exact .lexical cause line
  | case2 draft r _ _ ended =>
    refine ⟨[], r.takes_nothing, ?_, ?_⟩
    · rintro _ ⟨⟩
    · intro rest
      exact Draft.extend_of_complete (decide_eq_true ended)
  | case3 draft r _ _ more e after hs =>
    cases drives_statement draft r with
    | ok run => rw [run] at hs; cases hs
    | @error own _ _ run takes found same =>
      rw [run] at hs
      cases hs
      refine ⟨own, takes, ?_, ?_⟩
      · rintro _ ⟨⟩
        exact found
      · intro rest
        exact Draft.extend_of_read_error (isComplete_front takes more rest) (same rest)
  | case4 draft r _ _ more read after hs ih =>
    cases drives_statement draft r with
    | error run => rw [run] at hs; cases hs
    | @ok own _ _ run takes same =>
      rw [run] at hs
      cases hs
      obtain ⟨others, takes', found, same'⟩ := ih
      refine ⟨own ++ others, takes.append takes', found, ?_⟩
      intro rest
      obtain ⟨behind, hfront⟩ := takes'.exists_front rest
      rw [List.append_assoc, hfront,
        Draft.extend_of_read (isComplete_front takes more behind) (same behind), ← hfront]
      exact same' rest

end OnDemand

namespace CompileError

variable {e : CompileError} {token : Token}

theorem IsAt.line_eq (h : e.IsAt token) : e.line = some token.line := by
  cases h <;> rfl

theorem IsAt.errorClass_eq_lexical_iff (h : e.IsAt token) :
    e.diagnostic.errorClass = .lexical ↔ ∃ cause, token.kind = .fault cause := by
  cases h with
  | lexical cause => exact ⟨fun _ => ⟨cause, rfl⟩, fun _ => rfl⟩
  | grammatical _ _ proper =>
    constructor
    · rintro ⟨⟩
    · rintro ⟨cause, hk⟩
      exact absurd hk (proper cause)

theorem IsAt.message_eq (h : e.IsAt token) {cause : LexicalFault} (hk : token.kind = .fault cause) :
    e.diagnostic.message = token.kind.value := by
  cases h with
  | lexical cause => rfl
  | grammatical _ _ proper => exact absurd hk (proper cause)

end CompileError

section Sources
variable {source other : Text}

theorem parseOnDemand_takes (source : Text) :
    (Reader.start source).Takes (parseOnDemand source).2.taken (parseOnDemand source).2 ∧
      (∀ e, (parseOnDemand source).1 = .error e → e.IsAt (parseOnDemand source).2.token) ∧
      ∀ rest, Draft.empty.extend
        ((parseOnDemand source).2.taken ++ (parseOnDemand source).2.token :: rest) =
          (parseOnDemand source).1 := by
  obtain ⟨own, takes, found, same⟩ := OnDemand.declarations_take .empty (Reader.start source)
  have htaken : own = (parseOnDemand source).2.taken := takes.taken.symm
  rw [htaken] at takes same
  exact ⟨takes, found, same⟩

theorem seen_prefix_scan (source : Text) : (parseOnDemand source).2.seen <+: scan source := by
  obtain ⟨takes, _, _⟩ := parseOnDemand_takes source
  obtain ⟨rest, hahead⟩ := (parseOnDemand source).2.exists_ahead
  refine ⟨rest, ?_⟩
  rw [← Reader.ahead_start, takes.ahead, hahead, Reader.seen, List.append_assoc,
    List.singleton_append]

/-- What is read on demand is read from every source that begins with the same tokens. -/
theorem parse_eq_of_seen (h : (parseOnDemand source).2.seen <+: scan other) :
    parse other = (parseOnDemand source).1 := by
  obtain ⟨rest, hscan⟩ := h
  rw [Reader.seen, List.append_assoc, List.singleton_append] at hscan
  rw [parse, ← hscan]
  exact (parseOnDemand_takes source).2.2 rest

theorem parseOnDemand_eq_parse (source : Text) : (parseOnDemand source).1 = parse source :=
  (parse_eq_of_seen (seen_prefix_scan source)).symm

theorem seen_prefix_of_agree (agree : ∀ i ≤ (parseOnDemand source).2.taken.length,
    (scan other)[i]? = (scan source)[i]?) : (parseOnDemand source).2.seen <+: scan other := by
  rw [List.prefix_iff_getElem?]
  intro i hi
  have hle : i ≤ (parseOnDemand source).2.taken.length := by
    rw [Reader.seen, List.length_append] at hi
    exact Nat.le_of_lt_succ hi
  rw [agree i hle]
  exact List.prefix_iff_getElem?.mp (seen_prefix_scan source) i hi

end Sources

/-- Parsing depends on the tokens alone, and only on those up to the first failure. A source can be
read on demand with the same outcome: the tokens taken, none of them the end of the input or a fault,
and the one then at hand begin the tokens of the source. An error has the line of the token at hand,
and is lexical exactly if that token is a fault, whose message it then has; all sources that have the
same tokens up to this one fail with the same error. -/
theorem parse_halts_at_token (source : Text) :
    (∀ other, scan other = scan source → parse other = parse source) ∧
    (parseOnDemand source).1 = parse source ∧
    (∀ token ∈ (parseOnDemand source).2.taken, token.kind.isLast = false) ∧
    (parseOnDemand source).2.seen <+: scan source ∧
    ∀ e, parse source = .error e →
      ∃ k token, k = (parseOnDemand source).2.taken.length ∧
        token = (parseOnDemand source).2.token ∧ (scan source)[k]? = some token ∧
        e.line = some token.line ∧
        (e.diagnostic.errorClass = .lexical ↔ ∃ cause, token.kind = .fault cause) ∧
        (∀ cause, token.kind = .fault cause → e.diagnostic.message = token.kind.value) ∧
        ∀ other, (∀ i ≤ k, (scan other)[i]? = (scan source)[i]?) → parse other = .error e := by
  obtain ⟨takes, found, _⟩ := parseOnDemand_takes source
  have seen := seen_prefix_scan source
  have outcome := parseOnDemand_eq_parse source
  refine ⟨?_, outcome, takes.more, seen, ?_⟩
  · intro other h
    rw [parse_eq_of_seen (h ▸ seen), outcome]
  · intro e failed
    rw [← outcome] at failed
    have place := found e failed
    refine ⟨_, _, rfl, rfl, ?_, place.line_eq, place.errorClass_eq_lexical_iff,
      fun cause hk => place.message_eq hk, ?_⟩
    · obtain ⟨rest, hscan⟩ := seen
      rw [← hscan, Reader.seen, List.append_assoc,
        List.getElem?_append_right (Nat.le_refl _), Nat.sub_self]
      rfl
    · intro other agree
      rw [parse_eq_of_seen (seen_prefix_of_agree agree), failed]

/-- A number in place of the text of an example: the fault behind it is never asked for. -/
theorem fault_behind_error_unread :
    (parseOnDemand "cmd a\nexample 1 %").2.token = ⟨.number "1", 2⟩ ∧
      (scan "cmd a\nexample 1 %")[4]? = some ⟨.fault (.unexpectedUnit (unit '%')), 2⟩ ∧
      ∀ other, (∀ i ≤ 3, (scan other)[i]? = (scan "cmd a\nexample 1 %")[i]?) →
        parse other = .error ⟨.grammatical (.expectedOperand .exampleLine (.number "1")), some 2⟩ := by
  have failed : parse "cmd a\nexample 1 %" =
      .error ⟨.grammatical (.expectedOperand .exampleLine (.number "1")), some 2⟩ := by decide +kernel
  have here : (parseOnDemand "cmd a\nexample 1 %").2.token = ⟨.number "1", 2⟩ := by decide +kernel
  have place : (parseOnDemand "cmd a\nexample 1 %").2.taken.length = 3 := by decide +kernel
  obtain ⟨_, _, _, _, halts⟩ := parse_halts_at_token "cmd a\nexample 1 %"
  obtain ⟨k, token, hk, _, _, _, _, _, same⟩ := halts _ failed
  rw [hk, place] at same
  exact ⟨here, by decide +kernel, same⟩

end CommandLanguage

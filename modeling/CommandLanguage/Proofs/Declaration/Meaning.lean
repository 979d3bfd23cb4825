import CommandLanguage.Proofs.Declaration.Outline
import CommandLanguage.Proofs.Statement.Grammar

/-!
# The grammar of a source and its meaning

A source is a sequence of statements, each of which may follow those before it. Its tree is the
forest whose outline these statements build.
-/

set_option autoImplicit false

namespace CommandLanguage

open Statement DeclarationTree

/-- Some tokens are these statements, which follow those that a sketch was made of. -/
inductive Written : Sketch → List Token → List Statement → Prop where
  | nothing {sketch : Sketch} : Written sketch [] []
  | statement {sketch : Sketch} {own rest : List Token} {statement : Statement}
      {statements : List Statement} (spelled : Spells own statement rest)
      (allowed : sketch.Allows statement) (others : Written (sketch.apply statement) rest statements) :
      Written sketch (own ++ rest) (statement :: statements)

theorem TokenKind.eq_endOfInput {kind : TokenKind} (last : kind.isLast = true)
    (sound : ∀ cause, kind ≠ .fault cause) : kind = .endOfInput := by
  cases kind with
  | endOfInput => rfl
  | fault cause => exact absurd rfl (sound cause)
  | _ => cases last

/-- None of some tokens is the report of a fault. -/
def Faultless (tokens : List Token) : Prop :=
  ∀ token ∈ tokens, ∀ cause, token.kind ≠ .fault cause

theorem Cursor.exists_last (c : Cursor) : ∃ body last, c.tokens = body ++ [last] ∧
    last.kind.isLast = true ∧ ∀ token ∈ body, token.kind.isLast = false := by
  induction c using Cursor.tokens.induct with
  | case1 c last =>
    refine ⟨[], c.next.1, ?_, last, by simp⟩
    rw [tokens, if_pos last, List.nil_append]
  | case2 c more ih =>
    obtain ⟨body, last, he, hl, hb⟩ := ih
    refine ⟨c.next.1 :: body, last, ?_, hl, List.forall_mem_cons.mpr ⟨eq_false_of_ne_true more, hb⟩⟩
    rw [tokens, if_neg more, he, List.cons_append]

section Behind
variable {own rest body : List Token} {last : Token} {statement : Statement} {line : Int}

theorem goesOn_append_last (hlast : last.kind.isLast = true) :
    GoesOn line (rest ++ [last]) ↔ GoesOn line rest := by
  cases rest with
  | nil =>
    simp only [GoesOn, List.nil_append, List.head?_cons, Option.some.injEq, List.head?_nil,
      reduceCtorEq, exists_false, iff_false]
    rintro ⟨name, rfl⟩
    cases hlast
  | cons token rest => simp [GoesOn]

theorem Statement.Spells.exists_behind (h : Spells own statement rest)
    (hlast : last.kind.isLast = true) (he : body ++ [last] = own ++ rest) :
    ∃ behind, body = own ++ behind ∧ rest = behind ++ [last] := by
  rcases List.eq_nil_or_concat rest with rfl | ⟨behind, token, rfl⟩
  · have hm : last ∈ own := by
      rw [List.append_nil] at he
      simp [← he]
    rw [h.isLast_eq_false last hm] at hlast
    cases hlast
  · rw [List.concat_eq_append, ← List.append_assoc] at he
    obtain ⟨hbody, ht⟩ := List.append_inj' he rfl
    cases ht
    exact ⟨behind, hbody, List.concat_eq_append⟩

/-- No statement begins with a string. -/
theorem Written.plain {sketch : Sketch} {statements : List Statement}
    (h : Written sketch rest statements) (line : Int) :
    ∀ value place, (rest ++ [(⟨.endOfInput, line⟩ : Token)]).head? ≠ some ⟨.string value, place⟩ := by
  cases h with
  | nothing => simp
  | statement spelled _ _ =>
    obtain ⟨word, line, operands, rfl⟩ := spelled.exists_word
    simp

end Behind

namespace Draft

variable {draft : Draft} {tokens own rest body : List Token} {statement : Statement}
variable {statements : List Statement}

theorem objection_eq_none_iff (h : draft.IsSound) :
    draft.objection statement.keyword = none ↔ draft.sketch.Allows statement := by
  have scope := scope_eq_nil_iff h
  cases statement with
  | argument argument => simp [keyword, objection, Sketch.Allows, scope]
  | exampleLine text => simp [keyword, objection, Sketch.Allows, scope]
  | identity identity =>
    simp only [keyword, objection, Sketch.Allows, scope]
    cases hc : draft.command with
    | some id => simp
    | none =>
      cases ha : draft.tree.app with
      | some app => simp [sketch, outline, ha]
      | none => simp [sketch, outline, ha]
  | topicBody text => simp [keyword, objection, Sketch.Allows, sketch]
  | _ => simp [keyword, objection, Sketch.Allows]

theorem spells_of_read (h : draft.IsSound)
    (hread : Statement.read draft tokens = .ok (statement, rest)) :
    ∃ own, tokens = own ++ rest ∧ Spells own statement rest ∧ draft.sketch.Allows statement := by
  unfold Statement.read at hread
  split at hread
  · split at hread
    · cases hread
    · next word line tokens _ keyword hword =>
      split at hread
      · cases hread
      · next hobjection =>
        obtain ⟨rfl, own, rfl, spelled⟩ :=
          spells_of_readOperands (Keyword.ofWord?_eq_some_iff.mp hword) hread
        exact ⟨_ :: own, rfl, spelled, (objection_eq_none_iff h).mp hobjection⟩
  · cases hread

theorem read_of_spells (h : draft.IsSound) (spelled : Spells own statement rest)
    (allowed : draft.sketch.Allows statement) :
    Statement.read draft (own ++ rest) = .ok (absorb statement rest) := by
  obtain ⟨word, line, operands, rfl, hword, hread⟩ := readOperands_of_spells spelled
  rw [List.cons_append, Statement.read, Keyword.ofWord?_eq_some_iff.mpr hword]
  simp only [(objection_eq_none_iff h).mpr allowed]
  exact hread

theorem written_of_reads (h : draft.IsSound) (hreads : draft.Reads tokens statements)
    {last : Token} (hlast : last.kind.isLast = true) (he : tokens = body ++ [last])
    (inside : ∀ token ∈ body, token.kind.isLast = false) :
    last.kind = .endOfInput ∧ Written draft.sketch body statements := by
  -- No statement takes the last token, so every step leaves some tokens and it.
  induction hreads generalizing body with
  | done complete =>
    subst he
    cases body with
    | nil => exact ⟨of_decide_eq_true complete, .nothing⟩
    | cons token body =>
      have hk : token.kind = .endOfInput := of_decide_eq_true complete
      have := inside token List.mem_cons_self
      rw [hk] at this
      cases this
  | @step draft _ rest statement statements more read others ih =>
    obtain ⟨own, hown, spelled, allowed⟩ := spells_of_read h read
    obtain ⟨behind, rfl, rfl⟩ := spelled.exists_behind hlast (he.symm.trans hown)
    have outside : ∀ token ∈ behind, token.kind.isLast = false :=
      fun token hm => inside token (List.mem_append_right own hm)
    obtain ⟨hend, written⟩ := ih (isSound_apply h statement) rfl outside
    rw [sketch_apply h] at written
    have same : ∀ line, GoesOn line behind → GoesOn line (behind ++ [last]) :=
      fun _ => (goesOn_append_last hlast).mpr
    exact ⟨hend, .statement (spelled.of_goesOn fun token _ => same token.line) allowed written⟩

theorem reads_of_written {sketch : Sketch} (hwritten : Written sketch body statements)
    (h : draft.IsSound) (hs : draft.sketch = sketch) (line : Int) :
    draft.Reads (body ++ [⟨.endOfInput, line⟩]) statements := by
  induction hwritten generalizing draft with
  | nothing => exact .done rfl
  | @statement sketch own rest statement statements spelled allowed others ih =>
    subst hs
    have same : ∀ place, GoesOn place (rest ++ [⟨.endOfInput, line⟩]) → GoesOn place rest :=
      fun _ => (goesOn_append_last rfl).mp
    have read := read_of_spells h (spelled.of_goesOn fun token _ => same token.line) allowed
    rw [absorb_of_plain (others.plain line)] at read
    have more : isComplete (own ++ (rest ++ [⟨.endOfInput, line⟩])) = false := by
      obtain ⟨word, place, operands, rfl⟩ := spelled.exists_word
      simp [isComplete]
    rw [List.append_assoc]
    exact .step more read (ih (isSound_apply h statement) (sketch_apply h statement))

end Draft

theorem reads_scan_iff {source : Text} {statements : List Statement} :
    Draft.empty.Reads (scan source) statements ↔
      Faultless (scan source) ∧ Written .empty (scan source).dropLast statements := by
  obtain ⟨body, last, he, hlast, inside⟩ := (Cursor.start source).exists_last
  have hscan : scan source = body ++ [last] := he
  rw [hscan, List.dropLast_concat]
  constructor
  · intro reads
    obtain ⟨hend, written⟩ := Draft.written_of_reads Draft.isSound_empty reads hlast rfl inside
    refine ⟨?_, written⟩
    intro token hm cause hk
    rcases List.mem_append.mp hm with hm | hm
    · have := inside token hm
      rw [hk] at this
      cases this
    · rw [List.mem_singleton.mp hm, hend] at hk
      cases hk
  · rintro ⟨faultless, written⟩
    have hend : last.kind = .endOfInput := TokenKind.eq_endOfInput hlast
      (faultless last (List.mem_append_right body List.mem_cons_self))
    obtain ⟨kind, line⟩ := last
    cases hend
    exact Draft.reads_of_written written Draft.isSound_empty rfl line

/-- Reading accepts exactly the sources that are written by the grammar, and the tree of such a
source is the one forest whose outline its statements build. -/
theorem parse_grammar (source : Text) :
    ((∃ tree, parse source = .ok tree) ↔
      Faultless (scan source) ∧ ∃ statements, Written .empty (scan source).dropLast statements) ∧
    ∀ statements, Faultless (scan source) → Written .empty (scan source).dropLast statements →
      ∀ tree, parse source = .ok tree ↔
        tree.IsForest ∧ tree.outline = (statements.foldl Sketch.apply .empty).toOutline := by
  constructor
  · constructor
    · rintro ⟨tree, h⟩
      obtain ⟨statements, reads, _⟩ := parse_eq_ok_iff.mp h
      obtain ⟨faultless, written⟩ := reads_scan_iff.mp reads
      exact ⟨faultless, statements, written⟩
    · rintro ⟨faultless, statements, written⟩
      have reads := reads_scan_iff.mpr ⟨faultless, written⟩
      exact ⟨_, parse_eq_ok_iff.mpr ⟨statements, reads, rfl⟩⟩
  · intro statements faultless written tree
    have reads := reads_scan_iff.mpr ⟨faultless, written⟩
    have hparse := parse_eq_ok_iff.mpr ⟨statements, reads, rfl⟩
    obtain ⟨sound, hs⟩ := Draft.sketch_foldl Draft.isSound_empty statements
    have outline := congrArg Sketch.toOutline hs
    rw [hparse, Except.ok.injEq]
    constructor
    · rintro rfl
      exact ⟨sound.forest, outline⟩
    · rintro ⟨forest, he⟩
      exact eq_of_outline_eq sound.forest forest (outline.trans he.symm)

/-- An identifier is the alias of a flag on the line of the flag, and no statement on the next. -/
theorem alias_on_the_line_of_its_flag :
    (∃ statements, Written .empty
        (scan "cmd user add \"Add\"\nflag force bool \"\" f\nglobal attr retries = 007").dropLast
        statements ∧
      (statements.foldl Sketch.apply .empty).toOutline =
        ⟨none, [], [("retries", ⟨.int 7, 3⟩)],
          [bareEntry 1 ["user"],
            { bareEntry 1 ["user", "add"] with
              description := "Add"
              flags := [⟨"force", some ("f" : Text), "bool", [], 2⟩] }], []⟩) ∧
    ¬ ∃ statements, Written .empty
      (scan "cmd user add \"Add\"\nflag force bool \"\"\nf").dropLast statements := by
  constructor
  · let tree : DeclarationTree :=
      { DeclarationTree.empty with
        globalAttributes := [("retries", ⟨.int 7, 3⟩)]
        commands := [
          { bareCommand 0 none "user" 1 with children := [1] },
          { bareCommand 1 (some 0) "add" 1 with
            description := "Add"
            flags := [⟨"force", some ("f" : Text), "bool", [], 2⟩] }]
        roots := [0] }
    have h : parse "cmd user add \"Add\"\nflag force bool \"\" f\nglobal attr retries = 007" =
        .ok tree := by decide +kernel
    obtain ⟨accepted, meaning⟩ := parse_grammar
      "cmd user add \"Add\"\nflag force bool \"\" f\nglobal attr retries = 007"
    obtain ⟨faultless, statements, written⟩ := accepted.mp ⟨tree, h⟩
    have outline := ((meaning statements faultless written tree).mp h).2
    refine ⟨statements, written, ?_⟩
    rw [← outline]
    decide +kernel
  · intro written
    have faultless : Faultless (scan "cmd user add \"Add\"\nflag force bool \"\"\nf") := by
      have tokens : scan "cmd user add \"Add\"\nflag force bool \"\"\nf" =
          [⟨.identifier "cmd", 1⟩, ⟨.identifier "user", 1⟩, ⟨.identifier "add", 1⟩,
            ⟨.string "Add", 1⟩, ⟨.identifier "flag", 2⟩, ⟨.identifier "force", 2⟩,
            ⟨.identifier "bool", 2⟩, ⟨.string [], 2⟩, ⟨.identifier "f", 3⟩,
            ⟨.endOfInput, 3⟩] := by decide +kernel
      rw [tokens]
      simp [Faultless]
    obtain ⟨tree, h⟩ := (parse_grammar _).1.mpr ⟨faultless, written⟩
    have fails : parse "cmd user add \"Add\"\nflag force bool \"\"\nf" =
        .error ⟨.grammatical (.unknownKeyword "f"), some 3⟩ := by decide +kernel
    rw [fails] at h
    cases h

end CommandLanguage

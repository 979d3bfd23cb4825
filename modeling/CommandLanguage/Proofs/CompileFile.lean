import CommandLanguage.CompileFile
import CommandLanguage.Proofs.FilePath
import CommandLanguage.Proofs.FileSystem

/-!
# How compiling a file ends

Compiling a file reports one error and leaves the files as they were, or writes both generated files and
reports nothing. Only where the second of the two cannot be written has the first changed already.
-/

set_option autoImplicit false

namespace CommandLanguage

open Text Generated

namespace CompileFile

/-- A letter or an underscore with letters, digits and underscores behind it. -/
def IsWord : Text → Prop
  | [] => False
  | u :: rest => (isLetter u = true ∨ u = unit '_') ∧
    ∀ v ∈ rest, isLetter v = true ∨ v = unit '_' ∨ isDigit v = true

/-- The definition at a path is accepted: its file can be read, its text compiles, and the namespace has
a name. -/
structure Accepted (files : FileSystem) (path : FilePath) (written scopeName : Text)
    (bytes : List UInt8) (tree : CommandTree) : Prop where
  extension : FilePath.extension written = ".cdl"
  read : files.read path = .ok bytes
  compiled : compile (ofUtf8 bytes) = .ok tree
  word : IsWord scopeName

def declarationsPath (path : FilePath) : FilePath := path.sibling (baseName path ++ ".ts")

def supportPath (path : FilePath) : FilePath := path.sibling (baseName path ++ ".support.ts")

/-- What is generated from the definition at a path. -/
def generated (path : FilePath) (scopeName : Text) (bytes : List UInt8) (tree : CommandTree) : Files :=
  ⟨declarations tree (options path scopeName (ofUtf8 bytes)),
    support tree (options path scopeName (ofUtf8 bytes))⟩

section Steps
variable {session : Session} {directory path : FilePath} {written scopeName text : Text}
  {rest : List (FilePath × Text)} {files : FileSystem} {fault : FileError} {bytes : List UInt8}
  {tree : CommandTree}

theorem isWord_iff : IsWord text ↔ text.isValidIdentifier = true := by
  cases text with
  | nil => exact iff_of_false id (by decide)
  | cons u rest =>
    rw [IsWord, isValidIdentifier, Bool.and_eq_true, List.all_eq_true]
    simp only [isWordPart, isWordStart, Bool.or_eq_true, beq_iff_eq, or_assoc]

theorem Accepted.unique {content : List UInt8} {other : CommandTree}
    (h : Accepted files path written scopeName bytes tree)
    (ho : Accepted files path written scopeName content other) : bytes = content ∧ tree = other := by
  obtain rfl : bytes = content := Except.ok.inj (h.read.symm.trans ho.read)
  exact ⟨rfl, Except.ok.inj (h.compiled.symm.trans ho.compiled)⟩

theorem run_write (bytes : List UInt8) : (Session.host.write path bytes).run session =
    match session.files.write path bytes with
    | .error e => (.error e, session)
    | .ok files => (.ok (), { session with files }) := by
  change (match session.files.write path bytes with
    | .error e => pure (.error e)
    | .ok files => _ : StateM Session (Except FileError Unit)).run session = _
  split <;> rfl

theorem run_writeAll_of_error (session : Session)
    (h : session.files.write path text.toUtf8 = .error fault) :
    (writeAll Session.host ((path, text) :: rest)).run session = (.failure, { session with
      err := session.err ++ ["write " ++ path.text ++ ": " ++ fault.text] }) := by
  rw [writeAll, StateT.run_bind, run_write, h]
  rfl

theorem run_writeAll_of_ok (session : Session)
    (h : session.files.write path text.toUtf8 = .ok files) :
    (writeAll Session.host ((path, text) :: rest)).run session = (writeAll Session.host rest).run
      { session with files, out := session.out ++ ["Writing " ++ path.text] } := by
  rw [writeAll, StateT.run_bind, run_write, h]
  rfl

/-- The file is read as soon as its name is seen to be that of a definition. -/
theorem run_compileFile_of_extension (accepted : FilePath.extension written = sourceExtension)
    (leads : FilePath.resolve directory written = path) :
    (compileFile Session.host directory written scopeName).run session =
      (match session.files.read path with
        | .error e => fail Session.host .failure ("read " ++ written ++ ": " ++ e.text)
        | .ok bytes => compileText Session.host path written scopeName (ofUtf8 bytes)).run
        { session with out := session.out ++ ["Processing " ++ path.text] } := by
  subst leads
  rw [compileFile, if_pos accepted]
  rfl

theorem compileText_of_compile {definition : Text} (h : compile definition = .ok tree)
    (valid : scopeName.isValidIdentifier = true) :
    compileText Session.host path written scopeName definition =
      writeAll Session.host (outputs path ⟨declarations tree (options path scopeName definition),
        support tree (options path scopeName definition)⟩) := by
  have emitted : emit tree (options path scopeName definition) = .ok
      ⟨declarations tree (options path scopeName definition),
        support tree (options path scopeName definition)⟩ := if_pos valid
  rw [compileText, h]
  dsimp only
  rw [if_pos valid, emitted]

/-- A definition that can be read and compiled is written out as its two files. -/
theorem run_compileFile (accepted : FilePath.extension written = sourceExtension)
    (leads : FilePath.resolve directory written = path) (read : session.files.read path = .ok bytes)
    (h : compile (ofUtf8 bytes) = .ok tree) (valid : scopeName.isValidIdentifier = true) :
    (compileFile Session.host directory written scopeName).run session =
      (writeAll Session.host (outputs path
        ⟨declarations tree (options path scopeName (ofUtf8 bytes)),
          support tree (options path scopeName (ofUtf8 bytes))⟩)).run
        { session with out := session.out ++ ["Processing " ++ path.text] } := by
  rw [run_compileFile_of_extension accepted leads, read, ← compileText_of_compile h valid]

theorem run_fail (code : ExitCode) : (fail Session.host code text).run session =
    (code, { session with err := session.err ++ [text] }) := rfl

theorem not_generate_append {word : Text} (other : word.head?.any (· != unit 'g') = true)
    (rest : Text) : ¬ ("generate: " : Text) <+: word ++ rest := by
  cases word with
  | nil => cases other
  | cons u word =>
    rintro ⟨behind, same⟩
    obtain rfl : unit 'g' = u := (List.cons.inj same).1
    rw [List.head?_cons, Option.any_some] at other
    exact absurd other (by decide)

end Steps

/-- How compiling a file ends: with which code, files and reported errors. -/
inductive Ends (before : Session) (path : FilePath) (written scopeName : Text) :
    ExitCode → Session → Prop where
  | refused {code : ExitCode} {out : List Text} {line : Text} (failed : code ≠ .success)
      (told : ¬ ("generate: " : Text) <+: line)
      (cause : ∀ bytes tree, ¬ Accepted before.files path written scopeName bytes tree) :
      Ends before path written scopeName code ⟨before.files, out, before.err ++ [line]⟩
  | unwritten {bytes : List UInt8} {tree : CommandTree} {fault : FileError} {out : List Text}
      {line : Text} (told : ¬ ("generate: " : Text) <+: line)
      (accepted : Accepted before.files path written scopeName bytes tree)
      (first : before.files.write (declarationsPath path)
        (generated path scopeName bytes tree).declarations.toUtf8 = .error fault) :
      Ends before path written scopeName .failure ⟨before.files, out, before.err ++ [line]⟩
  | halfWritten {bytes : List UInt8} {tree : CommandTree} {between : FileSystem} {fault : FileError}
      {out : List Text} {line : Text} (told : ¬ ("generate: " : Text) <+: line)
      (accepted : Accepted before.files path written scopeName bytes tree)
      (first : before.files.write (declarationsPath path)
        (generated path scopeName bytes tree).declarations.toUtf8 = .ok between)
      (second : between.write (supportPath path)
        (generated path scopeName bytes tree).support.toUtf8 = .error fault) :
      Ends before path written scopeName .failure ⟨between, out, before.err ++ [line]⟩
  | done {bytes : List UInt8} {tree : CommandTree} {between after : FileSystem} {out : List Text}
      (accepted : Accepted before.files path written scopeName bytes tree)
      (first : before.files.write (declarationsPath path)
        (generated path scopeName bytes tree).declarations.toUtf8 = .ok between)
      (second : between.write (supportPath path)
        (generated path scopeName bytes tree).support.toUtf8 = .ok after) :
      Ends before path written scopeName .success ⟨after, out, before.err⟩

section Endings
variable {session : Session} {directory path : FilePath} {written scopeName : Text}

/-- What is refused is reported, and no file is written. -/
theorem ends_refused {code : ExitCode} {out : List Text} {word rest : Text} (failed : code ≠ .success)
    (other : word.head?.any (· != unit 'g') = true)
    (cause : ∀ bytes tree, ¬ Accepted session.files path written scopeName bytes tree) :
    Ends session path written scopeName code ⟨session.files, out, session.err ++ [word ++ rest]⟩ :=
  .refused failed (not_generate_append other rest) cause

theorem exists_ends_writeAll {bytes : List UInt8} {tree : CommandTree}
    (accepted : Accepted session.files path written scopeName bytes tree) (out : List Text) :
    ∃ code after, (writeAll Session.host (outputs path (generated path scopeName bytes tree))).run
        ⟨session.files, out, session.err⟩ = (code, after) ∧
      Ends session path written scopeName code after := by
  rw [outputs, ← declarationsPath, ← supportPath]
  cases first : session.files.write (declarationsPath path)
      (generated path scopeName bytes tree).declarations.toUtf8 with
  | error fault =>
    rw [run_writeAll_of_error ⟨session.files, out, session.err⟩ first]
    refine ⟨_, _, rfl, .unwritten ?_ accepted first⟩
    simp only [List.append_assoc]
    exact not_generate_append (by decide) _
  | ok between =>
    rw [run_writeAll_of_ok ⟨session.files, out, session.err⟩ first]
    cases second : between.write (supportPath path)
        (generated path scopeName bytes tree).support.toUtf8 with
    | error fault =>
      rw [run_writeAll_of_error ⟨between, _, session.err⟩ second]
      refine ⟨_, _, rfl, .halfWritten ?_ accepted first second⟩
      simp only [List.append_assoc]
      exact not_generate_append (by decide) _
    | ok after =>
      rw [run_writeAll_of_ok ⟨between, _, session.err⟩ second]
      exact ⟨_, _, rfl, .done accepted first second⟩

theorem exists_ends (session : Session) (directory : FilePath) (written scopeName : Text) :
    ∃ code after, (compileFile Session.host directory written scopeName).run session = (code, after) ∧
      Ends session (FilePath.resolve directory written) written scopeName code after := by
  generalize leads : FilePath.resolve directory written = path
  -- Each of the four steps in front of the writes refuses what is not accepted; behind them it is.
  by_cases accepted : FilePath.extension written = sourceExtension
  · rw [run_compileFile_of_extension accepted leads]
    cases read : session.files.read path with
    | error fault =>
      refine ⟨_, _, run_fail _, ?_⟩
      simp only [List.append_assoc]
      refine ends_refused (by decide) (by decide) fun bytes tree h => ?_
      cases read.symm.trans h.read
    | ok bytes =>
      dsimp only
      cases compiled : compile (ofUtf8 bytes) with
      | error e =>
        rw [compileText, compiled]
        refine ⟨_, _, run_fail _, ?_⟩
        simp only [List.append_assoc]
        refine ends_refused (by decide) (by decide) fun content tree h => ?_
        cases read.symm.trans h.read
        cases compiled.symm.trans h.compiled
      | ok tree =>
        by_cases word : IsWord scopeName
        · rw [compileText_of_compile compiled (isWord_iff.mp word)]
          exact exists_ends_writeAll ⟨accepted, read, compiled, word⟩ _
        · rw [compileText, compiled]
          dsimp only
          rw [if_neg fun valid => word (isWord_iff.mpr valid)]
          refine ⟨_, _, run_fail _, ?_⟩
          exact ends_refused (by decide) (by decide) fun bytes tree h => word h.word
  · rw [compileFile, if_neg accepted]
    refine ⟨_, _, run_fail _, ?_⟩
    exact ends_refused (by decide) (by decide) fun bytes tree h => accepted h.extension

end Endings

section Names
variable {directory path : FilePath} {written base ending other : Text}

theorem name_eq_of_extension (leads : FilePath.resolve directory written = path)
    (accepted : FilePath.extension written = sourceExtension) :
    baseName path ≠ [] ∧ path.name = baseName path ++ sourceExtension := by
  obtain ⟨base, nonempty, named⟩ := FilePath.exists_name_resolve accepted directory
  rw [leads] at named
  have based : baseName path = base := by
    rw [baseName, named, List.length_append, show sourceExtension = ".cdl" from rfl,
      Nat.add_sub_cancel, List.take_left]
  rw [based]
  exact ⟨nonempty, named⟩

theorem text_sibling_ne (path : FilePath) (base : Text) (h : ending ≠ other) :
    (path.sibling (base ++ ending)).text ≠ (path.sibling (base ++ other)).text := by
  obtain ⟨front, texts⟩ := path.exists_text_sibling
  rw [texts, texts]
  exact fun same => h (List.append_cancel_left (List.append_cancel_left same))

theorem text_ne_of_name (nonempty : base ≠ []) (named : path.name = base ++ sourceExtension)
    (h : sourceExtension ≠ ending) : path.text ≠ (path.sibling (base ++ ending)).text := by
  have kept : path.sibling (base ++ sourceExtension) = path := by
    rw [← named]
    exact FilePath.sibling_name (by simp [named, nonempty])
  have apart := text_sibling_ne path base h
  rwa [kept] at apart

end Names

namespace Ends

variable {before after : Session} {directory path : FilePath} {written scopeName : Text}
  {code : ExitCode} (h : Ends before path written scopeName code after)
include h

theorem success_iff : code = .success ↔ ∃ bytes tree between last,
    Accepted before.files path written scopeName bytes tree ∧
    before.files.write (declarationsPath path)
      (generated path scopeName bytes tree).declarations.toUtf8 = .ok between ∧
    between.write (supportPath path)
      (generated path scopeName bytes tree).support.toUtf8 = .ok last := by
  cases h with
  | refused failed told cause =>
    refine iff_of_false failed ?_
    rintro ⟨bytes, tree, _, _, accepted, _⟩
    exact cause bytes tree accepted
  | unwritten told accepted first =>
    refine iff_of_false (by decide) ?_
    rintro ⟨_, _, _, _, same, stored, _⟩
    obtain ⟨rfl, rfl⟩ := accepted.unique same
    cases first.symm.trans stored
  | halfWritten told accepted first second =>
    refine iff_of_false (by decide) ?_
    rintro ⟨_, _, _, _, same, stored, last⟩
    obtain ⟨rfl, rfl⟩ := accepted.unique same
    cases first.symm.trans stored
    cases second.symm.trans last
  | done accepted first second => exact iff_of_true rfl ⟨_, _, _, _, accepted, first, second⟩

/-- After a success both files hold what was generated, and everything else is as it was. -/
theorem stored (leads : FilePath.resolve directory written = path) (success : code = .success) :
    after.err = before.err ∧ ∃ bytes tree,
      Accepted before.files path written scopeName bytes tree ∧
      after.files.read (declarationsPath path) =
        .ok (generated path scopeName bytes tree).declarations.toUtf8 ∧
      after.files.read (supportPath path) =
        .ok (generated path scopeName bytes tree).support.toUtf8 ∧
      after.files.read path = .ok bytes ∧
      FileSystem.KeptBut [declarationsPath path, supportPath path] before.files after.files := by
  cases h with
  | refused failed told cause => exact absurd success failed
  | unwritten told accepted first => cases success
  | halfWritten told accepted first second => cases success
  | @done bytes tree between after out accepted first second =>
    obtain ⟨nonempty, named⟩ := name_eq_of_extension leads accepted.extension
    have firstKept := FileSystem.keptBut_of_write first
    have secondKept := FileSystem.keptBut_of_write second
    have kept := firstKept.trans secondKept
    have apart : (declarationsPath path).text ≠ (supportPath path).text :=
      text_sibling_ne path _ (by decide)
    have source : ∀ other ∈ [declarationsPath path, supportPath path], path.text ≠ other.text := by
      simp only [List.forall_mem_cons, List.not_mem_nil, false_implies, implies_true, and_true]
      exact ⟨text_ne_of_name nonempty named (by decide), text_ne_of_name nonempty named (by decide)⟩
    refine ⟨rfl, bytes, tree, accepted, ?_, FileSystem.read_of_write second, ?_, kept⟩
    · exact (secondKept.read _ _ (List.forall_mem_singleton.mpr apart)).mpr
        (FileSystem.read_of_write first)
    · exact (kept.read _ _ source).mpr accepted.read

/-- After a failure one error is reported, and no file has changed but the first, if the second could
not be written. -/
theorem reported (failure : code ≠ .success) :
    (∃ line, after.err = before.err ++ [line] ∧ ¬ ("generate: " : Text) <+: line) ∧
    (after.files = before.files ∨ ∃ bytes tree fault,
      Accepted before.files path written scopeName bytes tree ∧
      before.files.write (declarationsPath path)
        (generated path scopeName bytes tree).declarations.toUtf8 = .ok after.files ∧
      after.files.write (supportPath path)
        (generated path scopeName bytes tree).support.toUtf8 = .error fault ∧
      FileSystem.KeptBut [declarationsPath path] before.files after.files) := by
  cases h with
  | refused failed told cause => exact ⟨⟨_, rfl, told⟩, .inl rfl⟩
  | unwritten told accepted first => exact ⟨⟨_, rfl, told⟩, .inl rfl⟩
  | halfWritten told accepted first second =>
    exact ⟨⟨_, rfl, told⟩, .inr ⟨_, _, _, accepted, first, second,
      FileSystem.keptBut_of_write first⟩⟩
  | done accepted first second => exact absurd rfl failure

end Ends

end CompileFile

open CompileFile

/-- Compiling a file succeeds exactly if the definition is accepted and both generated files can be
written; emitting does not fail on what is accepted. After a success the two files beside the definition
hold what was emitted, every other file is as it was, and nothing is reported. Otherwise one error is
reported, which never comes from emitting, and all files are as they were; only if the second of the
generated files cannot be written has the first one changed. -/
theorem compileFile_writes_or_reports {session after : Session} {directory path : FilePath}
    {written scopeName : Text} {code : ExitCode} (leads : FilePath.resolve directory written = path)
    (ran : (compileFile Session.host directory written scopeName).run session = (code, after)) :
    (∀ bytes tree, Accepted session.files path written scopeName bytes tree → ∃ base : Text,
      path.name = base ++ ".cdl" ∧ declarationsPath path = path.sibling (base ++ ".ts") ∧
      supportPath path = path.sibling (base ++ ".support.ts") ∧
      emit tree ⟨scopeName, base, ofUtf8 bytes, some path.name⟩ =
        .ok (generated path scopeName bytes tree)) ∧
    (code = .success ↔ ∃ bytes tree between last,
      Accepted session.files path written scopeName bytes tree ∧
      session.files.write (declarationsPath path)
        (generated path scopeName bytes tree).declarations.toUtf8 = .ok between ∧
      between.write (supportPath path)
        (generated path scopeName bytes tree).support.toUtf8 = .ok last) ∧
    (code = .success → after.err = session.err ∧ ∃ bytes tree,
      Accepted session.files path written scopeName bytes tree ∧
      after.files.read (declarationsPath path) =
        .ok (generated path scopeName bytes tree).declarations.toUtf8 ∧
      after.files.read (supportPath path) =
        .ok (generated path scopeName bytes tree).support.toUtf8 ∧
      after.files.read path = .ok bytes ∧
      FileSystem.KeptBut [declarationsPath path, supportPath path] session.files after.files) ∧
    (code ≠ .success →
      (∃ line, after.err = session.err ++ [line] ∧ ¬ ("generate: " : Text) <+: line) ∧
      (after.files = session.files ∨ ∃ bytes tree fault,
        Accepted session.files path written scopeName bytes tree ∧
        session.files.write (declarationsPath path)
          (generated path scopeName bytes tree).declarations.toUtf8 = .ok after.files ∧
        after.files.write (supportPath path)
          (generated path scopeName bytes tree).support.toUtf8 = .error fault ∧
        FileSystem.KeptBut [declarationsPath path] session.files after.files)) := by
  obtain ⟨_, _, same, ends⟩ := exists_ends session directory written scopeName
  cases ran.symm.trans same
  rw [leads] at ends
  refine ⟨?_, ends.success_iff, ends.stored leads, ends.reported⟩
  intro bytes tree accepted
  refine ⟨baseName path, (name_eq_of_extension leads accepted.extension).2, rfl, rfl, ?_⟩
  exact if_pos (isWord_iff.mp accepted.word)

/-- Beside a definition whose name has two dots both files are written. -/
theorem dotted_definition_written :
    ∃ (session after : Session) (tree : CommandTree) (files : Files),
      session.files.read ⟨["d", "a.b.cdl"]⟩ = .ok (toUtf8 "cmd run") ∧
      emit tree ⟨"_cli", "a.b", "cmd run", some "a.b.cdl"⟩ = .ok files ∧
      (compileFile Session.host ⟨["d"]⟩ "a.b.cdl" "_cli").run session = (.success, after) ∧
      after.err = [] ∧
      after.files.read ⟨["d", "a.b.ts"]⟩ = .ok files.declarations.toUtf8 ∧
      after.files.read ⟨["d", "a.b.support.ts"]⟩ = .ok files.support.toUtf8 ∧
      after.files.read ⟨["d", "a.b.cdl"]⟩ = .ok (toUtf8 "cmd run") := by
  let session : Session := .start
    ⟨[("/d", .directory), ("/d/a.b.cdl", .file (toUtf8 "cmd run"))]⟩
  let tree : CommandTree :=
    ⟨none, [], [], [CommandTree.commandOf (DeclarationTree.bareCommand 0 none "run" 1) ["run"] []], [0],
      [], []⟩
  let path : FilePath := ⟨["d", "a.b.cdl"]⟩
  let files : Files := generated path "_cli" (toUtf8 "cmd run") tree
  have decoded : ofUtf8 (toUtf8 "cmd run") = "cmd run" := by decide +kernel
  have leads : FilePath.resolve ⟨["d"]⟩ "a.b.cdl" = path := by decide +kernel
  have accepted : Accepted session.files path "a.b.cdl" "_cli" (toUtf8 "cmd run") tree := by
    refine ⟨by decide +kernel, by decide +kernel, ?_, ⟨.inr rfl, by decide⟩⟩
    rw [decoded]
    decide +kernel
  obtain ⟨⟨code, after⟩, ran⟩ : ∃ ended : ExitCode × Session,
      (compileFile Session.host ⟨["d"]⟩ "a.b.cdl" "_cli").run session = ended := ⟨_, rfl⟩
  obtain ⟨emitted, success, stored, _⟩ := compileFile_writes_or_reports leads ran
  let between := session.files.put ⟨["d", "a.b.ts"]⟩ (.file files.declarations.toUtf8)
  let last := between.put ⟨["d", "a.b.support.ts"]⟩ (.file files.support.toUtf8)
  have first : session.files.write (declarationsPath path) files.declarations.toUtf8 =
      .ok between := rfl
  have second : between.write (supportPath path) files.support.toUtf8 = .ok last := rfl
  obtain rfl := success.mpr ⟨_, _, between, last, accepted, first, second⟩
  obtain ⟨silent, _, _, same, declared, supported, source, _⟩ := stored rfl
  obtain ⟨rfl, rfl⟩ := accepted.unique same
  obtain ⟨base, named, _, _, generates⟩ := emitted _ _ accepted
  have whole : ofString "a.b" ++ ofString ".cdl" = base ++ ofString ".cdl" := named
  obtain rfl := List.append_cancel_right whole
  rw [decoded] at generates
  exact ⟨session, after, tree, files, accepted.read, generates, ran, silent, declared, supported,
    source⟩

end CommandLanguage

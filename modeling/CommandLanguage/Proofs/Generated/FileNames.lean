import CommandLanguage.Proofs.CompileFile
import CommandLanguage.Proofs.Generated.Embedding

/-!
# File names in generated files

The name of a source stands in the header of both generated files, and the name of the declarations
file in an import of the support file. Other texts are escaped where they are written; these two are
written as they are. So the header is one line exactly if no line ends in the name, and the import
names the declarations file exactly if each unit of the name stands for itself between apostrophes.
-/

set_option autoImplicit false

namespace CommandLanguage

open Text

namespace Generated

/-- The file begins with one comment, which runs to the end of its first line. -/
def HasHeader (file header : Text) : Prop :=
  "//" <+: header ∧ file.takeWhile (fun u => !isLineTerminator u) = header

/-- Behind a front of the file stands a literal between apostrophes that reads as the text. -/
def ReadsBehind (file front value : Text) : Prop :=
  ∃ rest after, file = front ++ apostrophe :: rest ∧ readApostrophes rest = some (value, after)

/-- What stands before the name of the declarations file in the support file. -/
def importFront (options : Options) : Text :=
  ended ((importLines options).take 3) ++ "import type \x7b " ++ options.scopeName ++ " \x7d from "

variable {options : Options} {front value name : Text}

theorem takeWhile_append_lineFeed_iff (front rest : Text) :
    (front ++ lineFeed :: rest).takeWhile (fun u => !isLineTerminator u) = front ↔
      ∀ u ∈ front, isLineTerminator u = false := by
  constructor
  · intro h u hu
    rw [← h] at hu
    simpa using List.mem_takeWhile_imp hu
  · intro h
    rw [List.takeWhile_append_of_pos (by simpa using h), List.takeWhile_cons_of_neg (by decide),
      List.append_nil]

theorem header_hasHeader_iff (named : options.sourceName = some name) (nonempty : name ≠ [])
    (rest : Text) : HasHeader (header options ++ lineFeed :: rest) (header options) ↔
      ∀ u ∈ name, isLineTerminator u = false := by
  have origin : header options =
      "// Code generated by cdlc" ++ (" from " ++ name) ++ ". DO NOT EDIT." := by
    have suffix : originSuffix (some name) = " from " ++ name := by
      unfold originSuffix
      split
      · next none => cases none
      · next empty => exact absurd (Option.some.inj empty) nonempty
      · next same => rw [Option.some.inj same]
    rw [header, named, suffix]
  have comment : ("//" : Text) <+: header options := by
    have front : ("//" : Text) <+: "// Code generated by cdlc" := by decide
    rw [origin, List.append_assoc]
    exact front.trans (List.prefix_append _ _)
  rw [HasHeader, and_iff_right comment, takeWhile_append_lineFeed_iff, origin]
  simp only [List.forall_mem_append]
  constructor
  · exact fun h => h.1.2.2
  · exact fun h => ⟨⟨by decide, by decide, h⟩, by decide⟩

theorem exists_support_eq_header (tree : CommandTree) (options : Options) :
    ∃ rest, support tree options = header options ++ lineFeed :: rest := by
  refine ⟨ended (importLines options).tail ++ ended (supportedLines tree options), ?_⟩
  have lines : importLines options = [header options] ++ (importLines options).tail := rfl
  rw [support_eq, lines, ended_append, ended, List.flatMap_singleton, List.append_assoc,
    List.append_assoc]
  rfl

theorem readApostrophes_lineFeed (rest : Text) : readApostrophes (lineFeed :: rest) = none := by
  rw [readApostrophes, if_neg (by decide), if_neg (by decide), if_pos (.inl rfl)]

/-- Nothing but the end of the line stands behind the literal in the import. -/
theorem support_eq_import (tree : CommandTree) (options : Options) : ∃ rest,
    support tree options = importFront options ++
      apostrophe :: ("./" ++ options.baseName ++ apostrophe :: (unit ';' :: lineFeed :: rest)) := by
  refine ⟨lineFeed :: ended (supportedLines tree options), ?_⟩
  have front : (" \x7d from './" : Text) = " \x7d from " ++ [apostrophe] ++ "./" := by decide
  have back : ("';" : Text) = [apostrophe, unit ';'] := by decide
  have lines : ended (importLines options) = ended ((importLines options).take 3) ++
      ("import type \x7b " ++ options.scopeName ++ " \x7d from './" ++ options.baseName ++ "';" ++
        [lineFeed]) ++ [lineFeed] := by
    simp [importLines, ended]
    rfl
  rw [support_eq, lines, front, back, importFront]
  simp only [List.append_assoc, List.cons_append, List.nil_append]

theorem support_readsBehind_iff (tree : CommandTree) (options : Options) :
    ReadsBehind (support tree options) (importFront options) ("./" ++ options.baseName) ↔
      ∀ u ∈ options.baseName, isVerbatim u = true := by
  obtain ⟨rest, written⟩ := support_eq_import tree options
  have ends : readApostrophes (unit ';' :: lineFeed :: rest) = none := by
    rw [readApostrophes_verbatim (by decide), readApostrophes_lineFeed]
    rfl
  have within : (∀ u ∈ ("./" : Text) ++ options.baseName, isVerbatim u = true) ↔
      ∀ u ∈ options.baseName, isVerbatim u = true := by
    rw [List.forall_mem_append]
    exact and_iff_right (by decide)
  rw [ReadsBehind, written, ← within, ← reads_itself_iff ends]
  constructor
  · rintro ⟨_, after, same, read⟩
    cases List.append_cancel_left same
    exact ⟨after, read⟩
  · rintro ⟨after, read⟩
    exact ⟨_, after, rfl, read⟩

end Generated

open CommandTree CompileFile Generated

section Runs
variable {session : Session} {directory path : FilePath} {written scopeName : Text}
  {bytes : List UInt8} {tree : CommandTree}

/-- For a definition that can be read and compiled, whatever the name of its file: both generated files
begin with the header as a comment that ends with their first line exactly if no line ends in the name,
and the support file imports the declarations file under its name exactly if each unit of that name
stands for itself between apostrophes. -/
theorem file_names_in_generated_files (accepted : FilePath.extension written = sourceExtension)
    (leads : FilePath.resolve directory written = path) (read : session.files.read path = .ok bytes)
    (h : compile (ofUtf8 bytes) = .ok tree) (valid : scopeName.isValidIdentifier = true) :
    ∃ base declared supported : Text, base ≠ [] ∧ path.name = base ++ ".cdl" ∧
      (compileFile Session.host directory written scopeName).run session =
        (writeAll Session.host
          [(path.sibling (base ++ ".ts"), declared),
            (path.sibling (base ++ ".support.ts"), supported)]).run
          { session with out := session.out ++ ["Processing " ++ path.text] } ∧
      (∀ file ∈ [declared, supported],
        HasHeader file (header (options path scopeName (ofUtf8 bytes))) ↔
          ∀ u ∈ path.name, isLineTerminator u = false) ∧
      (ReadsBehind supported (importFront (options path scopeName (ofUtf8 bytes))) ("./" ++ base) ↔
        ∀ u ∈ base, isVerbatim u = true) := by
  obtain ⟨base, nonempty, named⟩ := FilePath.exists_name_resolve accepted directory
  rw [leads] at named
  have based : baseName path = base := by
    rw [baseName, named, List.length_append, show sourceExtension = ".cdl" from rfl,
      Nat.add_sub_cancel, List.take_left]
  have run := run_compileFile accepted leads read h valid
  rw [outputs, based] at run
  have origin : (options path scopeName (ofUtf8 bytes)).sourceName = some path.name := rfl
  have headed := header_hasHeader_iff origin (by simp [named, nonempty])
  refine ⟨base, _, _, nonempty, named, run, ?_, based ▸ support_readsBehind_iff tree _⟩
  simp only [List.mem_cons, List.not_mem_nil, or_false]
  rintro file (rfl | rfl)
  · rw [declarations_eq]
    exact headed _
  · obtain ⟨rest, supported⟩ := exists_support_eq_header tree (options path scopeName (ofUtf8 bytes))
    rw [supported]
    exact headed rest

/-- A blank and a double quote in the name disturb nothing. -/
theorem odd_file_name_kept :
    ∃ (session : Session) (tree : CommandTree) (declared supported : Text),
      session.files.read ⟨["d", "my \"app.cdl"]⟩ = .ok (toUtf8 "cmd run") ∧
      compile "cmd run" = .ok tree ∧
      (compileFile Session.host ⟨["d"]⟩ "./my \"app.cdl" "cli").run session =
        (writeAll Session.host [(⟨["d", "my \"app.ts"]⟩, declared),
          (⟨["d", "my \"app.support.ts"]⟩, supported)]).run
          { session with out := ["Processing /d/my \"app.cdl"] } ∧
      HasHeader declared "// Code generated by cdlc from my \"app.cdl. DO NOT EDIT." ∧
      HasHeader supported "// Code generated by cdlc from my \"app.cdl. DO NOT EDIT." ∧
      ReadsBehind supported
        (importFront (options ⟨["d", "my \"app.cdl"]⟩ "cli" "cmd run")) "./my \"app" := by
  let session : Session := .start
    ⟨[("/d", .directory), ("/d/my \"app.cdl", .file (toUtf8 "cmd run"))]⟩
  let tree : CommandTree :=
    ⟨none, [], [], [commandOf (DeclarationTree.bareCommand 0 none "run" 1) ["run"] []], [0], [], []⟩
  have decoded : ofUtf8 (toUtf8 "cmd run") = "cmd run" := by decide +kernel
  have accepted : FilePath.extension "./my \"app.cdl" = sourceExtension := by decide +kernel
  have leads : FilePath.resolve ⟨["d"]⟩ "./my \"app.cdl" = ⟨["d", "my \"app.cdl"]⟩ := by
    decide +kernel
  have read : session.files.read ⟨["d", "my \"app.cdl"]⟩ = .ok (toUtf8 "cmd run") := by
    decide +kernel
  have h : compile "cmd run" = .ok tree := by decide +kernel
  have valid : Text.isValidIdentifier "cli" = true := by decide
  obtain ⟨base, declared, supported, _, named, run, headed, imported⟩ :=
    file_names_in_generated_files accepted leads read (decoded ▸ h) valid
  have whole : ofString "my \"app" ++ ofString ".cdl" = base ++ ofString ".cdl" := named
  obtain rfl := List.append_cancel_right whole
  rw [decoded] at headed imported
  have oneLine : ∀ u ∈ FilePath.name ⟨["d", "my \"app.cdl"]⟩, isLineTerminator u = false := by decide
  refine ⟨session, tree, declared, supported, read, h, run, ?_, ?_, imported.mpr (by decide)⟩
  · exact (headed declared (by simp)).mpr oneLine
  · exact (headed supported (by simp)).mpr oneLine

/-- An apostrophe in a name ends the literal in which it is imported, and a line feed ends the
header. -/
theorem file_names_disturb_generated_files :
    ∃ (session : Session) (tree : CommandTree) (quoted broken : Options),
      compile "cmd run" = .ok tree ∧
      session.files.read ⟨["a'b.cdl"]⟩ = .ok (toUtf8 "cmd run") ∧
      quoted = options ⟨["a'b.cdl"]⟩ "cli" "cmd run" ∧
      (compileFile Session.host .root "a'b.cdl" "cli").run session =
        (writeAll Session.host (outputs ⟨["a'b.cdl"]⟩
          ⟨declarations tree quoted, support tree quoted⟩)).run
          { session with out := ["Processing /a'b.cdl"] } ∧
      ReadsBehind (support tree quoted) (importFront quoted) "./a" ∧
      ¬ ReadsBehind (support tree quoted) (importFront quoted) "./a'b" ∧
      session.files.read ⟨["a\nb.cdl"]⟩ = .ok (toUtf8 "cmd run") ∧
      broken = options ⟨["a\nb.cdl"]⟩ "cli" "cmd run" ∧
      (compileFile Session.host .root "a\nb.cdl" "cli").run session =
        (writeAll Session.host (outputs ⟨["a\nb.cdl"]⟩
          ⟨declarations tree broken, support tree broken⟩)).run
          { session with out := ["Processing /a\nb.cdl"] } ∧
      ¬ HasHeader (declarations tree broken) (header broken) ∧
      ¬ HasHeader (support tree broken) (header broken) := by
  let session : Session := .start
    ⟨[("/a'b.cdl", .file (toUtf8 "cmd run")), ("/a\nb.cdl", .file (toUtf8 "cmd run"))]⟩
  let tree : CommandTree :=
    ⟨none, [], [], [commandOf (DeclarationTree.bareCommand 0 none "run" 1) ["run"] []], [0], [], []⟩
  let quoted : Options := options ⟨["a'b.cdl"]⟩ "cli" "cmd run"
  let broken : Options := options ⟨["a\nb.cdl"]⟩ "cli" "cmd run"
  have decoded : ofUtf8 (toUtf8 "cmd run") = "cmd run" := by decide +kernel
  have h : compile "cmd run" = .ok tree := by decide +kernel
  have valid : Text.isValidIdentifier "cli" = true := by decide
  have first : session.files.read ⟨["a'b.cdl"]⟩ = .ok (toUtf8 "cmd run") := by decide +kernel
  have second : session.files.read ⟨["a\nb.cdl"]⟩ = .ok (toUtf8 "cmd run") := by decide +kernel
  have firstAccepted : FilePath.extension "a'b.cdl" = sourceExtension := by decide +kernel
  have secondAccepted : FilePath.extension "a\nb.cdl" = sourceExtension := by decide +kernel
  have firstLeads : FilePath.resolve .root "a'b.cdl" = ⟨["a'b.cdl"]⟩ := by decide +kernel
  have secondLeads : FilePath.resolve .root "a\nb.cdl" = ⟨["a\nb.cdl"]⟩ := by decide +kernel
  have quotedRun := run_compileFile firstAccepted firstLeads first (decoded ▸ h) valid
  have brokenRun := run_compileFile secondAccepted secondLeads second (decoded ▸ h) valid
  rw [decoded] at quotedRun brokenRun
  have origin : broken.sourceName = some (ofString "a\nb.cdl") := rfl
  refine ⟨session, tree, quoted, broken, h, first, rfl, quotedRun, ?_, ?_, second, rfl, brokenRun,
    ?_, ?_⟩
  · obtain ⟨rest, written⟩ := support_eq_import tree quoted
    have ended : ("./" : Text) ++ quoted.baseName = "./a" ++ apostrophe :: "b" := by decide +kernel
    rw [ended, List.append_assoc] at written
    exact ⟨_, _, written, readApostrophes_of_verbatim (by decide) _⟩
  · have named : quoted.baseName = "a'b" := by decide +kernel
    have reads := support_readsBehind_iff tree quoted
    rw [named] at reads
    exact reads.not.mpr (by decide)
  · rw [declarations_eq, header_hasHeader_iff origin (by decide)]
    decide
  · obtain ⟨rest, written⟩ := exists_support_eq_header tree broken
    rw [written, header_hasHeader_iff origin (by decide)]
    decide

end Runs

end CommandLanguage

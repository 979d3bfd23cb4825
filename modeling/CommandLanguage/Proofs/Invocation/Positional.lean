import CommandLanguage.Proofs.Invocation.Binding

/-!
# Positional tokens of a call

Behind its path an accepted call has a positional token for each argument of the command. They are
recorded one after the other under the names of the arguments, so a name that stands for several
arguments keeps the token of the last of them.
-/

set_option autoImplicit false

namespace CommandLanguage

open KeyedList

namespace Command

/-- The tokens that are neither a flag of the command nor the text of one, in order. -/
def positionals (command : Command) : List Text → List Text
  | [] => []
  | token :: rest =>
    match command.flags.find? (·.isGivenBy token) with
    | none => token :: positionals command rest
    | some flag =>
      match flag.kind, rest with
      | .bool, rest => positionals command rest
      | .string, [] => []
      | .string, _ :: rest => positionals command rest

variable {command : Command} {token : Text} {tokens rest : List Text}

theorem positionals_other (h : command.flags.find? (·.isGivenBy token) = none) (rest : List Text) :
    command.positionals (token :: rest) = token :: command.positionals rest := by
  rw [positionals, h]

theorem positionals_use {use : FlagUse}
    (h : command.flags.find? (·.isGivenBy use.token) = some use.flag) (rest : List Text) :
    command.positionals (use.tokens ++ rest) = command.positionals rest := by
  unfold FlagUse.tokens
  cases hk : use.flag.kind <;>
    simp only [List.cons_append, List.nil_append, positionals, h, hk]

theorem positionals_append_of_encodes {segments line : List Text} {own globals : List FlagUse}
    (h : Encodes segments tokens own globals line) (nosegments : segments = [])
    (noglobals : globals = [])
    (plain : ∀ token ∈ tokens, command.flags.find? (·.isGivenBy token) = none)
    (given : ∀ use ∈ own, command.flags.find? (·.isGivenBy use.token) = some use.flag) :
    command.positionals (line ++ rest) = tokens ++ command.positionals rest := by
  induction h with
  | nil => rfl
  | segment => cases nosegments
  | positional token _ ih =>
    obtain ⟨htoken, plain⟩ := List.forall_mem_cons.mp plain
    rw [List.cons_append, positionals_other htoken, ih rfl noglobals plain given]
    rfl
  | ownFlag use _ ih =>
    obtain ⟨huse, given⟩ := List.forall_mem_cons.mp given
    rw [List.append_assoc, positionals_use huse, ih rfl noglobals plain given]
  | globalFlag => cases noglobals

end Command

namespace CommandTree

variable {tree : CommandTree} {c : PlacedCommand} {argv : List Text} {p : Parameters}

namespace Consistent

variable (consistent : tree.Consistent)
include consistent

/-- Tokens that were read leave their positional ones, and those behind them theirs. -/
theorem positionals_append_of_reads (held : tree.Holds c) {tokens line : List Text}
    {own : List FlagUse} (reads : c.Reads line tokens own) (rest : List Text) :
    c.positionals (line ++ rest) = tokens ++ c.positionals rest := by
  apply Command.positionals_append_of_encodes reads.encodes rfl rfl
  · intro token ht
    exact Flag.find?_eq_none_of_plain (consistent.flags_named _ held.mem) (reads.plain token ht)
  · intro use hu
    exact consistent.find?_flags held.mem (reads.given use hu).1 (reads.given use hu).2

theorem positionals_of_reads (held : tree.Holds c) {tokens line : List Text} {own : List FlagUse}
    (reads : c.Reads line tokens own) : c.positionals line = tokens := by
  have all := consistent.positionals_append_of_reads held reads []
  rwa [List.append_nil, Command.positionals, List.append_nil] at all

end Consistent

end CommandTree

open CommandTree

/-- In every compiled tree, an accepted call has one positional token for each argument of its
command. Its parameters hold under the name of an argument the token of the argument, if no argument
behind it has the same name and the name is not the one that is never recorded. -/
theorem last_argument_of_each_name_kept {source : Text} {tree : CommandTree}
    (h : compile source = .ok tree) {argv : List Text} {c : PlacedCommand} {p : Parameters}
    (called : tree.dispatch argv = .command c p) :
    ∃ values tokens consumed, tree.extractGlobals argv = .ok (values, tokens) ∧
      tree.resolvePath tokens = .reached (some c) consumed ∧ c.isLeaf = true ∧
      (c.positionals (tokens.drop consumed)).length = c.args.length ∧
      ∀ (k : Nat) (hk : k < c.args.length), c.args[k].name ≠ unrecordedName →
        (∀ (j : Nat) (hj : j < c.args.length), k < j → c.args[j].name ≠ c.args[k].name) →
        get? p.args c.args[k].name = (c.positionals (tokens.drop consumed))[k]? := by
  have consistent := consistent_of_compile h
  obtain ⟨tokens, consumed, positionals, own, globals, taken, hpath, held, leaf, reads, length_eq,
    rfl⟩ := consistent.exists_reads_of_dispatch called
  refine ⟨_, tokens, consumed, taken, hpath, leaf, ?_⟩
  rw [consistent.positionals_of_reads held reads]
  refine ⟨length_eq, ?_⟩
  intro k hk recorded last
  have hp : k < positionals.length := by omega
  have pair : ((c.args.map (·.name)).zip positionals)[k]? =
      some (c.args[k].name, positionals[k]) := by
    rw [List.getElem?_zip_eq_some, List.getElem?_map, List.getElem?_eq_getElem hk]
    exact ⟨rfl, List.getElem?_eq_getElem hp⟩
  rw [List.getElem?_eq_getElem hp]
  -- Tokens are recorded one after the other, so the last one under a name stays.
  apply get?_recordAll_of_last pair recorded
  intro j other hj ho
  obtain ⟨hname, _⟩ := List.getElem?_zip_eq_some.mp ho
  rw [List.getElem?_map] at hname
  obtain ⟨argument, ha, hn⟩ := Option.map_eq_some_iff.mp hname
  obtain ⟨hlt, rfl⟩ := List.getElem?_eq_some_iff.mp ha
  rw [← hn]
  exact last j hlt hj

/-- Of three arguments the first and the last have one name; a flag and its text stand between. -/
theorem last_of_two_files_kept :
    ∃ tree c p, compile
        "cmd copy\nflag tag string \"\" t\narg file s \"\"\narg to s \"\"\narg file s \"\"" = .ok tree ∧
      tree.dispatch ["copy", "a", "-t", "x", "b", "c"] = .command c p ∧
      c.positionals ["a", "-t", "x", "b", "c"] = (["a", "b", "c"] : List Text) ∧
      get? p.args "to" = some "b" ∧ get? p.args "file" = some "c" := by
  let file : Argument := ⟨"file", "s", []⟩
  let c : PlacedCommand :=
    { commandOf (DeclarationTree.bareCommand 0 none "copy" 1) ["copy"]
        [⟨"tag", some "t", .string, []⟩] with
      args := [file, ⟨"to", "s", []⟩, file]
      position := 0 }
  let tree : CommandTree := ⟨none, [], [], [c.toCommand], [0], [], []⟩
  let p : Parameters :=
    ⟨[("tag", .string "x")], [("file", "c"), ("to", "b")], [("help", .bool false)]⟩
  have h : compile
      "cmd copy\nflag tag string \"\" t\narg file s \"\"\narg to s \"\"\narg file s \"\"" =
        .ok tree := by decide +kernel
  have called : tree.dispatch ["copy", "a", "-t", "x", "b", "c"] = .command c p := by
    decide +kernel
  have positionals : c.positionals ["a", "-t", "x", "b", "c"] = (["a", "b", "c"] : List Text) := by
    decide +kernel
  obtain ⟨values, tokens, consumed, taken, reached, _, _, kept⟩ :=
    last_argument_of_each_name_kept h called
  have rest : tokens.drop consumed = (["a", "-t", "x", "b", "c"] : List Text) := by
    have all : tree.extractGlobals ["copy", "a", "-t", "x", "b", "c"] =
        .ok ([("help", .bool false)], ["copy", "a", "-t", "x", "b", "c"]) := by decide +kernel
    rw [all] at taken
    cases taken
    have first : tree.resolvePath ["copy", "a", "-t", "x", "b", "c"] = .reached (some c) 1 := by
      decide +kernel
    rw [first] at reached
    cases reached
    rfl
  rw [rest, positionals] at kept
  refine ⟨tree, c, p, h, called, positionals, ?_, ?_⟩
  · exact kept 1 (by decide) (by decide) (by decide)
  · exact kept 2 (by decide) (by decide) (by decide)

/-- The first of two arguments of one name loses its token. -/
theorem first_of_two_files_lost :
    ∃ tree c p values, compile "cmd copy\narg file s \"\"\narg file s \"\"" = .ok tree ∧
      tree.dispatch ["copy", "a", "b"] = .command c p ∧
      tree.extractGlobals ["copy", "a", "b"] = .ok (values, ["copy", "a", "b"]) ∧
      tree.resolvePath ["copy", "a", "b"] = .reached (some c) 1 ∧
      c.positionals ["a", "b"] = (["a", "b"] : List Text) ∧
      c.args.map (·.name) = (["file", "file"] : List Text) ∧
      p.args = ([("file", "b")] : KeyedList Text) ∧
      ¬ ∀ (k : Nat) (hk : k < c.args.length),
        get? p.args c.args[k].name = (c.positionals ["a", "b"])[k]? := by
  let file : Argument := ⟨"file", "s", []⟩
  let c : PlacedCommand :=
    { commandOf (DeclarationTree.bareCommand 0 none "copy" 1) ["copy"] [] with
      args := [file, file]
      position := 0 }
  let tree : CommandTree := ⟨none, [], [], [c.toCommand], [0], [], []⟩
  have h : compile "cmd copy\narg file s \"\"\narg file s \"\"" = .ok tree := by decide +kernel
  have called : tree.dispatch ["copy", "a", "b"] =
      .command c ⟨[], [("file", "b")], [("help", .bool false)]⟩ := by decide +kernel
  refine ⟨tree, c, _, [("help", .bool false)], h, called, by decide +kernel, by decide +kernel,
    by decide +kernel, rfl, rfl, ?_⟩
  intro kept
  have first := kept 0 (by decide)
  exact absurd first (by decide +kernel)

end CommandLanguage

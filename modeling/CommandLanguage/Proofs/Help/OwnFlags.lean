import CommandLanguage.Help.Page
import CommandLanguage.Proofs.Invocation.FlagShape

/-!
# Flags that help lists

The page of a command lists the flags that the command declares, and its line of usage announces
them. A command at the end of a line takes each of them; a group binds no flags, and calls every one
of its own unknown.
-/

set_option autoImplicit false

namespace CommandLanguage

open FlagValues KeyedList

namespace Help

/-- The page of a command has the flag in its section of flags, and the line of usage says that the
command has flags. -/
structure Advertises (tree : CommandTree) (command : Command) (flag : Flag) : Prop where
  listed : ∀ theme : Theme, ∃ before rows behind, commandPage tree theme command =
      page (before ++ sectionLines theme "Flags:" (table theme.flag theme.dim rows) ++ behind) ∧
    ⟨flag.label, flag.description⟩ ∈ rows
  announced : ∃ before behind : List Text,
    usageLine tree command = Text.join " " (before ++ ("[flags]" : Text) :: behind)

theorem advertises_of_mem {tree : CommandTree} {command : Command} {flag : Flag}
    (own : flag ∈ command.flags) : Advertises tree command flag := by
  constructor
  · intro theme
    exact ⟨_, flagRows command.flags, _, rfl, List.mem_map.mpr ⟨flag, own, rfl⟩⟩
  · have some : command.flags.isEmpty = false :=
      List.isEmpty_eq_false_iff.mpr (List.ne_nil_of_mem own)
    refine ⟨tree.programName :: command.segments ++
      if command.isLeaf then [] else [("<command>" : Text)],
      command.args.map fun a => placeholder a.name, ?_⟩
    simp [usageLine, some]

end Help

namespace CommandTree

variable {tree : CommandTree} {c : PlacedCommand} {use : FlagUse}

namespace Consistent

variable (consistent : tree.Consistent)
include consistent

theorem bind_own_flag (held : tree.Holds c) (own : use.flag ∈ c.flags)
    (given : use.flag.isGivenBy use.token = true) (values : FlagValues) :
    c.bind use.tokens values =
      match c.args with
      | [] => .ok ⟨record (FlagValues.zero c.flags) use.flag.name use.value, [], values⟩
      | argument :: _ => .error (.missingArgument argument.name c.segments) := by
  have shaped := Flag.isFlagShaped_of_isGivenBy (consistent.flags_named _ held.mem _ own) given
  have found := consistent.find?_flags held.mem own given
  rw [Command.bind, ← List.append_nil use.tokens, bindTokens_use shaped found, Command.bindTokens]
  cases c.args <;> rfl

theorem dispatch_own_flag (held : tree.Holds c) (own : use.flag ∈ c.flags)
    (given : use.flag.isGivenBy use.token = true)
    (text : use.flag.kind = .string → ∀ flag ∈ tree.globalFlags, flag.isGivenBy use.text = false) :
    tree.dispatch (c.segments ++ use.tokens) =
      callCommand c use.tokens (FlagValues.zero tree.globalFlags) := by
  have none : GivesNone tree.globalFlags (c.segments ++ use.tokens) :=
    List.forall_mem_append.mpr ⟨consistent.givesNone_of_plain (consistent.plain_segments held),
      consistent.givesNone_tokens held own given text⟩
  have taken : tree.extractGlobals (c.segments ++ use.tokens) =
      .ok (FlagValues.zero tree.globalFlags, c.segments ++ use.tokens) := by
    rw [extractGlobals, ← List.append_nil (c.segments ++ use.tokens), takeGlobals_others none]
    rfl
  have shaped := Flag.isFlagShaped_of_isGivenBy (consistent.flags_named _ held.mem _ own) given
  have stops : tree.StopsAt c use.tokens := by
    unfold FlagUse.tokens
    split
    · exact consistent.stopsAt_of_isFlagShaped shaped
    · exact consistent.stopsAt_of_isFlagShaped shaped
  rw [dispatch_of_unasked taken consistent.asksForHelp_zero
    (consistent.asksByWord_segments held use.tokens)]
  simp only [dispatchTokens, consistent.resolvePath_segments held stops, List.drop_left]

end Consistent

end CommandTree

open CommandTree

/-- In every compiled tree, the help of a command advertises each flag of the command, and a call of
the command with the flag alone is refused for an unknown flag exactly if the command is a group. -/
theorem own_flag_unknown_iff_group {source : Text} {tree : CommandTree}
    (h : compile source = .ok tree) {c : PlacedCommand} (held : tree.Holds c) {use : FlagUse}
    (own : use.flag ∈ c.flags) (given : use.flag.isGivenBy use.token = true)
    (text : use.flag.kind = .string → ∀ flag ∈ tree.globalFlags, flag.isGivenBy use.text = false) :
    Help.Advertises tree c.toCommand use.flag ∧
    ((∃ token path, tree.dispatch (c.segments ++ use.tokens) = .failed (.unknownFlag token path)) ↔
      c.isLeaf = false) := by
  have consistent := consistent_of_compile h
  refine ⟨Help.advertises_of_mem own, ?_⟩
  rw [consistent.dispatch_own_flag held own given text]
  unfold callCommand
  cases hleaf : c.isLeaf with
  | true =>
    rw [consistent.bind_own_flag held own given]
    cases c.args <;> simp
  | false =>
    -- A group looks at the shape of its first token, and not at its flags.
    have shaped := Flag.isFlagShaped_of_isGivenBy (consistent.flags_named _ held.mem _ own) given
    refine iff_of_true ⟨use.token, c.segments, ?_⟩ rfl
    cases hk : use.flag.kind <;> simp [FlagUse.tokens, hk, shaped]

/-- A command at the end of a line takes a flag whose text is shaped like a flag. -/
theorem leaf_flag_known :
    ∃ tree add tag, compile "cmd user add\nflag tag string \"\" t\narg to s \"\"" = .ok tree ∧
      tree.Holds add ∧ tag ∈ add.flags ∧ Help.Advertises tree add.toCommand tag ∧
      ¬ ∃ token path,
        tree.dispatch ["user", "add", "--tag", "-x"] = .failed (.unknownFlag token path) := by
  let tag : Flag := ⟨"tag", some "t", .string, []⟩
  let user : Command :=
    commandOf { DeclarationTree.bareCommand 0 none "user" 1 with children := [1] } ["user"] []
  let add : PlacedCommand :=
    { commandOf (DeclarationTree.bareCommand 1 (some 0) "add" 1) ["user", "add"] [tag] with
      args := [⟨"to", "s", []⟩]
      position := 1 }
  let tree : CommandTree := ⟨none, [], [], [user, add.toCommand], [0], [], []⟩
  have h : compile "cmd user add\nflag tag string \"\" t\narg to s \"\"" = .ok tree := by
    decide +kernel
  let use : FlagUse := ⟨tag, "--tag", "-x"⟩
  have own : use.flag ∈ add.flags := List.mem_cons_self
  have given : use.flag.isGivenBy use.token = true := by decide
  obtain ⟨advertised, unknown⟩ := own_flag_unknown_iff_group h (c := add) rfl own given (by decide)
  refine ⟨tree, add, tag, h, rfl, own, advertised, ?_⟩
  intro refused
  have group := unknown.mp refused
  cases group

/-- The help of a group lists a flag, and the group calls it unknown. -/
theorem group_flag_unknown :
    ∃ tree user all, compile "cmd user\nflag all bool \"\"\ncmd user list" = .ok tree ∧
      tree.Holds user ∧ all ∈ user.flags ∧ Help.Advertises tree user.toCommand all ∧
      tree.help Theme.plain (.command 0) =
        "Command: user\n\nUsage:\n  app user <command> [flags]\n\nSubcommands:\n  list\n\nFlags:\n  --all" ∧
      tree.dispatch ["user", "--all"] = .failed (.unknownFlag "--all" ["user"]) := by
  let all : Flag := ⟨"all", none, .bool, []⟩
  let user : PlacedCommand :=
    ⟨commandOf { DeclarationTree.bareCommand 0 none "user" 1 with children := [1] } ["user"] [all],
      0⟩
  let list : Command :=
    commandOf (DeclarationTree.bareCommand 1 (some 0) "list" 3) ["user", "list"] []
  let tree : CommandTree := ⟨none, [], [], [user.toCommand, list], [0], [], []⟩
  have h : compile "cmd user\nflag all bool \"\"\ncmd user list" = .ok tree := by decide +kernel
  have own : all ∈ user.flags := List.mem_cons_self
  exact ⟨tree, user, all, h, rfl, own, Help.advertises_of_mem own, by decide +kernel,
    by decide +kernel⟩

end CommandLanguage

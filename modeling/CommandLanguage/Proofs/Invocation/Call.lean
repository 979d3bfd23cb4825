import CommandLanguage.Proofs.Invocation.Globals
import CommandLanguage.Proofs.Invocation.Path

/-!
# Calls that reach their command

A call gives the segments of a command, behind them its arguments in order and its flags anywhere
between, and global flags anywhere at all. Three passes read it one after the other: the first takes
the global flags out, the second follows the segments, the third binds the rest. `Encodes` relates
the parts of a call to the vectors that give them.
-/

set_option autoImplicit false

namespace CommandLanguage

open FlagValues KeyedList

/-- A vector gives segments, positional tokens and uses of flags, each kind in its order. Segments
come before positional tokens and own flags; global flags come anywhere. -/
inductive Encodes : List Text → List Text → List FlagUse → List FlagUse → List Text → Prop where
  | nil : Encodes [] [] [] [] []
  | segment {segments positionals line : List Text} {own globals : List FlagUse} (name : Text)
      (rest : Encodes segments positionals own globals line) :
      Encodes (name :: segments) positionals own globals (name :: line)
  | positional {positionals line : List Text} {own globals : List FlagUse} (token : Text)
      (rest : Encodes [] positionals own globals line) :
      Encodes [] (token :: positionals) own globals (token :: line)
  | ownFlag {positionals line : List Text} {own globals : List FlagUse} (use : FlagUse)
      (rest : Encodes [] positionals own globals line) :
      Encodes [] positionals (use :: own) globals (use.tokens ++ line)
  | globalFlag {segments positionals line : List Text} {own globals : List FlagUse} (use : FlagUse)
      (rest : Encodes segments positionals own globals line) :
      Encodes segments positionals own (use :: globals) (use.tokens ++ line)

namespace CommandTree

/-- The tree holds the command, nothing stands below it, and all its parameters are recorded. -/
structure Callable (tree : CommandTree) (c : PlacedCommand) : Prop where
  held : tree.Holds c
  leaf : c.children = []
  args_differ : (c.args.map (·.name)).Nodup
  args_recorded : ∀ argument ∈ c.args, argument.name ≠ unrecordedName
  flags_recorded : ∀ flag ∈ c.flags, flag.name ≠ unrecordedName
  globals_recorded : ∀ flag ∈ tree.globalFlags, flag.name ≠ unrecordedName

/-- The parts of a call of the command: one positional token for each argument, none shaped like a
flag, uses of its own flags whose texts give no global flag, and uses of declared global flags. -/
structure Fits (tree : CommandTree) (c : PlacedCommand) (positionals : List Text)
    (own globals : List FlagUse) : Prop where
  length_eq : positionals.length = c.args.length
  positionals_plain : ∀ token ∈ positionals, isFlagShaped token = false
  own_given : ∀ use ∈ own, use.flag ∈ c.flags ∧ use.flag.isGivenBy use.token = true
  own_texts : ∀ use ∈ own, use.flag.kind = .string →
    ∀ flag ∈ tree.globalFlags, flag.isGivenBy use.text = false
  globals_given : ∀ use ∈ globals, use.flag ∈ tree.declaredFlags ∧
    use.flag.isGivenBy use.token = true

end CommandTree

section Reading
variable {flags : List Flag} {values : FlagValues} {line rest segments positionals : List Text}
variable {own globals : List FlagUse}

/-- No token gives one of the flags. -/
def GivesNone (flags : List Flag) (tokens : List Text) : Prop :=
  ∀ token ∈ tokens, ∀ flag ∈ flags, flag.isGivenBy token = false

theorem takeGlobals_others {tokens : List Text} (h : GivesNone flags tokens) :
    takeGlobals flags values (tokens ++ rest) =
      (takeGlobals flags values rest).map fun taken => (taken.1, tokens ++ taken.2) := by
  induction tokens with
  | nil => rw [List.nil_append]; cases takeGlobals flags values rest <;> rfl
  | cons token tokens ih =>
    obtain ⟨htoken, htokens⟩ := List.forall_mem_cons.mp h
    have hfind : flags.find? (·.isGivenBy token) = none := by
      simpa [List.find?_eq_none] using htoken
    rw [List.cons_append, takeGlobals_other hfind, ih htokens]
    cases takeGlobals flags values rest <;> rfl

/-- Taking the global flags out leaves a vector that gives the other parts. -/
theorem takeGlobals_of_encodes (h : Encodes segments positionals own globals line)
    (hsegments : GivesNone flags segments) (hpositionals : GivesNone flags positionals)
    (hown : ∀ use ∈ own, GivesNone flags use.tokens)
    (hglobals : ∀ use ∈ globals, flags.find? (·.isGivenBy use.token) = some use.flag) :
    ∃ body, Encodes [] positionals own [] body ∧
      takeGlobals flags values line = .ok (afterUses values globals, segments ++ body) := by
  induction h generalizing values with
  | nil => exact ⟨[], .nil, rfl⟩
  | segment name rest ih =>
    obtain ⟨hname, hsegments⟩ := List.forall_mem_cons.mp hsegments
    obtain ⟨body, hbody, htake⟩ := ih hsegments hpositionals hown hglobals
    refine ⟨body, hbody, ?_⟩
    have hskip : GivesNone flags [name] := List.forall_mem_singleton.mpr hname
    rw [← List.singleton_append, takeGlobals_others hskip, htake]
    rfl
  | positional token rest ih =>
    obtain ⟨htoken, hpositionals⟩ := List.forall_mem_cons.mp hpositionals
    obtain ⟨body, hbody, htake⟩ := ih hsegments hpositionals hown hglobals
    refine ⟨token :: body, .positional token hbody, ?_⟩
    have hskip : GivesNone flags [token] := List.forall_mem_singleton.mpr htoken
    rw [← List.singleton_append, takeGlobals_others hskip, htake]
    rfl
  | ownFlag use rest ih =>
    obtain ⟨huse, hown⟩ := List.forall_mem_cons.mp hown
    obtain ⟨body, hbody, htake⟩ := ih hsegments hpositionals hown hglobals
    refine ⟨use.tokens ++ body, .ownFlag use hbody, ?_⟩
    rw [takeGlobals_others huse, htake]
    rfl
  | globalFlag use rest ih =>
    obtain ⟨huse, hglobals⟩ := List.forall_mem_cons.mp hglobals
    obtain ⟨body, hbody, htake⟩ := ih hsegments hpositionals hown hglobals
    refine ⟨body, hbody, ?_⟩
    rw [takeGlobals_use huse, htake]
    rfl

end Reading

section Binding
variable {command : Command} {values : FlagValues} {args : KeyedList Text}
variable {pending : List Argument} {line positionals : List Text} {own : List FlagUse}

theorem bindTokens_positional {token : Text} {argument : Argument}
    (hplain : isFlagShaped token = false) (rest : List Text) :
    command.bindTokens ⟨values, args, argument :: pending⟩ (token :: rest) =
      command.bindTokens ⟨values, record args argument.name token, pending⟩ rest := by
  rw [Command.bindTokens, hplain]
  rfl

theorem bindTokens_use {use : FlagUse} (hshape : isFlagShaped use.token = true)
    (hfind : command.flags.find? (·.isGivenBy use.token) = some use.flag) (rest : List Text) :
    command.bindTokens ⟨values, args, pending⟩ (use.tokens ++ rest) =
      command.bindTokens ⟨record values use.flag.name use.value, args, pending⟩ rest := by
  unfold FlagUse.tokens FlagUse.value
  cases hk : use.flag.kind <;>
    simp only [List.cons_append, List.nil_append, Command.bindTokens, hshape, hfind, hk, if_pos] <;>
    rfl

/-- Binding what stands behind the segments gives every argument its token. -/
theorem bindTokens_of_encodes {segments : List Text} {globals : List FlagUse}
    (h : Encodes segments positionals own globals line) (nosegments : segments = [])
    (noglobals : globals = []) (length_eq : positionals.length = pending.length)
    (plain : ∀ token ∈ positionals, isFlagShaped token = false)
    (given : ∀ use ∈ own, isFlagShaped use.token = true ∧
      command.flags.find? (·.isGivenBy use.token) = some use.flag)
    (differ : (names args ++ pending.map (·.name)).Nodup)
    (recorded : ∀ argument ∈ pending, argument.name ≠ unrecordedName) :
    command.bindTokens ⟨values, args, pending⟩ line =
      .ok ⟨afterUses values own, args ++ (pending.map (·.name)).zip positionals, []⟩ := by
  induction h generalizing values args pending with
  | nil =>
    obtain rfl := List.length_eq_zero_iff.mp length_eq.symm
    rw [Command.bindTokens, List.map_nil, List.zip_nil_left, List.append_nil]
    rfl
  | segment => cases nosegments
  | positional token rest ih =>
    cases pending with
    | nil => cases length_eq
    | cons argument pending =>
      obtain ⟨htoken, plain⟩ := List.forall_mem_cons.mp plain
      obtain ⟨hargument, recorded⟩ := List.forall_mem_cons.mp recorded
      have fresh : argument.name ∉ names args := by
        intro hm
        exact (List.nodup_append.mp differ).2.2 _ hm _ List.mem_cons_self rfl
      have hrecord : record args argument.name token = args ++ [(argument.name, token)] := by
        rw [record, if_neg hargument, assign_of_not_mem token fresh]
      have differ : (names (args ++ [(argument.name, token)]) ++ pending.map (·.name)).Nodup := by
        simpa [names] using differ
      rw [bindTokens_positional htoken, hrecord,
        ih rfl noglobals (Nat.succ.inj length_eq) plain given differ recorded]
      simp
  | ownFlag use rest ih =>
    obtain ⟨⟨hshape, hfind⟩, given⟩ := List.forall_mem_cons.mp given
    rw [bindTokens_use hshape hfind, ih rfl noglobals length_eq plain given differ recorded]
    rfl
  | globalFlag => cases noglobals

end Binding

namespace CommandTree

variable {tree : CommandTree} {c : PlacedCommand}

namespace Consistent

variable (consistent : tree.Consistent)
include consistent

theorem givesNone_of_plain {tokens : List Text}
    (plain : ∀ token ∈ tokens, isFlagShaped token = false) : GivesNone tree.globalFlags tokens := by
  intro token ht
  have none := Flag.find?_eq_none_of_plain consistent.globalFlags_named (plain token ht)
  simpa [List.find?_eq_none] using none

theorem plain_segments (held : tree.Holds c) : ∀ name ∈ c.segments, isFlagShaped name = false := by
  obtain ⟨above, hline⟩ := consistent.exists_line held
  rw [← consistent.names_of_line hline]
  intro name hn
  obtain ⟨d, hd, rfl⟩ := List.mem_map.mp hn
  exact Flag.isFlagShaped_eq_false (consistent.named _ (hline.forall_holds d hd).mem)

/-- A token that gives a flag of a command gives no global flag. -/
theorem givesNone_of_own (held : tree.Holds c) {flag : Flag} (hf : flag ∈ c.flags) {token : Text}
    (given : flag.isGivenBy token = true) : GivesNone tree.globalFlags [token] := by
  refine List.forall_mem_singleton.mpr fun other ho => ?_
  by_contra h
  have unshared := consistent.flags_unshared _ held.mem
  have same := unshared.eq_of_isGivenBy (consistent.scope_named held.mem)
    (List.mem_append_right _ hf) (List.mem_append_left _ ho) given (eq_true_of_ne_false h)
  have names := unshared.names
  rw [List.map_append, List.nodup_append] at names
  exact names.2.2 _ (List.mem_map_of_mem ho) _ (List.mem_map_of_mem hf) (same ▸ rfl)

theorem givesNone_tokens (held : tree.Holds c) {use : FlagUse} (hf : use.flag ∈ c.flags)
    (given : use.flag.isGivenBy use.token = true)
    (text : use.flag.kind = .string → ∀ flag ∈ tree.globalFlags, flag.isGivenBy use.text = false) :
    GivesNone tree.globalFlags use.tokens := by
  have htoken := consistent.givesNone_of_own held hf given
  unfold FlagUse.tokens
  split
  · exact htoken
  · next hk =>
    refine List.forall_mem_cons.mpr ⟨List.forall_mem_singleton.mp htoken, ?_⟩
    exact List.forall_mem_singleton.mpr (text hk)

theorem asksByWord_segments (held : tree.Holds c) (rest : List Text) :
    tree.asksByWord (c.segments ++ rest) = false := by
  obtain ⟨above, hline⟩ := consistent.exists_line held
  obtain ⟨root, line, hfirst, hroot, htop⟩ := hline.exists_root
  have hmem : root ∈ tree.top := consistent.mem_level.mpr ⟨hroot, htop⟩
  rw [← consistent.names_of_line hline, hfirst]
  by_cases hn : root.name = helpWord
  · have hany : tree.top.any (·.name = helpWord) = true :=
      List.any_eq_true.mpr ⟨root, hmem, decide_eq_true hn⟩
    rw [asksByWord, hany]
    exact Bool.and_false _
  · simp [asksByWord, hn]

theorem help_not_declared : Flag.help ∉ tree.declaredFlags := by
  intro h
  have names := consistent.globalFlags_unshared.names
  exact (List.nodup_cons.mp names).1 (List.mem_map_of_mem h)

theorem asksForHelp_eq_false {globals : List FlagUse}
    (declared : ∀ use ∈ globals, use.flag ∈ tree.declaredFlags) :
    asksForHelp (tree.globalFlags.map fun flag => (flag.name, FlagUse.lastValue globals flag)) =
      false := by
  have hunused : ∀ use ∈ globals, use.flag ≠ Flag.help := by
    intro use hu he
    exact consistent.help_not_declared (he ▸ declared use hu)
  rw [asksForHelp, globalFlags, List.map_cons, get?_cons, if_pos rfl,
    FlagUse.lastValue_of_unused hunused]
  rfl

/-- The first pass gives the values of the global flags and leaves the other parts of the call. -/
theorem extractGlobals_of_encodes (held : tree.Holds c) {positionals line : List Text}
    {own globals : List FlagUse} (fits : tree.Fits c positionals own globals)
    (encodes : Encodes c.segments positionals own globals line) :
    ∃ body, Encodes [] positionals own [] body ∧ tree.extractGlobals line =
      .ok (table tree.globalFlags (FlagUse.lastValue globals), c.segments ++ body) := by
  have known : ∀ use ∈ globals, use.flag ∈ tree.globalFlags := fun use hu =>
    List.mem_cons_of_mem _ (fits.globals_given use hu).1
  have hown : ∀ use ∈ own, GivesNone tree.globalFlags use.tokens := fun use hu =>
    consistent.givesNone_tokens held (fits.own_given use hu).1 (fits.own_given use hu).2
      (fits.own_texts use hu)
  have hglobals : ∀ use ∈ globals,
      tree.globalFlags.find? (·.isGivenBy use.token) = some use.flag := fun use hu =>
    consistent.find?_globalFlags (known use hu) (fits.globals_given use hu).2
  obtain ⟨body, hbody, htake⟩ := takeGlobals_of_encodes encodes
    (consistent.givesNone_of_plain (consistent.plain_segments held))
    (consistent.givesNone_of_plain fits.positionals_plain) hown hglobals
  refine ⟨body, hbody, ?_⟩
  rw [extractGlobals, htake, afterUses_zero consistent.globalFlags_unshared.names known]

/-- The last pass gives each argument its token and each flag the value of its last use. -/
theorem bind_of_encodes (callable : tree.Callable c) {positionals body : List Text}
    {own globals : List FlagUse} (fits : tree.Fits c positionals own globals)
    (encodes : Encodes [] positionals own [] body) (values : FlagValues) :
    c.bind body values = .ok ⟨table c.flags (FlagUse.lastValue own),
      (c.args.map (·.name)).zip positionals, values⟩ := by
  have held := callable.held
  have named := consistent.flags_named _ held.mem
  have unshared := consistent.own_unshared held.mem
  have given : ∀ use ∈ own, isFlagShaped use.token = true ∧
      c.flags.find? (·.isGivenBy use.token) = some use.flag := by
    intro use hu
    obtain ⟨hf, hg⟩ := fits.own_given use hu
    exact ⟨Flag.isFlagShaped_of_isGivenBy (named _ hf) hg, consistent.find?_flags held.mem hf hg⟩
  have known : ∀ use ∈ own, use.flag ∈ c.flags := fun use hu => (fits.own_given use hu).1
  have hbind := @bindTokens_of_encodes c.toCommand (FlagValues.zero c.flags) [] c.args body
    positionals own [] [] encodes rfl rfl fits.length_eq fits.positionals_plain given
    callable.args_differ callable.args_recorded
  rw [Command.bind, hbind, afterUses_zero unshared.names known]
  rfl

end Consistent

end CommandTree

open CommandTree

/-- In every compiled tree, every vector that gives the segments of a command at the end of a line,
a token for each of its arguments, and flags, calls the command. The arguments have their tokens,
and each flag has the value that its last use gives. -/
theorem dispatch_encoded {source : Text} {tree : CommandTree} (h : compile source = .ok tree)
    {c : PlacedCommand} (callable : tree.Callable c) {positionals line : List Text}
    {own globals : List FlagUse} (fits : tree.Fits c positionals own globals)
    (encodes : Encodes c.segments positionals own globals line) :
    tree.dispatch line = .command c
      { flags := c.flags.map fun flag => (flag.name, FlagUse.lastValue own flag)
        args := (c.args.map (·.name)).zip positionals
        globals :=
          tree.globalFlags.map fun flag => (flag.name, FlagUse.lastValue globals flag) } := by
  have consistent := consistent_of_compile h
  have held := callable.held
  obtain ⟨body, hbody, htake⟩ := consistent.extractGlobals_of_encodes held fits encodes
  rw [table_of_recorded callable.globals_recorded] at htake
  have hword := consistent.asksByWord_segments held body
  have hhelp := consistent.asksForHelp_eq_false fun use hu => (fits.globals_given use hu).1
  have stops : tree.StopsAt c body := .inr (.inl callable.leaf)
  have hpath := consistent.resolvePath_segments held stops
  have hleaf : c.isLeaf = true := List.isEmpty_iff.mpr callable.leaf
  have hbind := consistent.bind_of_encodes callable fits hbody
  rw [table_of_recorded callable.flags_recorded] at hbind
  rw [dispatch, htake]
  simp only [hword, hhelp, Bool.or_false, Bool.false_eq_true, if_false]
  simp only [dispatchTokens, hpath, callCommand, hleaf, if_true, List.drop_left, hbind]

/-- A global flag inside the path, whose text looks like the flag, and a flag given twice. -/
theorem call_with_repeated_flag :
    ∃ tree add, compile
        "flag log string \"\" l\ncmd user add\nflag tag string \"\" t\narg to string \"\"" =
          .ok tree ∧
      tree.dispatch ["user", "-l", "--log", "add", "-t", "a", "x", "--tag", "b"] = .command add
        { flags := [("tag", .string "b")]
          args := [("to", "x")]
          globals := [("help", .bool false), ("log", .string "--log")] } := by
  let log : Flag := ⟨"log", some "l", .string, []⟩
  let tag : Flag := ⟨"tag", some "t", .string, []⟩
  let user : Command :=
    commandOf { DeclarationTree.bareCommand 0 none "user" 2 with children := [1] } ["user"] []
  let add : PlacedCommand :=
    { commandOf (DeclarationTree.bareCommand 1 (some 0) "add" 2) ["user", "add"] [tag] with
      args := [⟨"to", "string", []⟩]
      position := 1 }
  let tree : CommandTree := ⟨none, [log], [], [user, add.toCommand], [0], [], []⟩
  have h : compile
      "flag log string \"\" l\ncmd user add\nflag tag string \"\" t\narg to string \"\"" =
        .ok tree := by
    decide +kernel
  have callable : tree.Callable add :=
    ⟨rfl, rfl, by decide, by decide, by decide, by decide +kernel⟩
  have fits : tree.Fits add ["x"] [⟨tag, "-t", "a"⟩, ⟨tag, "--tag", "b"⟩] [⟨log, "-l", "--log"⟩] :=
    ⟨rfl, by decide, by decide +kernel, by decide +kernel, by decide +kernel⟩
  have encodes : Encodes ["user", "add"] ["x"] [⟨tag, "-t", "a"⟩, ⟨tag, "--tag", "b"⟩]
      [⟨log, "-l", "--log"⟩] ["user", "-l", "--log", "add", "-t", "a", "x", "--tag", "b"] :=
    .segment _ (.globalFlag _ (.segment _ (.ownFlag _ (.positional _ (.ownFlag _ .nil)))))
  exact ⟨tree, add, h, dispatch_encoded h callable fits encodes⟩

end CommandLanguage

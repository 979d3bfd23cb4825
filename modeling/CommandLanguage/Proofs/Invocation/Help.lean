import CommandLanguage.Proofs.CommandTree.Paths
import CommandLanguage.Proofs.Invocation.Binding

/-!
# Help for what a call reaches

The help flag leaves the other tokens of a vector as they are, so the path is followed to the same
command. Wherever a call fails, the path of its failure is that of the command reached, which is the
one that help shows.
-/

set_option autoImplicit false

namespace CommandLanguage

open FlagValues KeyedList

/-- The global values that come with what a vector means; a failure has none. -/
def Dispatch.globals? : Dispatch → Option FlagValues
  | .command _ parameters => some parameters.globals
  | .help _ globals => some globals
  | .failed _ => none

/-- Help shows what a vector reaches: the command it calls or fails at, and no command if it fails
before it reaches one. -/
def HelpScope.Covers (tree : CommandTree) (scope : HelpScope) : Dispatch → Prop
  | .command c _ => scope = .command c.position
  | .help other _ => scope = other
  | .failed failure =>
    (failure.path = [] → ∀ position, scope ≠ .command position) ∧
    (failure.path ≠ [] → ∃ c, tree.Holds c ∧ c.segments = failure.path ∧
      (∀ d, tree.Holds d → d.segments = failure.path → d = c) ∧ scope = .command c.position)

namespace CommandTree

variable {tree : CommandTree} {c d : PlacedCommand} {tokens argv : List Text}
variable {failure : Failure} {values : FlagValues}

theorem path_of_descend {consumed : Nat} {reached : Option PlacedCommand}
    (h : tree.descend c consumed tokens = .failed reached failure) :
    failure.path = (reached.map (·.segments)).getD [] := by
  obtain ⟨_, _, _, rfl, rfl⟩ := exists_ambiguous_of_descend h
  rfl

/-- The path of a failure is that of the command reached before it. -/
theorem path_of_resolvePath {reached : Option PlacedCommand}
    (h : tree.resolvePath tokens = .failed reached failure) :
    failure.path = (reached.map (·.segments)).getD [] := by
  cases h ▸ tree.starts_resolvePath tokens with
  | top _ followed => exact path_of_descend followed
  | omitted _ _ followed => exact path_of_descend followed
  | flag | unknown | ambiguous => rfl

theorem asksForHelp_assign : asksForHelp (assign values Flag.help.name (.bool true)) = true := by
  simp [asksForHelp, get?_assign]

/-- Help that is asked for by flag shows what the tokens reach, or the topic that they name. -/
theorem dispatch_of_asksForHelp (taken : tree.extractGlobals argv = .ok (values, tokens))
    (word : tree.asksByWord tokens = false) (asked : values.asksForHelp = true) :
    tree.dispatch argv = .help (tree.helpScope (tree.resolvePath tokens).command tokens) values := by
  rw [dispatch_of_extractGlobals taken word, asked]
  rfl

theorem globals_of_dispatchTokens {globals : FlagValues}
    (h : (tree.dispatchTokens tokens values).globals? = some globals) : globals = values := by
  unfold dispatchTokens at h
  split at h
  · cases h
  · split at h
    · cases h
      rfl
    · cases h
  · unfold callCommand at h
    split at h
    · split at h
      · next hbind =>
        obtain ⟨positionals, own, _, _, rfl⟩ := exists_reads_of_bind hbind
        cases h
        rfl
      · cases h
    · split at h
      · cases h
        rfl
      · split at h <;> cases h

namespace Consistent

variable (consistent : tree.Consistent)
include consistent

theorem holds_of_descend (held : tree.Holds c) {consumed : Nat}
    (h : (tree.descend c consumed tokens).command = some d) : tree.Holds d := by
  induction tokens generalizing c consumed with
  | nil =>
    cases h
    exact held
  | cons token rest ih =>
    unfold descend at h
    split at h
    · cases h
      exact held
    · next child hm =>
      rw [held.below_eq_level, consistent.matching_level_eq_singleton_iff] at hm
      exact ih hm.1 h
    · cases h
      exact held

/-- Whether or not a path fails, the command reached stands in the tree. -/
theorem holds_of_resolvePath (h : (tree.resolvePath tokens).command = some d) : tree.Holds d := by
  have starts := tree.starts_resolvePath tokens
  generalize tree.resolvePath tokens = outcome at starts h
  cases starts with
  | top found followed =>
    rw [top_eq_level, consistent.matching_level_eq_singleton_iff] at found
    exact consistent.holds_of_descend found.1 (followed ▸ h)
  | omitted _ found followed =>
    exact consistent.holds_of_descend (consistent.denotes_of_findOmitted found).1 (followed ▸ h)
  | nothing | flag | unknown | ambiguous => cases h

theorem covers_failed (held : tree.Holds c) (h : failure.path = c.segments) :
    (HelpScope.command c.position).Covers tree (.failed failure) := by
  constructor
  · intro hempty
    exact absurd (h ▸ hempty) (consistent.segments_ne_nil held)
  · intro _
    refine ⟨c, held, h.symm, ?_, rfl⟩
    intro d hd hsegments
    exact consistent.eq_of_segments_eq hd held (hsegments.trans h)

theorem covers_callCommand (held : tree.Holds c) (tokens : List Text) (values : FlagValues) :
    (HelpScope.command c.position).Covers tree (callCommand c tokens values) := by
  unfold callCommand
  split
  · split
    · rfl
    · next hbind => exact consistent.covers_failed held (path_of_bind hbind)
  · split
    · rfl
    · split
      · exact consistent.covers_failed held rfl
      · exact consistent.covers_failed held rfl

theorem covers_dispatchTokens (tokens : List Text) (values : FlagValues) :
    (tree.helpScope (tree.resolvePath tokens).command tokens).Covers tree
      (tree.dispatchTokens tokens values) := by
  -- Without a command the scope depends on the first token; it is the root or a topic.
  have above (position : Nat) : tree.helpScope none tokens ≠ .command position := by
    cases htopic : tokens.head?.bind tree.findTopic <;> simp [helpScope, htopic]
  unfold dispatchTokens
  cases hpath : tree.resolvePath tokens with
  | failed reached failure =>
    have hfailure := path_of_resolvePath hpath
    cases reached with
    | none =>
      refine ⟨fun _ => above, ?_⟩
      intro hne
      exact absurd hfailure hne
    | some d =>
      have held : tree.Holds d := consistent.holds_of_resolvePath (by rw [hpath]; rfl)
      exact consistent.covers_failed held hfailure
  | reached command consumed =>
    cases command with
    | none =>
      cases tokens with
      | nil => rfl
      | cons token rest =>
        refine ⟨fun _ => above, ?_⟩
        intro hne
        exact absurd rfl hne
    | some c =>
      have held : tree.Holds c := consistent.holds_of_resolvePath (by rw [hpath]; rfl)
      exact consistent.covers_callCommand held (tokens.drop consumed) values

/-- The help flag sets its own value, wherever it stands. -/
theorem extractGlobals_insert_help {a b : List Text} {taken : FlagValues × List Text} {token : Text}
    (ha : tree.extractGlobals a = .ok taken) (given : Flag.help.isGivenBy token = true) :
    tree.extractGlobals (a ++ [token] ++ b) = (tree.extractGlobals (a ++ b)).map fun taken =>
      (assign taken.1 Flag.help.name (.bool true), taken.2) :=
  @extractGlobals_insert tree consistent ⟨Flag.help, token, []⟩ List.mem_cons_self given a b
    (fun kind => nomatch kind) taken ha

theorem extractGlobals_help (taken : tree.extractGlobals argv = .ok (values, tokens)) :
    tree.extractGlobals ("--help" :: argv) =
      .ok (assign values Flag.help.name (.bool true), tokens) := by
  have before : tree.extractGlobals [] = .ok (FlagValues.zero tree.globalFlags, []) := rfl
  have inserted := @extractGlobals_insert_help tree consistent [] argv _ "--help" before (by decide)
  rw [List.nil_append, List.nil_append, taken] at inserted
  exact inserted

end Consistent

end CommandTree

open CommandTree

/-- In every compiled tree, a vector that does not ask for help gives help when the help flag is put
in front of it, and the help shows what the vector reaches without the flag. The global values are
those of the vector, with the help flag set. -/
theorem help_shows_what_is_reached {source : Text} {tree : CommandTree}
    (h : compile source = .ok tree) {argv tokens : List Text} {values : FlagValues}
    (taken : tree.extractGlobals argv = .ok (values, tokens))
    (unasked : values.asksForHelp = false) (word : tree.asksByWord tokens = false) :
    ∃ scope globals, tree.dispatch ("--help" :: argv) = .help scope globals ∧
      scope.Covers tree (tree.dispatch argv) ∧
      ∀ carried, (tree.dispatch argv).globals? = some carried →
        globals = assign carried Flag.help.name (.bool true) := by
  have consistent := consistent_of_compile h
  have without : tree.dispatch argv = tree.dispatchTokens tokens values := by
    rw [dispatch_of_extractGlobals taken word, unasked]
    rfl
  refine ⟨tree.helpScope (tree.resolvePath tokens).command tokens,
    assign values Flag.help.name (.bool true), ?_, ?_, ?_⟩
  · exact dispatch_of_asksForHelp (consistent.extractGlobals_help taken) word asksForHelp_assign
  · rw [without]
    exact consistent.covers_dispatchTokens tokens values
  · intro carried hcarried
    rw [without] at hcarried
    rw [globals_of_dispatchTokens hcarried]

/-- A call with a token too many fails at its command, and help shows the command. -/
theorem surplus_token_shows_command :
    ∃ tree globals, compile "cmd user add\narg to string \"\"\ntopic user \"\"" = .ok tree ∧
      tree.dispatch ["u", "add", "x", "y"] = .failed (.surplusArgument "y" ["user", "add"]) ∧
      tree.dispatch ["--help", "u", "add", "x", "y"] = .help (.command 1) globals := by
  let user : Command :=
    commandOf { DeclarationTree.bareCommand 0 none "user" 1 with children := [1] } ["user"] []
  let add : PlacedCommand :=
    { commandOf (DeclarationTree.bareCommand 1 (some 0) "add" 1) ["user", "add"] [] with
      args := [⟨"to", "string", []⟩]
      position := 1 }
  let tree : CommandTree :=
    ⟨none, [], [], [user, add.toCommand], [0], [⟨"user", [], none⟩], []⟩
  have h : compile "cmd user add\narg to string \"\"\ntopic user \"\"" = .ok tree := by
    decide +kernel
  have taken : tree.extractGlobals ["u", "add", "x", "y"] =
      .ok ([("help", .bool false)], ["u", "add", "x", "y"]) := by decide +kernel
  have failed : tree.dispatch ["u", "add", "x", "y"] =
      .failed (.surplusArgument "y" ["user", "add"]) := by decide +kernel
  obtain ⟨scope, globals, shown, covers, _⟩ :=
    help_shows_what_is_reached h taken (by decide) (by decide +kernel)
  rw [failed] at covers
  obtain ⟨c, _, _, only, rfl⟩ := covers.2 (by decide)
  have hadd : add = c := only add rfl rfl
  refine ⟨tree, globals, h, failed, ?_⟩
  rw [shown, ← hadd]

end CommandLanguage

import CommandLanguage.Proofs.Invocation.Binding
import CommandLanguage.Proofs.Invocation.Omission

/-!
# Tokens shaped like flags

A token that begins with a dash begins the name of no command. A path stops at it, and whichever
pass then refuses it calls it an unknown flag. A tree without commands is the exception: it follows
no path, and calls every token an unknown command.
-/

set_option autoImplicit false

namespace CommandLanguage

open Text PlacedCommand

/-- The token that a failure takes for a command or an argument. -/
def Failure.misplaced? : Failure → Option Text
  | .unknownCommand token _ | .surplusArgument token _ => some token
  | _ => none

/-- The failure takes no token shaped like a flag for a command or an argument. -/
def Failure.SparesFlags (failure : Failure) : Prop :=
  ∀ token ∈ failure.misplaced?, isFlagShaped token = false

namespace Failure.SparesFlags

variable {failure : Failure}

theorem of_none (h : failure.misplaced? = none) : failure.SparesFlags := by
  intro token hm
  rw [h] at hm
  cases hm

theorem of_plain {token : Text} (h : failure.misplaced? = some token)
    (plain : isFlagShaped token = false) : failure.SparesFlags := by
  intro other hm
  rw [h] at hm
  cases hm
  exact plain

end Failure.SparesFlags

section Passes
variable {command : Command} {binding : Binding} {flags : List Flag} {values : FlagValues}
variable {tree : CommandTree} {c : PlacedCommand} {tokens : List Text} {failure : Failure}

theorem sparesFlags_of_takeGlobals (h : takeGlobals flags values tokens = .error failure) :
    failure.SparesFlags := by
  obtain ⟨_, _, _, rfl, _⟩ := takeGlobals_eq_error h
  exact .of_none rfl

theorem sparesFlags_of_refuses {pending : Nat} {token : Text} {rest : List Text}
    (h : command.Refuses pending token rest failure) : failure.SparesFlags := by
  cases h with
  | unknownFlag | missingText => exact .of_none rfl
  | surplus plain => exact .of_plain rfl plain

theorem sparesFlags_of_bind (h : command.bind tokens values = .error failure) :
    failure.SparesFlags := by
  rcases bind_eq_error h with hb | ⟨_, _, _, _, rfl⟩
  · obtain ⟨_, _, _, _, _, _, _, _, refused⟩ := exists_refuses_of_bindTokens hb
    exact sparesFlags_of_refuses refused
  · exact .of_none rfl

theorem sparesFlags_of_callCommand
    (h : CommandTree.callCommand c tokens values = .failed failure) : failure.SparesFlags := by
  rcases CommandTree.callCommand_eq_failed h with
    ⟨_, hbind⟩ | ⟨_, _, _, rfl, ⟨_, rfl⟩ | ⟨plain, rfl⟩⟩
  · exact sparesFlags_of_bind hbind
  · exact .of_none rfl
  · exact .of_plain rfl plain

theorem sparesFlags_of_descend {consumed : Nat} {reached : Option PlacedCommand}
    (h : tree.descend c consumed tokens = .failed reached failure) : failure.SparesFlags := by
  obtain ⟨_, _, _, _, rfl⟩ := CommandTree.exists_ambiguous_of_descend h
  exact .of_none rfl

theorem sparesFlags_of_resolvePath {reached : Option PlacedCommand}
    (h : tree.resolvePath tokens = .failed reached failure) : failure.SparesFlags := by
  cases h ▸ tree.starts_resolvePath tokens with
  | top _ followed => exact sparesFlags_of_descend followed
  | omitted _ _ followed => exact sparesFlags_of_descend followed
  | unknown plain => exact .of_plain rfl plain
  | flag | ambiguous => exact .of_none rfl

theorem reached_ne_none_of_descend {consumed reached : Nat} :
    tree.descend c consumed tokens ≠ .reached none reached := by
  obtain ⟨d, ⟨_, ends⟩ | ⟨_, _, ends⟩⟩ := tree.descend_ends c consumed tokens
  · rw [ends]
    exact fun h => nomatch h
  · rw [ends]
    exact fun h => nomatch h

/-- Only without tokens or without commands is nothing reached. -/
theorem eq_nil_of_resolvePath {consumed : Nat} (populated : tree.top.isEmpty = false)
    (h : tree.resolvePath tokens = .reached none consumed) : tokens = [] := by
  cases h ▸ tree.starts_resolvePath tokens with
  | nothing empty => exact empty.resolve_right (ne_true_of_eq_false populated)
  | top _ followed => exact absurd followed reached_ne_none_of_descend
  | omitted _ _ followed => exact absurd followed reached_ne_none_of_descend

theorem sparesFlags_of_dispatchTokens (populated : tree.top.isEmpty = false)
    (h : tree.dispatchTokens tokens values = .failed failure) : failure.SparesFlags := by
  rcases CommandTree.dispatchTokens_eq_failed h with
    ⟨_, hpath⟩ | ⟨_, _, _, hcall⟩ | ⟨_, _, _, hpath, rfl, _⟩
  · exact sparesFlags_of_resolvePath hpath
  · exact sparesFlags_of_callCommand hcall
  · cases eq_nil_of_resolvePath populated hpath

theorem sparesFlags_of_dispatch {argv : List Text} (populated : tree.top.isEmpty = false)
    (h : tree.dispatch argv = .failed failure) : failure.SparesFlags := by
  rcases CommandTree.dispatch_eq_failed h with taken | ⟨_, _, _, hrest⟩
  · exact sparesFlags_of_takeGlobals taken
  · exact sparesFlags_of_dispatchTokens populated hrest

end Passes

namespace CommandTree

variable {tree : CommandTree} {c : PlacedCommand} {argv tokens rest : List Text} {token : Text}
variable {values : FlagValues}

theorem head?_of_isFlagShaped (shaped : isFlagShaped token = true) :
    token.head? = some (unit '-') := by
  cases token with
  | nil => cases shaped
  | cons u rest =>
    have hu : (unit '-' == u) = true := by simp_all [isFlagShaped]
    rw [List.head?_cons, beq_iff_eq.mp hu]

theorem not_isBegunBy_of_isFlagShaped (named : IsIdentifier c.name)
    (shaped : isFlagShaped token = true) : ¬ c.IsBegunBy token := by
  have dash := head?_of_isFlagShaped shaped
  intro h
  rcases h with rfl | ⟨hne, hp⟩
  · exact named.head?_ne_dash dash
  · obtain ⟨tail, ht⟩ := hp
    apply named.head?_ne_dash
    rw [← ht, List.head?_append_of_ne_nil _ hne, dash]

theorem dispatch_of_unasked (taken : tree.extractGlobals argv = .ok (values, tokens))
    (unasked : values.asksForHelp = false) (word : tree.asksByWord tokens = false) :
    tree.dispatch argv = tree.dispatchTokens tokens values := by
  rw [dispatch_of_extractGlobals taken word, unasked]
  rfl

/-- At a group, a token that no path can take is refused by its shape. -/
theorem dispatchTokens_of_group {consumed : Nat}
    (hpath : tree.resolvePath tokens = .reached (some c) consumed) (group : c.isLeaf = false)
    (hdrop : tokens.drop consumed = token :: rest) (shaped : isFlagShaped token = true) :
    tree.dispatchTokens tokens values = .failed (.unknownFlag token c.segments) := by
  simp [dispatchTokens, hpath, callCommand, group, hdrop, shaped]

namespace Consistent

variable (consistent : tree.Consistent)
include consistent

theorem stopsAt_of_isFlagShaped (shaped : isFlagShaped token = true) :
    tree.StopsAt c (token :: rest) := by
  apply Or.inr
  apply Or.inr
  refine ⟨token, rfl, ?_⟩
  intro child held _
  exact not_isBegunBy_of_isFlagShaped (consistent.named _ held.mem) shaped

theorem resolvePath_of_isFlagShaped (populated : tree.commands ≠ [])
    (shaped : isFlagShaped token = true) :
    tree.resolvePath (token :: rest) = .failed none (.unknownFlag token []) := by
  have hm : matching tree.top token = [] := by
    rw [top_eq_level, consistent.matching_level_eq_nil_iff]
    intro s held _
    exact not_isBegunBy_of_isFlagShaped (consistent.named _ held.mem) shaped
  simp [resolvePath, consistent.top_isEmpty_eq_false populated, hm, descendOmitted, shaped]

/-- Two dashes are shaped like a flag and give none. -/
theorem extractGlobals_dashes :
    tree.extractGlobals ["--"] = .ok (FlagValues.zero tree.globalFlags, ["--"]) := by
  have none : tree.globalFlags.find? (·.isGivenBy "--") = none := by
    apply List.find?_eq_none.mpr
    intro flag hf given
    have named := consistent.globalFlags_named flag hf
    rcases Flag.isGivenBy_iff.mp given with he | ⟨short, hs, he⟩
    · rw [Flag.longForm_eq] at he
      exact named.name.ne_nil (List.cons.inj (List.cons.inj he).2).2.symm
    · rw [Flag.shortForm_eq] at he
      apply (named.short short hs).head?_ne_dash
      rw [← (List.cons.inj he).2]
      rfl
  rw [extractGlobals, takeGlobals_other none]
  rfl

theorem asksForHelp_zero : (FlagValues.zero tree.globalFlags).asksForHelp = false := by
  have recorded : ¬ Flag.help.name = KeyedList.unrecordedName := by decide
  rw [FlagValues.zero_eq_table consistent.globalFlags_unshared.names, globalFlags,
    FlagValues.table_cons, if_neg recorded, FlagValues.asksForHelp, List.singleton_append,
    KeyedList.get?_cons, if_pos rfl]
  rfl

end Consistent

/-- A vector that asks for no help fails with an unknown flag where its path meets a token shaped
like a flag, and no failure takes such a token for a command or an argument. -/
structure RefusesAsFlags (tree : CommandTree) : Prop where
  first : ∀ argv values token rest, tree.extractGlobals argv = .ok (values, token :: rest) →
    values.asksForHelp = false → tree.asksByWord (token :: rest) = false →
    isFlagShaped token = true → tree.dispatch argv = .failed (.unknownFlag token [])
  group : ∀ argv values tokens, tree.extractGlobals argv = .ok (values, tokens) →
    values.asksForHelp = false → tree.asksByWord tokens = false →
    ∀ c consumed token rest, tree.resolvePath tokens = .reached (some c) consumed →
      c.isLeaf = false → tokens.drop consumed = token :: rest → isFlagShaped token = true →
      tree.dispatch argv = .failed (.unknownFlag token c.segments)
  spared : ∀ argv failure, tree.dispatch argv = .failed failure → failure.SparesFlags

end CommandTree

open CommandTree

/-- A compiled tree refuses tokens shaped like flags as flags exactly if it has a command. -/
theorem flag_shapes_refused_as_flags {source : Text} {tree : CommandTree}
    (h : compile source = .ok tree) : tree.RefusesAsFlags ↔ tree.commands ≠ [] := by
  have consistent := consistent_of_compile h
  constructor
  · intro refuses empty
    -- Two dashes are no global flag of any tree, and nothing else looks at them here.
    have top : tree.top = [] := by simp [top, commandsAt, empty]
    have failed : tree.dispatch ["--"] = .failed (.unknownCommand "--" []) := by
      rw [dispatch_of_unasked consistent.extractGlobals_dashes consistent.asksForHelp_zero rfl]
      simp [dispatchTokens, resolvePath, top]
    have spared := refuses.spared _ _ failed "--" rfl
    exact absurd spared (by decide)
  · intro populated
    refine ⟨?_, ?_, ?_⟩
    · intro argv values token rest taken unasked word shaped
      rw [dispatch_of_unasked taken unasked word, dispatchTokens,
        consistent.resolvePath_of_isFlagShaped populated shaped]
    · intro argv values tokens taken unasked word c consumed token rest hpath group hdrop shaped
      rw [dispatch_of_unasked taken unasked word]
      exact dispatchTokens_of_group hpath group hdrop shaped
    · intro argv failure failed
      exact sparesFlags_of_dispatch (consistent.top_isEmpty_eq_false populated) failed

/-- A token shaped like a flag in front, and one at a group that declares it. -/
theorem group_flag_refused_as_flag :
    ∃ tree, compile "flag log string \"\" l\ncmd user\nflag all bool \"\" a\ncmd user list" =
        .ok tree ∧ tree.commands ≠ [] ∧
      tree.dispatch ["-l", "-x", "-u", "user"] = .failed (.unknownFlag "-u" []) ∧
      tree.dispatch ["user", "-l", "-x", "-a"] = .failed (.unknownFlag "-a" ["user"]) := by
  let log : Flag := ⟨"log", some "l", .string, []⟩
  let user : PlacedCommand :=
    ⟨commandOf { DeclarationTree.bareCommand 0 none "user" 2 with children := [1] } ["user"]
      [⟨"all", some "a", .bool, []⟩], 0⟩
  let list : Command :=
    commandOf (DeclarationTree.bareCommand 1 (some 0) "list" 4) ["user", "list"] []
  let tree : CommandTree := ⟨none, [log], [], [user.toCommand, list], [0], [], []⟩
  have h : compile "flag log string \"\" l\ncmd user\nflag all bool \"\" a\ncmd user list" =
      .ok tree := by decide +kernel
  have populated : tree.commands ≠ [] := List.cons_ne_nil _ _
  have refuses := (flag_shapes_refused_as_flags h).mpr populated
  have front : tree.extractGlobals ["-l", "-x", "-u", "user"] =
      .ok ([("help", .bool false), ("log", .string "-x")], ["-u", "user"]) := by decide +kernel
  have behind : tree.extractGlobals ["user", "-l", "-x", "-a"] =
      .ok ([("help", .bool false), ("log", .string "-x")], ["user", "-a"]) := by decide +kernel
  have reached : tree.resolvePath ["user", "-a"] = .reached (some user) 1 := by decide +kernel
  refine ⟨tree, h, populated, ?_, ?_⟩
  · exact refuses.first _ _ _ _ front (by decide) (by decide) (by decide)
  · exact refuses.group _ _ _ behind (by decide) (by decide +kernel) user 1 "-a" [] reached rfl rfl
      (by decide)

/-- The tree of an empty source calls a token shaped like a flag an unknown command. -/
theorem not_refusesAsFlags_of_empty_source :
    ∃ tree, compile [] = .ok tree ∧ ¬ tree.RefusesAsFlags ∧ isFlagShaped "-x" = true ∧
      tree.dispatch ["-x"] = .failed (.unknownCommand "-x" []) := by
  let tree : CommandTree := ⟨none, [], [], [], [], [], []⟩
  have h : compile [] = .ok tree := by decide +kernel
  have failed : tree.dispatch ["-x"] = .failed (.unknownCommand "-x" []) := by decide +kernel
  refine ⟨tree, h, ?_, by decide, failed⟩
  intro refuses
  have spared := refuses.spared _ _ failed "-x" rfl
  exact absurd spared (by decide)

end CommandLanguage

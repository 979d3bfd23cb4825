import CommandLanguage.Proofs.Invocation.Call
import CommandLanguage.Proofs.Invocation.Record

/-!
# What an accepted call gives

A call that was accepted can be read back: the tokens behind its path are positional ones, one for
each argument, and uses of flags of the command, and its parameters are what these give. A call
that was refused behind its path names the command that was reached.
-/

set_option autoImplicit false

namespace CommandLanguage

open FlagValues KeyedList

/-- The tokens behind the path of a command are positional ones and uses of its flags. -/
structure Command.Reads (command : Command) (tokens positionals : List Text)
    (own : List FlagUse) : Prop where
  encodes : Encodes [] positionals own [] tokens
  plain : ∀ token ∈ positionals, isFlagShaped token = false
  given : ∀ use ∈ own, use.flag ∈ command.flags ∧ use.flag.isGivenBy use.token = true

/-- Why binding stops at a token while so many arguments are pending: it gives no flag of the
command, it gives a flag whose text is missing, or no argument is left for it. -/
inductive Command.Refuses (command : Command) : Nat → Text → List Text → Failure → Prop where
  | unknownFlag {pending : Nat} {token : Text} {rest : List Text}
      (shaped : isFlagShaped token = true)
      (none : ∀ flag ∈ command.flags, flag.isGivenBy token = false) :
      Refuses command pending token rest (.unknownFlag token command.segments)
  | missingText {pending : Nat} {token : Text} {flag : Flag} (own : flag ∈ command.flags)
      (kind : flag.kind = .string) (given : flag.isGivenBy token = true) :
      Refuses command pending token [] (.missingFlagValue flag.name command.segments)
  | surplus {token : Text} {rest : List Text} (plain : isFlagShaped token = false) :
      Refuses command 0 token rest (.surplusArgument token command.segments)

theorem Command.Refuses.path_eq {command : Command} {pending : Nat} {token : Text}
    {rest : List Text} {failure : Failure} (h : command.Refuses pending token rest failure) :
    failure.path = command.segments := by
  cases h <;> rfl

namespace Command.Reads

variable {command : Command} {tokens positionals : List Text} {own : List FlagUse}

theorem nil : command.Reads [] [] [] :=
  ⟨.nil, by simp, by simp⟩

theorem positional {token : Text} (h : command.Reads tokens positionals own)
    (plain : isFlagShaped token = false) :
    command.Reads (token :: tokens) (token :: positionals) own :=
  ⟨.positional token h.encodes, List.forall_mem_cons.mpr ⟨plain, h.plain⟩, h.given⟩

theorem flag {use : FlagUse} (h : command.Reads tokens positionals own)
    (found : command.flags.find? (·.isGivenBy use.token) = some use.flag) :
    command.Reads (use.tokens ++ tokens) positionals (use :: own) := by
  have given : use.flag.isGivenBy use.token = true := by simpa using List.find?_some found
  refine ⟨.ownFlag use h.encodes, h.plain, List.forall_mem_cons.mpr ⟨?_, h.given⟩⟩
  exact ⟨List.mem_of_find?_eq_some found, given⟩

end Command.Reads

section Binding
variable {command : Command} {binding result : Binding} {tokens : List Text} {failure : Failure}
variable {values : FlagValues} {parameters : Parameters}

/-- The first arguments that are pending are bound to the positional tokens, in order. -/
theorem exists_reads_of_bindTokens (h : command.bindTokens binding tokens = .ok result) :
    ∃ positionals own, command.Reads tokens positionals own ∧
      positionals.length ≤ binding.pending.length ∧
      result = ⟨afterUses binding.flags own,
        recordAll binding.args ((binding.pending.map (·.name)).zip positionals),
        binding.pending.drop positionals.length⟩ := by
  -- Along the scan, which takes one positional token or one use of a flag at each step.
  fun_induction Command.bindTokens command binding tokens with
  | case1 binding =>
    cases h
    exact ⟨[], [], .nil, Nat.zero_le _, by simp [recordAll, afterUses]⟩
  | case2 => cases h
  | case3 binding token _ flag found rest hk ih =>
    obtain ⟨positionals, own, reads, length_le, rfl⟩ := ih h
    have htokens : token :: rest = FlagUse.tokens ⟨flag, token, []⟩ ++ rest := by
      simp [FlagUse.tokens, hk]
    have hvalue : FlagUse.value ⟨flag, token, []⟩ = .bool true := by simp [FlagUse.value, hk]
    refine ⟨positionals, ⟨flag, token, []⟩ :: own, ?_, length_le, ?_⟩
    · rw [htokens]
      exact reads.flag found
    · rw [afterUses_cons, hvalue]
      rfl
  | case4 => cases h
  | case5 binding token _ flag found text rest hk ih =>
    obtain ⟨positionals, own, reads, length_le, rfl⟩ := ih h
    have htokens : token :: text :: rest = FlagUse.tokens ⟨flag, token, text⟩ ++ rest := by
      simp [FlagUse.tokens, hk]
    have hvalue : FlagUse.value ⟨flag, token, text⟩ = .string text := by simp [FlagUse.value, hk]
    refine ⟨positionals, ⟨flag, token, text⟩ :: own, ?_, length_le, ?_⟩
    · rw [htokens]
      exact reads.flag found
    · rw [afterUses_cons, hvalue]
      rfl
  | case6 => cases h
  | case7 binding token rest plain argument pending hpending args ih =>
    obtain ⟨positionals, own, reads, length_le, rfl⟩ := ih h
    refine ⟨token :: positionals, own, reads.positional (eq_false_of_ne_true plain), ?_, ?_⟩
    · rw [hpending]
      exact Nat.succ_le_succ length_le
    · rw [hpending]
      rfl

/-- Where binding stops, the tokens before have been read, and a positional token is refused only
when every argument has one. -/
theorem exists_refuses_of_bindTokens (h : command.bindTokens binding tokens = .error failure) :
    ∃ front token rest positionals own, tokens = front ++ token :: rest ∧
      command.Reads front positionals own ∧ positionals.length ≤ binding.pending.length ∧
      command.Refuses (binding.pending.length - positionals.length) token rest failure := by
  fun_induction Command.bindTokens command binding tokens with
  | case1 => cases h
  | case2 binding token rest shaped found =>
    cases h
    refine ⟨[], token, rest, [], [], rfl, .nil, Nat.zero_le _, .unknownFlag shaped ?_⟩
    simpa using found
  | case3 binding token _ flag found rest hk ih =>
    obtain ⟨front, stop, behind, positionals, own, rfl, reads, length_le, refused⟩ := ih h
    have htokens : token :: front = FlagUse.tokens ⟨flag, token, []⟩ ++ front := by
      simp [FlagUse.tokens, hk]
    refine ⟨token :: front, stop, behind, positionals, ⟨flag, token, []⟩ :: own, rfl, ?_, length_le,
      refused⟩
    rw [htokens]
    exact reads.flag found
  | case4 binding token _ flag found hk =>
    cases h
    have given : flag.isGivenBy token = true := by simpa using List.find?_some found
    exact ⟨[], token, [], [], [], rfl, .nil, Nat.zero_le _,
      .missingText (List.mem_of_find?_eq_some found) hk given⟩
  | case5 binding token _ flag found text rest hk ih =>
    obtain ⟨front, stop, behind, positionals, own, rfl, reads, length_le, refused⟩ := ih h
    have htokens : token :: text :: front = FlagUse.tokens ⟨flag, token, text⟩ ++ front := by
      simp [FlagUse.tokens, hk]
    refine ⟨token :: text :: front, stop, behind, positionals, ⟨flag, token, text⟩ :: own, rfl, ?_,
      length_le, refused⟩
    rw [htokens]
    exact reads.flag found
  | case6 binding token rest plain hpending =>
    cases h
    refine ⟨[], token, rest, [], [], rfl, .nil, Nat.zero_le _, ?_⟩
    rw [hpending]
    exact .surplus (eq_false_of_ne_true plain)
  | case7 binding token rest plain argument pending hpending args ih =>
    obtain ⟨front, stop, behind, positionals, own, rfl, reads, length_le, refused⟩ := ih h
    refine ⟨token :: front, stop, behind, token :: positionals, own, rfl,
      reads.positional (eq_false_of_ne_true plain), ?_, ?_⟩
    · rw [hpending]
      exact Nat.succ_le_succ length_le
    · rw [hpending, List.length_cons, List.length_cons, Nat.succ_sub_succ]
      exact refused

theorem path_of_bindTokens (h : command.bindTokens binding tokens = .error failure) :
    failure.path = command.segments := by
  obtain ⟨_, _, _, _, _, _, _, _, refused⟩ := exists_refuses_of_bindTokens h
  exact refused.path_eq

theorem exists_reads_of_bind (h : command.bind tokens values = .ok parameters) :
    ∃ positionals own, command.Reads tokens positionals own ∧
      positionals.length = command.args.length ∧
      parameters = ⟨afterUses (FlagValues.zero command.flags) own,
        recordAll [] ((command.args.map (·.name)).zip positionals), values⟩ := by
  obtain ⟨result, hresult, h⟩ := Statement.exists_of_bind_eq_ok h
  obtain ⟨positionals, own, reads, length_le, rfl⟩ := exists_reads_of_bindTokens hresult
  dsimp only at h length_le
  split at h
  · next hdrop =>
    cases h
    have := List.drop_eq_nil_iff.mp hdrop
    exact ⟨positionals, own, reads, by omega, rfl⟩
  · cases h

/-- Binding fails at a token, or behind all of them for want of a token: the first argument without
one is then missing. -/
theorem bind_eq_error (h : command.bind tokens values = .error failure) :
    command.bindTokens ⟨FlagValues.zero command.flags, [], command.args⟩ tokens = .error failure ∨
      ∃ positionals own, command.Reads tokens positionals own ∧
        ∃ hk : positionals.length < command.args.length,
          failure = .missingArgument command.args[positionals.length].name command.segments := by
  unfold Command.bind at h
  cases hb : command.bindTokens ⟨FlagValues.zero command.flags, [], command.args⟩ tokens with
  | error e =>
    rw [hb] at h
    cases h
    exact .inl rfl
  | ok result =>
    obtain ⟨positionals, own, reads, _, rfl⟩ := exists_reads_of_bindTokens hb
    rw [hb] at h
    dsimp only [bind, Except.bind] at h
    split at h
    · cases h
    · next argument _ pending =>
      cases h
      have hk : positionals.length < command.args.length := by
        have := congrArg List.length pending
        simp only [List.length_drop, List.length_cons] at this
        omega
      rw [List.drop_eq_getElem_cons hk] at pending
      rw [← (List.cons.inj pending).1]
      exact .inr ⟨positionals, own, reads, hk, rfl⟩

theorem path_of_bind (h : command.bind tokens values = .error failure) :
    failure.path = command.segments := by
  rcases bind_eq_error h with hb | ⟨_, _, _, _, rfl⟩
  · exact path_of_bindTokens hb
  · rfl

end Binding

namespace CommandTree

variable {tree : CommandTree} {argv tokens : List Text} {values : FlagValues}

theorem dispatch_of_extractGlobals (taken : tree.extractGlobals argv = .ok (values, tokens))
    (word : tree.asksByWord tokens = false) :
    tree.dispatch argv =
      if values.asksForHelp then .help (tree.helpScope (tree.resolvePath tokens).command tokens) values
      else tree.dispatchTokens tokens values := by
  simp [dispatch, taken, word]

/-- A call of a leaf fails where its tokens are bound, and a call of a group at a token behind the
path. -/
theorem callCommand_eq_failed {c : PlacedCommand} {failure : Failure}
    (h : callCommand c tokens values = .failed failure) :
    c.isLeaf = true ∧ c.bind tokens values = .error failure ∨
      c.isLeaf = false ∧ ∃ token rest, tokens = token :: rest ∧
        (isFlagShaped token = true ∧ failure = .unknownFlag token c.segments ∨
          isFlagShaped token = false ∧ failure = .unknownCommand token c.segments) := by
  unfold callCommand at h
  split at h
  · next leaf =>
    split at h
    · cases h
    · next hbind =>
      cases h
      exact .inl ⟨leaf, hbind⟩
  · next group =>
    split at h
    · cases h
    · next token rest =>
      refine .inr ⟨eq_false_of_ne_true group, token, rest, rfl, ?_⟩
      split at h
      · next shaped =>
        cases h
        exact .inl ⟨shaped, rfl⟩
      · next plain =>
        cases h
        exact .inr ⟨eq_false_of_ne_true plain, rfl⟩

/-- Without help, a call fails on its path, at its command, or because nothing is reached. -/
theorem dispatchTokens_eq_failed {failure : Failure}
    (h : tree.dispatchTokens tokens values = .failed failure) :
    (∃ reached, tree.resolvePath tokens = .failed reached failure) ∨
      (∃ c consumed, tree.resolvePath tokens = .reached (some c) consumed ∧
        callCommand c (tokens.drop consumed) values = .failed failure) ∨
      ∃ consumed token rest, tree.resolvePath tokens = .reached none consumed ∧
        tokens = token :: rest ∧ failure = .unknownCommand token [] := by
  unfold dispatchTokens at h
  split at h
  · next hpath =>
    cases h
    exact .inl ⟨_, hpath⟩
  · next consumed hpath =>
    split at h
    · cases h
    · next token rest =>
      cases h
      exact .inr (.inr ⟨consumed, token, rest, hpath, rfl, rfl⟩)
  · next c consumed hpath => exact .inr (.inl ⟨c, consumed, hpath, h⟩)

theorem dispatch_eq_failed {failure : Failure} (h : tree.dispatch argv = .failed failure) :
    tree.extractGlobals argv = .error failure ∨
      ∃ values tokens, tree.extractGlobals argv = .ok (values, tokens) ∧
        tree.dispatchTokens tokens values = .failed failure := by
  unfold dispatch at h
  split at h
  · next taken =>
    cases h
    exact .inl taken
  · next values tokens taken =>
    dsimp only at h
    split at h
    · cases h
    · next unasked =>
      have word : tree.asksByWord tokens = false := by
        cases hw : tree.asksByWord tokens with
        | false => rfl
        | true => simp [hw] at unasked
      rw [word] at h
      exact .inr ⟨values, tokens, taken, h⟩

/-- A call is what the three passes make of it, when no help is asked for. -/
theorem exists_bind_of_dispatch {c : PlacedCommand} {parameters : Parameters}
    (h : tree.dispatch argv = .command c parameters) :
    ∃ values tokens consumed, tree.extractGlobals argv = .ok (values, tokens) ∧
      tree.resolvePath tokens = .reached (some c) consumed ∧ c.isLeaf = true ∧
      c.bind (tokens.drop consumed) values = .ok parameters := by
  unfold dispatch at h
  split at h
  · cases h
  · next values tokens taken =>
    dsimp only at h
    split at h
    · cases h
    · next hask =>
      have word : tree.asksByWord tokens = false := by
        cases hw : tree.asksByWord tokens with
        | false => rfl
        | true => simp [hw] at hask
      rw [word] at h
      refine ⟨values, tokens, ?_⟩
      unfold dispatchTokens at h
      split at h
      · cases h
      · split at h <;> cases h
      · next reached consumed hpath =>
        unfold callCommand at h
        split at h
        · next hleaf =>
          split at h
          · next hbind =>
            cases h
            exact ⟨consumed, taken, hpath, hleaf, hbind⟩
          · cases h
        · split at h
          · cases h
          · split at h <;> cases h

/-- A call is read back into uses of global flags, the path of a command, a positional token for
each argument of the command and uses of its flags; these give its parameters. -/
theorem Consistent.exists_reads_of_dispatch (consistent : tree.Consistent) {c : PlacedCommand}
    {parameters : Parameters} (h : tree.dispatch argv = .command c parameters) :
    ∃ tokens consumed positionals own globals,
      tree.extractGlobals argv =
        .ok (table tree.globalFlags (FlagUse.lastValue globals), tokens) ∧
      tree.resolvePath tokens = .reached (some c) consumed ∧ tree.Holds c ∧ c.isLeaf = true ∧
      c.Reads (tokens.drop consumed) positionals own ∧ positionals.length = c.args.length ∧
      parameters = ⟨table c.flags (FlagUse.lastValue own),
        recordAll [] ((c.args.map (·.name)).zip positionals),
        table tree.globalFlags (FlagUse.lastValue globals)⟩ := by
  obtain ⟨values, tokens, consumed, taken, hpath, leaf, hbind⟩ := exists_bind_of_dispatch h
  obtain ⟨globals, known, rfl⟩ := exists_uses_of_takeGlobals taken
  obtain ⟨positionals, own, reads, length_eq, rfl⟩ := exists_reads_of_bind hbind
  obtain ⟨_, _, hline, _, _⟩ := (consistent.follows_of_resolvePath hpath).denoted
  have unshared := consistent.own_unshared hline.holds.mem
  have hglobals := afterUses_zero consistent.globalFlags_unshared.names known
  have hown := afterUses_zero unshared.names fun use hu => (reads.given use hu).1
  rw [hglobals] at taken ⊢
  rw [hown]
  exact ⟨tokens, consumed, positionals, own, globals, taken, hpath, hline.holds, leaf, reads,
    length_eq, rfl⟩

end CommandTree

end CommandLanguage

import CommandLanguage.Proofs.Invocation.Call

/-!
# Flag tokens have one meaning

Long and short spellings share the tokens of a call. A token that spells a flag spells no other
flag of the scope, looks like a flag, and is the name of no command, so the first flag found for a
token is the only one.
-/

set_option autoImplicit false

namespace CommandLanguage

namespace CommandTree

variable {flags : List Flag} {flag : Flag} {token : Text}

theorem Unshared.countP_le_one (unshared : Unshared flags)
    (named : ∀ flag ∈ flags, NamedFlag flag) (token : Text) :
    flags.countP (·.isGivenBy token) ≤ 1 := by
  have nodup : (flags.filter (·.isGivenBy token)).Nodup := unshared.names.of_map.filter _
  have same (f : Flag) (hf : f ∈ flags.filter (·.isGivenBy token))
      (g : Flag) (hg : g ∈ flags.filter (·.isGivenBy token)) : f = g := by
    obtain ⟨hf, givenf⟩ := List.mem_filter.mp hf
    obtain ⟨hg, giveng⟩ := List.mem_filter.mp hg
    exact unshared.eq_of_isGivenBy named hf hg givenf giveng
  rw [List.countP_eq_length_filter]
  cases h : flags.filter (·.isGivenBy token) with
  | nil => exact Nat.zero_le 1
  | cons f others =>
    rw [h] at nodup same
    have hothers : others = [] := by
      apply List.eq_nil_iff_forall_not_mem.mpr
      intro g hg
      have hfg := same f List.mem_cons_self g (List.mem_cons_of_mem f hg)
      exact (List.nodup_cons.mp nodup).1 (hfg ▸ hg)
    rw [hothers]
    exact Nat.le_refl 1

/-- A flag that some call of the tree accepts, global or of a command. -/
def Knows (tree : CommandTree) (flag : Flag) : Prop :=
  flag ∈ tree.globalFlags ∨ ∃ c ∈ tree.commands, flag ∈ c.flags

namespace Consistent

variable {tree : CommandTree} (consistent : tree.Consistent)
include consistent

theorem named_of_knows (known : tree.Knows flag) : NamedFlag flag := by
  rcases known with hf | ⟨c, hc, hf⟩
  · exact consistent.globalFlags_named flag hf
  · exact consistent.flags_named c hc flag hf

theorem countP_scope_le_one {c : Command} (hc : c ∈ tree.commands) (token : Text) :
    (tree.globalFlags ++ c.flags).countP (·.isGivenBy token) ≤ 1 :=
  (consistent.flags_unshared c hc).countP_le_one (consistent.scope_named hc) token

theorem find?_globalFlags_of_own {c : Command} (hc : c ∈ tree.commands) (hf : flag ∈ c.flags)
    (given : flag.isGivenBy token = true) :
    tree.globalFlags.find? (·.isGivenBy token) = none := by
  obtain ⟨i, hi⟩ := List.getElem?_of_mem hc
  have held : tree.Holds ⟨c, i⟩ := hi
  have none := consistent.givesNone_of_own held hf given token List.mem_cons_self
  simpa [List.find?_eq_none] using none

theorem name_ne_of_isGivenBy (known : tree.Knows flag) (given : flag.isGivenBy token = true)
    {c : Command} (hc : c ∈ tree.commands) : c.name ≠ token := by
  intro he
  have shaped := Flag.isFlagShaped_of_isGivenBy (consistent.named_of_knows known) given
  rw [← he, Flag.isFlagShaped_eq_false (consistent.named c hc)] at shaped
  cases shaped

end Consistent

end CommandTree

open CommandTree

/-- In every compiled tree, a token gives at most one of the global flags and the flags of a command.
A token that gives a flag is shaped like one and names no command, no command's name is shaped like
a flag, and looking a token up finds the one flag that it gives, among the flags of a command or
among the global ones. -/
theorem flag_tokens_unambiguous {source : Text} {tree : CommandTree}
    (h : compile source = .ok tree) :
    (∀ c ∈ tree.commands, ∀ token,
      (tree.globalFlags ++ c.flags).countP (·.isGivenBy token) ≤ 1) ∧
    (∀ flag, tree.Knows flag → ∀ token, flag.isGivenBy token = true →
      isFlagShaped token = true ∧ ∀ c ∈ tree.commands, c.name ≠ token) ∧
    (∀ c ∈ tree.commands, isFlagShaped c.name = false) ∧
    (∀ flag ∈ tree.globalFlags, ∀ token, flag.isGivenBy token = true →
      tree.globalFlags.find? (·.isGivenBy token) = some flag) ∧
    ∀ c ∈ tree.commands, ∀ flag ∈ c.flags, ∀ token, flag.isGivenBy token = true →
      tree.globalFlags.find? (·.isGivenBy token) = none ∧
        c.flags.find? (·.isGivenBy token) = some flag := by
  have consistent := consistent_of_compile h
  refine ⟨?_, ?_, ?_, ?_, ?_⟩
  · intro c hc token
    exact consistent.countP_scope_le_one hc token
  · intro flag known token given
    constructor
    · exact Flag.isFlagShaped_of_isGivenBy (consistent.named_of_knows known) given
    · intro c hc
      exact consistent.name_ne_of_isGivenBy known given hc
  · intro c hc
    exact Flag.isFlagShaped_eq_false (consistent.named c hc)
  · intro flag hf token given
    exact consistent.find?_globalFlags hf given
  · intro c hc flag hf token given
    exact ⟨consistent.find?_globalFlags_of_own hc hf given, consistent.find?_flags hc hf given⟩

/-- Names that are also short aliases of other flags, in one scope and across scopes. -/
theorem crossed_spellings_unambiguous :
    ∃ tree c, compile
        "flag h bool \"\" help\ncmd help\nflag x string \"\" l\nflag l string \"\" x" = .ok tree ∧
      tree.commands = [c] ∧ (∀ token ∈ ["-h", "--h", "-help", "--help", "-l", "--l", "-x", "--x"],
        (tree.globalFlags ++ c.flags).countP (·.isGivenBy token) ≤ 1 ∧ c.name ≠ token) ∧
      tree.globalFlags.find? (·.isGivenBy "-h") = some Flag.help ∧
      c.flags.find? (·.isGivenBy "--l") = some ⟨"l", some "x", .string, []⟩ := by
  let h' : Flag := ⟨"h", some "help", .bool, []⟩
  let x : Flag := ⟨"x", some "l", .string, []⟩
  let l : Flag := ⟨"l", some "x", .string, []⟩
  let c : Command := commandOf (DeclarationTree.bareCommand 0 none "help" 2) ["help"] [x, l]
  let tree : CommandTree := ⟨none, [h'], [], [c], [0], [], []⟩
  have h : compile
      "flag h bool \"\" help\ncmd help\nflag x string \"\" l\nflag l string \"\" x" = .ok tree := by
    decide +kernel
  obtain ⟨atMostOne, shaped, _, foundGlobal, foundOwn⟩ := flag_tokens_unambiguous h
  have hc : c ∈ tree.commands := List.mem_cons_self
  have known (f : Flag) (hf : f ∈ [Flag.help, h', x, l]) : tree.Knows f := by
    simp only [List.mem_cons, List.not_mem_nil, or_false] at hf
    rcases hf with rfl | rfl | rfl | rfl
    · exact .inl (by decide)
    · exact .inl (by decide)
    · exact .inr ⟨c, hc, by decide⟩
    · exact .inr ⟨c, hc, by decide⟩
  refine ⟨tree, c, h, rfl, ?_, ?_, ?_⟩
  · intro token ht
    have spelled : ∃ f ∈ [Flag.help, h', x, l], f.isGivenBy token = true := by
      revert token
      decide +kernel
    obtain ⟨f, hf, given⟩ := spelled
    exact ⟨atMostOne c hc token, (shaped f (known f hf) token given).2 c hc⟩
  · exact foundGlobal Flag.help List.mem_cons_self "-h" (by decide)
  · exact (foundOwn c hc l (by decide) "--l" (by decide)).2

end CommandLanguage

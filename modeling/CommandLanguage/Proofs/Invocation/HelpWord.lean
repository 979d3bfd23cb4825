import CommandLanguage.Proofs.Invocation.Help

/-!
# The help word and the help flag

The word `help` in front of a vector stays among its tokens and is dropped again when they are
read; the help flag is taken out and changes one global value. Either way the same tokens are left,
so the same help is shown.
-/

set_option autoImplicit false

namespace CommandLanguage

open FlagValues KeyedList

namespace CommandTree

variable {tree : CommandTree} {a b argv tokens : List Text} {values : FlagValues}
variable {failure : Failure} {token : Text}

theorem dispatch_of_extractGlobals_eq_error (failed : tree.extractGlobals argv = .error failure) :
    tree.dispatch argv = .failed failure := by
  rw [dispatch, failed]

/-- The help word shows what the tokens behind it reach. -/
theorem dispatch_of_asksByWord (taken : tree.extractGlobals argv = .ok (values, helpWord :: tokens))
    (word : tree.asksByWord (helpWord :: tokens) = true) :
    tree.dispatch argv = .help (tree.helpScope (tree.resolvePath tokens).command tokens) values := by
  simp [dispatch, taken, word]

theorem asksByWord_of_head?_ne (h : tokens.head? ≠ some helpWord) :
    tree.asksByWord tokens = false := by
  simp [asksByWord, h]

theorem asksByWord_helpWord (free : ∀ c ∈ tree.top, c.name ≠ helpWord) :
    tree.asksByWord (helpWord :: tokens) = true := by
  simpa [asksByWord] using free

namespace Consistent

variable (consistent : tree.Consistent)
include consistent

/-- The help word is no flag: it stays in front of the tokens that are left. -/
theorem extractGlobals_helpWord (argv : List Text) :
    tree.extractGlobals (helpWord :: argv) =
      (tree.extractGlobals argv).map fun taken => (taken.1, helpWord :: taken.2) :=
  takeGlobals_other (Flag.find?_eq_none_of_plain consistent.globalFlags_named rfl) _ argv

end Consistent

end CommandTree

open CommandTree

/-- In every compiled tree without a command `help` at the top, the word `help` in front of a vector
and the help flag at any place where a flag may stand ask for the same help. If the vector lacks the
text of a global flag at its end, both are refused for that; otherwise both show what the tokens of
the vector reach, with the same values of all global flags but the help flag. -/
theorem help_by_word_or_flag {source : Text} {tree : CommandTree} (h : compile source = .ok tree)
    (free : ∀ c ∈ tree.top, c.name ≠ helpWord) {a b : List Text} {before : FlagValues × List Text}
    (ha : tree.extractGlobals a = .ok before)
    (other : ∀ values tokens, tree.extractGlobals (a ++ b) = .ok (values, tokens) →
      tokens.head? ≠ some helpWord)
    {token : Text} (given : Flag.help.isGivenBy token = true) :
    (∃ flag ∈ tree.globalFlags, flag.kind = .string ∧
      tree.dispatch (helpWord :: (a ++ b)) = .failed (.missingFlagValue flag.name []) ∧
      tree.dispatch (a ++ [token] ++ b) = .failed (.missingFlagValue flag.name [])) ∨
    ∃ tokens scope byWord byFlag, tree.extractGlobals (a ++ b) = .ok (byWord, tokens) ∧
      scope.Covers tree (tree.dispatchTokens tokens byWord) ∧
      tree.dispatch (helpWord :: (a ++ b)) = .help scope byWord ∧
      tree.dispatch (a ++ [token] ++ b) = .help scope byFlag ∧
      ∀ name, name ≠ Flag.help.name → get? byFlag name = get? byWord name := by
  have consistent := consistent_of_compile h
  have behindWord := consistent.extractGlobals_helpWord (a ++ b)
  have withFlag := consistent.extractGlobals_insert_help (b := b) ha given
  cases left : tree.extractGlobals (a ++ b) with
  | error failure =>
    rw [left] at behindWord withFlag
    obtain ⟨flag, hf, kind, rfl, _⟩ := takeGlobals_eq_error left
    exact .inl ⟨flag, hf, kind, dispatch_of_extractGlobals_eq_error behindWord,
      dispatch_of_extractGlobals_eq_error withFlag⟩
  | ok taken =>
    obtain ⟨values, tokens⟩ := taken
    rw [left] at behindWord withFlag
    refine .inr ⟨tokens, tree.helpScope (tree.resolvePath tokens).command tokens, values,
      assign values Flag.help.name (.bool true), rfl,
      consistent.covers_dispatchTokens tokens values, ?_, ?_, ?_⟩
    · exact dispatch_of_asksByWord behindWord (asksByWord_helpWord free)
    · exact dispatch_of_asksForHelp withFlag (asksByWord_of_head?_ne (other values tokens left))
        asksForHelp_assign
    · intro name hn
      rw [get?_assign, if_neg hn]

/-- Help on a topic, asked for in front of a global flag and behind its text. -/
theorem topic_by_word_or_flag :
    ∃ tree byFlag, compile "flag log string \"\" l\ncmd user add\ntopic auth \"\"" = .ok tree ∧
      tree.dispatch ["help", "-l", "x", "au"] =
        .help (.topic 0) [("help", .bool false), ("log", .string "x")] ∧
      tree.dispatch ["-l", "x", "-h", "au"] = .help (.topic 0) byFlag ∧
      get? byFlag "log" = some (.string "x") := by
  let user : Command :=
    commandOf { DeclarationTree.bareCommand 0 none "user" 2 with children := [1] } ["user"] []
  let add : Command := commandOf (DeclarationTree.bareCommand 1 (some 0) "add" 2) ["user", "add"] []
  let tree : CommandTree :=
    ⟨none, [⟨"log", some "l", .string, []⟩], [], [user, add], [0], [⟨"auth", [], none⟩], []⟩
  have h : compile "flag log string \"\" l\ncmd user add\ntopic auth \"\"" = .ok tree := by
    decide +kernel
  have shown : tree.dispatch ["help", "-l", "x", "au"] =
      .help (.topic 0) [("help", .bool false), ("log", .string "x")] := by decide +kernel
  have before : tree.extractGlobals ["-l", "x"] =
      .ok ([("help", .bool false), ("log", .string "x")], []) := by decide +kernel
  have left : tree.extractGlobals ["-l", "x", "au"] =
      .ok ([("help", .bool false), ("log", .string "x")], ["au"]) := by decide +kernel
  have other : ∀ values tokens, tree.extractGlobals (["-l", "x"] ++ ["au"]) = .ok (values, tokens) →
      tokens.head? ≠ some helpWord := by
    intro values tokens taken
    cases left.symm.trans taken
    decide
  rcases help_by_word_or_flag h (by decide) before other (show Flag.help.isGivenBy "-h" from rfl) with
    ⟨flag, _, _, refused, _⟩ | ⟨_, scope, byWord, byFlag, _, _, hword, hflag, agree⟩
  · cases shown.symm.trans refused
  · cases shown.symm.trans hword
    exact ⟨tree, byFlag, h, shown, hflag, agree "log" (by decide)⟩

end CommandLanguage

import CommandLanguage.Proofs.Invocation.FlagShape
import CommandLanguage.Proofs.Invocation.Help
import CommandLanguage.Proofs.Invocation.Positional

/-!
# Grounds of a refusal

A call that is refused is told why: a token that names no command or gives no flag, several commands
that a token names, a flag without its text, an argument too many or too few. What it is told is true
of the tree and of the tokens that are left when the global flags are taken out.
-/

set_option autoImplicit false

namespace CommandLanguage

open PlacedCommand

namespace CommandTree

/-- The command stands directly below the command of a path, or at the top if the path is empty. -/
inductive StandsBelow (tree : CommandTree) : List Text → PlacedCommand → Prop where
  | top {c : PlacedCommand} (held : tree.Holds c) (root : c.parent = none) : StandsBelow tree [] c
  | child {c p : PlacedCommand} (held : tree.Holds c) (above : tree.Holds p)
      (parent : c.parent = some p.position) : StandsBelow tree p.segments c

/-- The path leads to the command, and nothing stands below it. -/
structure IsLeafAt (tree : CommandTree) (path : List Text) (c : PlacedCommand) : Prop where
  held : tree.Holds c
  leaf : c.isLeaf = true
  segments_eq : c.segments = path

/-- The tokens lead to the command, and some of them stand behind its path. -/
def LeavesBehind (tree : CommandTree) (tokens : List Text) (c : PlacedCommand)
    (behind : List Text) : Prop :=
  ∃ consumed, tree.resolvePath tokens = .reached (some c) consumed ∧ behind = tokens.drop consumed

/-- The candidates for a token are several: siblings whose names it begins and none of which it
names, or, when it begins no name at the top, commands further down, each by its path. -/
inductive Ambiguous (tree : CommandTree) (token : Text) : List Text → List Text → Prop where
  | siblings {path : List Text} {found : List PlacedCommand} (several : 2 ≤ found.length)
      (distinct : found.Nodup) (mem : ∀ c, c ∈ found ↔ tree.StandsBelow path c ∧ token <+: c.name)
      (inexact : ∀ c, tree.StandsBelow path c → c.name ≠ token) :
      Ambiguous tree token (found.map (·.name)) path
  | omitted {found : List PlacedCommand} (several : 2 ≤ found.length) (distinct : found.Nodup)
      (mem : ∀ c, c ∈ found ↔ tree.IsNamedBelow token c)
      (absent : ∀ c, tree.StandsBelow [] c → ¬ token <+: c.name) :
      Ambiguous tree token (found.map (·.path)) []

end CommandTree

/-- What a failure says is true of the tree and of the tokens without global flags. -/
def Failure.IsTrueOf (tree : CommandTree) (tokens : List Text) : Failure → Prop
  | .unknownCommand token path =>
    token ∈ tokens ∧
      ∀ c, tree.Holds c → path = [] ∨ tree.StandsBelow path c → ¬ c.IsBegunBy token
  | .ambiguousCommand token candidates path =>
    token ∈ tokens ∧ token ≠ [] ∧ tree.Ambiguous token candidates path
  | .unknownFlag token path =>
    token ∈ tokens ∧ isFlagShaped token = true ∧
      (∀ flag ∈ tree.globalFlags, flag.isGivenBy token = false) ∧
      ∀ c, tree.IsLeafAt path c → ∀ flag ∈ c.flags, flag.isGivenBy token = false
  | .missingFlagValue name path =>
    path ≠ [] ∧ ∃ c flag token, tree.IsLeafAt path c ∧ flag ∈ c.flags ∧ flag.name = name ∧
      flag.kind = .string ∧ tokens.getLast? = some token ∧ flag.isGivenBy token = true
  | .missingArgument argument path =>
    ∃ c behind, tree.IsLeafAt path c ∧ tree.LeavesBehind tokens c behind ∧
      ∃ hk : (c.positionals behind).length < c.args.length,
        c.args[(c.positionals behind).length].name = argument
  | .surplusArgument token path =>
    ∃ c behind, tree.IsLeafAt path c ∧ tree.LeavesBehind tokens c behind ∧
      (c.positionals behind)[c.args.length]? = some token ∧ isFlagShaped token = false

section Globals
variable {flags : List Flag} {values found : FlagValues} {tokens left : List Text}

theorem givesNone_of_takeGlobals (h : takeGlobals flags values tokens = .ok (found, left)) :
    GivesNone flags left := by
  fun_induction takeGlobals flags values tokens generalizing left with
  | case1 =>
    cases h
    simp [GivesNone]
  | case2 values token rest hfind ih =>
    obtain ⟨taken, hrest, h⟩ := Statement.exists_of_bind_eq_ok h
    cases h
    have none : ∀ flag ∈ flags, flag.isGivenBy token = false := by simpa using hfind
    exact List.forall_mem_cons.mpr ⟨none, ih hrest⟩
  | case3 _ _ _ _ _ _ ih => exact ih h
  | case4 => cases h
  | case5 _ _ _ _ _ _ _ ih => exact ih h

end Globals

namespace PlacedCommand

variable {siblings : List PlacedCommand} {token : Text}

/-- A token that matches several siblings begins their names, and is the name of none. -/
theorem matching_of_several (none : matching siblings token ≠ [])
    (more : ∀ c, matching siblings token ≠ [c]) :
    token ≠ [] ∧ (∀ s ∈ siblings, s.name ≠ token) ∧
      matching siblings token = siblings.filter fun c => token.isPrefixOf c.name := by
  cases hfind : siblings.find? (·.name = token) with
  | some exact => exact absurd (by rw [matching, hfind]) (more exact)
  | none =>
    have nonempty : token ≠ [] := by
      intro empty
      exact none (by rw [matching, hfind]; exact if_pos empty)
    refine ⟨nonempty, fun s hs he => ne_name_of_find?_eq_none hfind s hs he.symm, ?_⟩
    rw [matching, hfind]
    exact if_neg nonempty

end PlacedCommand

theorem two_le_length {α : Type} {things : List α} (none : things ≠ [])
    (more : ∀ thing, things ≠ [thing]) : 2 ≤ things.length := by
  match things with
  | [] => exact absurd rfl none
  | [thing] => exact absurd rfl (more thing)
  | _ :: _ :: _ => exact Nat.le_add_left 2 _

namespace CommandTree

variable {tree : CommandTree} {c d : PlacedCommand} {token : Text} {tokens path : List Text}
variable {failure : Failure} {values : FlagValues}

namespace Consistent

variable (consistent : tree.Consistent)
include consistent

theorem standsBelow_nil_iff : tree.StandsBelow [] c ↔ c ∈ tree.level none := by
  rw [consistent.mem_level]
  constructor
  · intro h
    generalize hp : ([] : List Text) = path at h
    cases h with
    | top held root => exact ⟨held, root⟩
    | child _ above _ => exact absurd hp.symm (consistent.segments_ne_nil above)
  · rintro ⟨held, root⟩
    exact .top held root

theorem standsBelow_segments_iff (held : tree.Holds d) :
    tree.StandsBelow d.segments c ↔ c ∈ tree.level (some d.position) := by
  rw [consistent.mem_level]
  constructor
  · intro h
    generalize hp : d.segments = path at h
    cases h with
    | top _ _ => exact absurd hp (consistent.segments_ne_nil held)
    | child inner above parent =>
      rw [consistent.eq_of_segments_eq held above hp]
      exact ⟨inner, parent⟩
  · rintro ⟨inner, parent⟩
    exact .child inner held parent

theorem eq_of_isLeafAt (held : tree.Holds c) (h : tree.IsLeafAt c.segments d) : d = c :=
  consistent.eq_of_segments_eq h.held held h.segments_eq

theorem ambiguous_of_matching {parent : Option Nat}
    (below : ∀ c, tree.StandsBelow path c ↔ c ∈ tree.level parent)
    (none : matching (tree.level parent) token ≠ [])
    (more : ∀ c, matching (tree.level parent) token ≠ [c]) :
    token ≠ [] ∧
      tree.Ambiguous token ((matching (tree.level parent) token).map (·.name)) path := by
  obtain ⟨nonempty, inexact, all⟩ := matching_of_several none more
  have several := two_le_length none more
  have distinct := (consistent.nodup_level parent).sublist (matching_sublist _ token)
  refine ⟨nonempty, .siblings several distinct ?_ ?_⟩
  · intro c
    rw [all, List.mem_filter, List.isPrefixOf_iff_prefix, below]
  · intro c hc
    exact inexact c ((below c).mp hc)

/-- Going down fails at a token that names several children of the command reached. -/
theorem ambiguous_of_descend (held : tree.Holds c) {consumed : Nat}
    {reached : Option PlacedCommand}
    (h : tree.descend c consumed tokens = .failed reached failure) :
    ∃ token candidates d, tree.Holds d ∧
      failure = .ambiguousCommand token candidates d.segments ∧ token ∈ tokens ∧ token ≠ [] ∧
      tree.Ambiguous token candidates d.segments := by
  induction tokens generalizing c consumed with
  | nil => cases h
  | cons token rest ih =>
    unfold descend at h
    rw [held.below_eq_level] at h
    split at h
    · cases h
    · next child hm =>
      obtain ⟨inner, _, _⟩ := consistent.matching_level_eq_singleton_iff.mp hm
      obtain ⟨stop, candidates, d, hd, he, hmem, hrest⟩ := ih inner h
      exact ⟨stop, candidates, d, hd, he, List.mem_cons_of_mem token hmem, hrest⟩
    · next none more =>
      cases h
      obtain ⟨nonempty, ambiguous⟩ := consistent.ambiguous_of_matching
        (fun _ => consistent.standsBelow_segments_iff held) none more
      exact ⟨token, _, c, held, rfl, List.mem_cons_self, nonempty, ambiguous⟩

theorem findOmitted_nil : tree.findOmitted [] = [] := by
  have none : (tree.commands.flatMap fun parent => matching (tree.below parent) []) = [] := by
    refine List.flatMap_eq_nil_iff.mpr fun parent _ => matching_eq_nil_iff.mpr fun s hs => ?_
    rintro (he | ⟨hne, _⟩)
    · exact consistent.name_ne_nil (mem_commandsAt.mp hs).2 he.symm
    · exact hne rfl
  rw [findOmitted, none]
  exact List.mergeSort_nil

theorem not_isBegunBy_of_findOmitted (top : matching (tree.level none) token = [])
    (omitted : tree.findOmitted token = []) (held : tree.Holds c) : ¬ c.IsBegunBy token := by
  cases hp : c.parent with
  | none => exact consistent.matching_level_eq_nil_iff.mp top c held hp
  | some p =>
    have child : Node.IsChild tree.nodes c.position p := ⟨_, held.node, hp⟩
    have hlt := Nat.lt_trans (consistent.forest.parent_lt child) child.lt_length
    obtain ⟨parent, above, rfl, _⟩ := exists_holds (List.getElem?_eq_getElem hlt)
    have all : (tree.commands.flatMap fun parent => matching (tree.below parent) token) = [] := by
      have perm := List.mergeSort_perm (tree.commands.flatMap fun parent =>
        matching (tree.below parent) token) fun a b => Text.precedesOrEquals a.path b.path
      exact (perm.symm.trans (List.Perm.of_eq omitted)).eq_nil
    have none := List.flatMap_eq_nil_iff.mp all _ above.mem
    rw [above.below_eq_level] at none
    exact consistent.matching_level_eq_nil_iff.mp none c held hp

theorem ambiguous_of_omitted (absent : matching (tree.level none) token = [])
    (none : tree.findOmitted token ≠ []) (more : ∀ c, tree.findOmitted token ≠ [c]) :
    token ≠ [] ∧ tree.Ambiguous token ((tree.findOmitted token).map (·.path)) [] := by
  have nonempty : token ≠ [] := by
    rintro rfl
    exact none consistent.findOmitted_nil
  refine ⟨nonempty, .omitted (two_le_length none more) ?_
    (fun c => consistent.mem_findOmitted nonempty) ?_⟩
  · exact (List.mergeSort_perm _ _).nodup_iff.mpr (consistent.nodup_findOmitted_unsorted token)
  · intro c hc hp
    obtain ⟨held, root⟩ := consistent.mem_level.mp (consistent.standsBelow_nil_iff.mp hc)
    exact consistent.matching_level_eq_nil_iff.mp absent c held root (.inr ⟨nonempty, hp⟩)

theorem ambiguous_of_resolvePath {candidates : List Text} {reached : Option PlacedCommand}
    (h : tree.resolvePath tokens = .failed reached (.ambiguousCommand token candidates path)) :
    (path = [] ∨ ∃ c, tree.Holds c ∧ c.segments = path) ∧ token ∈ tokens ∧ token ≠ [] ∧
      tree.Ambiguous token candidates path := by
  have followed {c : PlacedCommand} {first : Text} {rest : List Text} (held : tree.Holds c)
      (hd : tree.descend c 1 rest = .failed reached (.ambiguousCommand token candidates path)) :
      (path = [] ∨ ∃ c, tree.Holds c ∧ c.segments = path) ∧ token ∈ first :: rest ∧ token ≠ [] ∧
        tree.Ambiguous token candidates path := by
    obtain ⟨_, _, d, above, he, hmem, ambiguous⟩ := consistent.ambiguous_of_descend held hd
    cases he
    exact ⟨.inr ⟨d, above, rfl⟩, List.mem_cons_of_mem first hmem, ambiguous⟩
  unfold resolvePath at h
  rw [top_eq_level] at h
  split at h
  · cases h
  · next first rest =>
    split at h
    · cases h
    · split at h
      · next absent =>
        unfold descendOmitted at h
        split at h
        · cases h
        · split at h
          · cases h
          · next found => exact followed (consistent.denotes_of_findOmitted found).1 h
          · next none more =>
            cases h
            exact ⟨.inl rfl, List.mem_cons_self, consistent.ambiguous_of_omitted absent none more⟩
      · next found => exact followed (consistent.matching_level_eq_singleton_iff.mp found).1 h
      · next none more =>
        cases h
        exact ⟨.inl rfl, List.mem_cons_self,
          consistent.ambiguous_of_matching (fun _ => consistent.standsBelow_nil_iff) none more⟩

theorem isTrueOf_of_resolvePath (others : GivesNone tree.globalFlags tokens)
    {reached : Option PlacedCommand} (h : tree.resolvePath tokens = .failed reached failure) :
    (failure.path = [] ∨ ∃ c, tree.Holds c ∧ c.segments = failure.path) ∧
      failure.IsTrueOf tree tokens := by
  have several {c : PlacedCommand} {rest : List Text}
      (hd : tree.descend c 1 rest = .failed reached failure) :
      (failure.path = [] ∨ ∃ c, tree.Holds c ∧ c.segments = failure.path) ∧
        failure.IsTrueOf tree tokens := by
    obtain ⟨_, _, _, _, rfl⟩ := exists_ambiguous_of_descend hd
    exact consistent.ambiguous_of_resolvePath h
  have start := h
  unfold resolvePath at start
  rw [top_eq_level] at start
  split at start
  · cases start
  · next token rest =>
    split at start
    · cases start
    · split at start
      · next absent =>
        unfold descendOmitted at start
        split at start
        · next shaped =>
          cases start
          refine ⟨.inl rfl, List.mem_cons_self, shaped, others token List.mem_cons_self, ?_⟩
          intro c leaf
          exact absurd leaf.segments_eq (consistent.segments_ne_nil leaf.held)
        · split at start
          · next omitted =>
            cases start
            refine ⟨.inl rfl, List.mem_cons_self, fun c held _ => ?_⟩
            exact consistent.not_isBegunBy_of_findOmitted absent omitted held
          · exact several start
          · cases start
            exact consistent.ambiguous_of_resolvePath h
      · exact several start
      · cases start
        exact consistent.ambiguous_of_resolvePath h

theorem isTrueOf_of_bind (others : GivesNone tree.globalFlags tokens) (held : tree.Holds c)
    (leaf : c.isLeaf = true) {consumed : Nat}
    (hpath : tree.resolvePath tokens = .reached (some c) consumed)
    (h : c.bind (tokens.drop consumed) values = .error failure) : failure.IsTrueOf tree tokens := by
  have here : tree.IsLeafAt c.segments c := ⟨held, leaf, rfl⟩
  have behind : tree.LeavesBehind tokens c (tokens.drop consumed) := ⟨consumed, hpath, rfl⟩
  rcases bind_eq_error h with hb | ⟨positionals, own, reads, hk, rfl⟩
  · obtain ⟨front, token, rest, positionals, own, hdrop, reads, length_le, refused⟩ :=
      exists_refuses_of_bindTokens hb
    have hmem : token ∈ tokens := by
      apply List.mem_of_mem_drop
      rw [hdrop]
      exact List.mem_append_right front List.mem_cons_self
    generalize hn : c.args.length - positionals.length = pending at refused
    cases refused with
    | unknownFlag shaped none =>
      refine ⟨hmem, shaped, others token hmem, ?_⟩
      intro d hd
      rw [consistent.eq_of_isLeafAt held hd]
      exact none
    | @missingText _ _ flag own kind given =>
      refine ⟨consistent.segments_ne_nil held, c, flag, token, here, own, rfl, kind, ?_, given⟩
      rw [← List.take_append_drop consumed tokens, hdrop]
      simp
    | surplus plain =>
      refine ⟨c, tokens.drop consumed, here, behind, ?_, plain⟩
      have notGiven := Flag.find?_eq_none_of_plain (consistent.flags_named _ held.mem) plain
      rw [hdrop, consistent.positionals_append_of_reads held reads,
        Command.positionals_other notGiven]
      have length_eq : c.args.length = positionals.length :=
        Nat.le_antisymm (Nat.sub_eq_zero_iff_le.mp hn) length_le
      rw [length_eq, List.getElem?_append_right (Nat.le_refl _), Nat.sub_self]
      rfl
  · have all := consistent.positionals_of_reads held reads
    refine ⟨c, tokens.drop consumed, here, behind, ?_⟩
    rw [all]
    exact ⟨hk, rfl⟩

theorem isTrueOf_of_callCommand (others : GivesNone tree.globalFlags tokens) {consumed : Nat}
    (hpath : tree.resolvePath tokens = .reached (some c) consumed)
    (h : callCommand c (tokens.drop consumed) values = .failed failure) :
    failure.path = c.segments ∧ failure.IsTrueOf tree tokens := by
  have held : tree.Holds c := consistent.holds_of_resolvePath (by rw [hpath]; rfl)
  rcases callCommand_eq_failed h with ⟨leaf, hbind⟩ | ⟨group, token, rest, hdrop, refused⟩
  · exact ⟨path_of_bind hbind, consistent.isTrueOf_of_bind others held leaf hpath hbind⟩
  · have hmem : token ∈ tokens := List.mem_of_mem_drop (hdrop ▸ List.mem_cons_self)
    rcases refused with ⟨shaped, rfl⟩ | ⟨_, rfl⟩
    · refine ⟨rfl, hmem, shaped, others token hmem, ?_⟩
      intro d leaf
      rw [← consistent.eq_of_isLeafAt held leaf, leaf.leaf] at group
      cases group
    · refine ⟨rfl, hmem, ?_⟩
      intro d _ below
      -- The path ended before this token, so it begins no name below the group.
      have stops := (consistent.follows_of_resolvePath hpath).stops
      rw [hdrop, consistent.stopsAt_cons_iff held, held.below_eq_level,
        consistent.matching_level_eq_nil_iff] at stops
      rcases below with empty | below
      · exact absurd empty (consistent.segments_ne_nil held)
      · obtain ⟨inner, parent⟩ :=
          consistent.mem_level.mp ((consistent.standsBelow_segments_iff held).mp below)
        exact stops d inner parent

theorem isTrueOf_of_dispatchTokens (others : GivesNone tree.globalFlags tokens)
    (h : tree.dispatchTokens tokens values = .failed failure) :
    (failure.path = [] ∨ ∃ c, tree.Holds c ∧ c.segments = failure.path) ∧
      failure.IsTrueOf tree tokens := by
  rcases dispatchTokens_eq_failed h with
    ⟨_, hpath⟩ | ⟨c, _, hpath, hcall⟩ | ⟨_, token, rest, hpath, rfl, rfl⟩
  · exact consistent.isTrueOf_of_resolvePath others hpath
  · have held : tree.Holds c := consistent.holds_of_resolvePath (by rw [hpath]; rfl)
    obtain ⟨path_eq, holds⟩ := consistent.isTrueOf_of_callCommand others hpath hcall
    exact ⟨.inr ⟨c, held, path_eq.symm⟩, holds⟩
  · refine ⟨.inl rfl, List.mem_cons_self, ?_⟩
    intro c held _
    have populated := consistent.top_isEmpty_eq_false (List.ne_nil_of_mem held.mem)
    cases eq_nil_of_resolvePath populated hpath

end Consistent

end CommandTree

open CommandTree

/-- In every compiled tree, a vector that is refused is told the truth. Either the first pass finds a
global flag at its end that lacks its text, or the failure is true of the tokens which that pass
leaves; and its path leads to a command, unless it is empty. -/
theorem failures_are_true {source : Text} {tree : CommandTree} (h : compile source = .ok tree)
    {argv : List Text} {failure : Failure} (failed : tree.dispatch argv = .failed failure) :
    (failure.path = [] ∨ ∃ c, tree.Holds c ∧ c.segments = failure.path) ∧
    ((∃ flag ∈ tree.globalFlags, flag.kind = .string ∧ failure = .missingFlagValue flag.name [] ∧
        tree.extractGlobals argv = .error failure ∧
        ∃ token, argv.getLast? = some token ∧ flag.isGivenBy token = true) ∨
      ∃ values tokens, tree.extractGlobals argv = .ok (values, tokens) ∧
        failure.IsTrueOf tree tokens) := by
  have consistent := consistent_of_compile h
  rcases dispatch_eq_failed failed with taken | ⟨values, tokens, taken, hrest⟩
  · obtain ⟨flag, hf, kind, rfl, last⟩ := takeGlobals_eq_error taken
    exact ⟨.inl rfl, .inl ⟨flag, hf, kind, rfl, taken, last⟩⟩
  · obtain ⟨path, holds⟩ :=
      consistent.isTrueOf_of_dispatchTokens (givesNone_of_takeGlobals taken) hrest
    exact ⟨path, .inr ⟨values, tokens, taken, holds⟩⟩

/-- A second token for one argument, where the call leaves out the ancestor and has global flags. -/
theorem second_token_is_surplus :
    ∃ tree, compile
        "flag log string \"\" l\ncmd user add\nflag tag string \"\" t\narg to s \"\"" = .ok tree ∧
      tree.dispatch ["add", "-l", "x", "a", "-t", "y", "b"] =
        .failed (.surplusArgument "b" ["user", "add"]) ∧
      (Failure.surplusArgument "b" ["user", "add"]).IsTrueOf tree ["add", "a", "-t", "y", "b"] := by
  let user : Command :=
    commandOf { DeclarationTree.bareCommand 0 none "user" 2 with children := [1] } ["user"] []
  let add : Command :=
    { commandOf (DeclarationTree.bareCommand 1 (some 0) "add" 2) ["user", "add"]
        [⟨"tag", some "t", .string, []⟩] with
      args := [⟨"to", "s", []⟩] }
  let tree : CommandTree :=
    ⟨none, [⟨"log", some "l", .string, []⟩], [], [user, add], [0], [], []⟩
  have h : compile
      "flag log string \"\" l\ncmd user add\nflag tag string \"\" t\narg to s \"\"" = .ok tree := by
    decide +kernel
  have failed : tree.dispatch ["add", "-l", "x", "a", "-t", "y", "b"] =
      .failed (.surplusArgument "b" ["user", "add"]) := by decide +kernel
  have left : tree.extractGlobals ["add", "-l", "x", "a", "-t", "y", "b"] =
      .ok ([("help", .bool false), ("log", .string "x")], ["add", "a", "-t", "y", "b"]) := by
    decide +kernel
  obtain ⟨_, ⟨_, _, _, other, _⟩ | ⟨values, tokens, taken, holds⟩⟩ := failures_are_true h failed
  · cases other
  · rw [left] at taken
    cases taken
    exact ⟨tree, h, failed, holds⟩

end CommandLanguage

import CommandLanguage.Proofs.CommandTree.Paths
import CommandLanguage.Proofs.Invocation.Path

/-!
# Calls that leave out ancestors

When the first token begins no name at the top, it is looked for below every command. What is found
are the commands that the token names among their siblings, each once and in the order of their
paths. If it is one alone, the call goes on as if all its segments had been given.
-/

set_option autoImplicit false

namespace CommandLanguage

/-- The same end of a path that some more tokens led to. -/
def PathOutcome.later (skipped : Nat) : PathOutcome → PathOutcome
  | .reached command consumed => .reached command (consumed + skipped)
  | .failed command failure => .failed command failure

namespace PlacedCommand

variable {siblings : List PlacedCommand} {token : Text} {c : PlacedCommand}

theorem matching_sublist (siblings : List PlacedCommand) (token : Text) :
    (matching siblings token).Sublist siblings := by
  unfold matching
  split
  · next hfind => exact List.singleton_sublist.mpr (List.mem_of_find?_eq_some hfind)
  · split
    · exact List.nil_sublist siblings
    · exact List.filter_sublist

/-- A token matches the sibling of its name, and without one all siblings whose name it begins. -/
theorem mem_matching_iff (hempty : token ≠ [])
    (differ : ∀ s ∈ siblings, ∀ t ∈ siblings, s.name = t.name → s = t) :
    c ∈ matching siblings token ↔
      c ∈ siblings ∧ (c.name = token ∨ token <+: c.name ∧ ∀ s ∈ siblings, s.name ≠ token) := by
  unfold matching
  split
  · next exact hfind =>
    have hname : exact.name = token := by simpa using List.find?_some hfind
    have hmem := List.mem_of_find?_eq_some hfind
    rw [List.mem_singleton]
    constructor
    · rintro rfl
      exact ⟨hmem, .inl hname⟩
    · rintro ⟨hc, h | ⟨_, none⟩⟩
      · exact differ c hc exact hmem (h.trans hname.symm)
      · exact absurd hname (none exact hmem)
  · next hfind =>
    have other := ne_name_of_find?_eq_none hfind
    rw [if_neg hempty, List.mem_filter, List.isPrefixOf_iff_prefix]
    refine and_congr_right fun hc => ⟨fun hp => .inr ⟨hp, fun s hs he => other s hs he.symm⟩, ?_⟩
    rintro (h | ⟨hp, _⟩)
    · exact absurd h.symm (other c hc)
    · exact hp

end PlacedCommand

namespace CommandTree

open PlacedCommand

/-- The command stands below another, and the token is its name, or begins it and is the name of no
sibling. -/
def IsNamedBelow (tree : CommandTree) (token : Text) (c : PlacedCommand) : Prop :=
  tree.Holds c ∧ c.parent ≠ none ∧
    (c.name = token ∨ token <+: c.name ∧
      ∀ s, tree.Holds s → s.parent = c.parent → s.name ≠ token)

variable {tree : CommandTree} {c d : PlacedCommand} {token : Text} {tokens rest : List Text}

theorem descend_later (skipped consumed : Nat) (tokens : List Text) :
    tree.descend c (consumed + skipped) tokens = (tree.descend c consumed tokens).later skipped := by
  induction tokens generalizing c consumed with
  | nil => rfl
  | cons token rest ih =>
    simp only [descend]
    split
    · rfl
    · next child _ =>
      rw [Nat.add_right_comm]
      exact ih (consumed + 1)
    · rfl

namespace Consistent

variable (consistent : tree.Consistent)
include consistent

theorem top_isEmpty_eq_false (nonempty : tree.commands ≠ []) : tree.top.isEmpty = false := by
  have hlen : 0 < tree.nodes.length := by
    rw [nodes, List.length_map]
    exact List.length_pos_of_ne_nil nonempty
  obtain ⟨i, hi, _⟩ := consistent.forest.reaches_root hlen
  obtain ⟨node, hn, _⟩ := consistent.forest.mem_roots.mp hi
  obtain ⟨c, held, rfl, _⟩ := exists_holds hn
  have hm : c ∈ tree.top := mem_commandsAt.mpr ⟨hi, held⟩
  exact List.isEmpty_eq_false_iff.mpr (List.ne_nil_of_mem hm)

theorem mem_matching_level (hempty : token ≠ []) {parent : Option Nat} :
    c ∈ matching (tree.level parent) token ↔ tree.Holds c ∧ c.parent = parent ∧
      (c.name = token ∨ token <+: c.name ∧
        ∀ s, tree.Holds s → s.parent = parent → s.name ≠ token) := by
  rw [mem_matching_iff hempty]
  · simp only [consistent.mem_level, and_imp, and_assoc]
  · intro s hs t ht hn
    obtain ⟨hs, hsp⟩ := consistent.mem_level.mp hs
    obtain ⟨ht, htp⟩ := consistent.mem_level.mp ht
    exact consistent.eq_of_name_eq hs ht (hsp.trans htp.symm) hn

theorem mem_findOmitted (hempty : token ≠ []) :
    c ∈ tree.findOmitted token ↔ tree.IsNamedBelow token c := by
  rw [findOmitted, sortByPath, List.mem_mergeSort, List.mem_flatMap]
  constructor
  · rintro ⟨command, hcommand, hc⟩
    obtain ⟨i, hi⟩ := List.getElem?_of_mem hcommand
    have held : tree.Holds ⟨command, i⟩ := hi
    rw [held.below_eq_level, consistent.mem_matching_level hempty] at hc
    obtain ⟨hc, hp, named⟩ := hc
    refine ⟨hc, by simp [hp], ?_⟩
    rw [hp]
    exact named
  · rintro ⟨hc, hp, named⟩
    obtain ⟨p, hp⟩ := Option.ne_none_iff_exists'.mp hp
    have child : Node.IsChild tree.nodes c.position p := ⟨_, hc.node, hp⟩
    have hlt := Nat.lt_trans (consistent.forest.parent_lt child) child.lt_length
    obtain ⟨parent, held, rfl, _⟩ := exists_holds (List.getElem?_eq_getElem hlt)
    refine ⟨parent.toCommand, held.mem, ?_⟩
    rw [held.below_eq_level, consistent.mem_matching_level hempty]
    rw [hp] at named
    exact ⟨hc, hp, named⟩

/-- No command stands below two parents, so none is found twice. -/
theorem nodup_findOmitted_unsorted (token : Text) :
    (tree.commands.flatMap fun parent => matching (tree.below parent) token).Nodup := by
  have level {i : Nat} (hi : i < tree.commands.length) :
      tree.below tree.commands[i] = tree.level (some i) := by
    have held : tree.Holds ⟨tree.commands[i], i⟩ := List.getElem?_eq_getElem hi
    exact held.below_eq_level
  rw [List.nodup_flatMap]
  constructor
  · intro parent hparent
    obtain ⟨i, hi, rfl⟩ := List.getElem_of_mem hparent
    rw [level hi]
    exact (consistent.nodup_level (some i)).sublist (matching_sublist _ token)
  · rw [List.pairwise_iff_getElem]
    intro i j hi hj hij c hci hcj
    simp only [level hi] at hci
    simp only [level hj] at hcj
    obtain ⟨_, hpi⟩ := consistent.mem_level.mp ((matching_sublist _ token).subset hci)
    obtain ⟨_, hpj⟩ := consistent.mem_level.mp ((matching_sublist _ token).subset hcj)
    rw [hpi] at hpj
    exact Nat.ne_of_lt hij (Option.some.inj hpj)

theorem pairwise_findOmitted (token : Text) :
    ((tree.findOmitted token).map (·.path)).Pairwise (· < ·) := by
  refine pairwise_sortByPath (consistent.nodup_findOmitted_unsorted token) ?_
  have held {c : PlacedCommand}
      (hc : c ∈ tree.commands.flatMap fun parent => matching (tree.below parent) token) :
      tree.Holds c := by
    obtain ⟨parent, _, hm⟩ := List.mem_flatMap.mp hc
    exact (mem_commandsAt.mp ((matching_sublist _ token).subset hm)).2
  intro a ha b hb hp
  exact consistent.eq_of_path_eq (held ha) (held hb) hp

theorem findOmitted_eq_singleton (hempty : token ≠ []) (found : tree.IsNamedBelow token d)
    (only : ∀ e, tree.IsNamedBelow token e → e = d) : tree.findOmitted token = [d] := by
  have nodup : (tree.findOmitted token).Nodup :=
    (List.mergeSort_perm _ _).nodup_iff.mpr (consistent.nodup_findOmitted_unsorted token)
  rw [← List.perm_singleton, List.perm_ext_iff_of_nodup nodup (List.nodup_singleton d)]
  intro e
  rw [consistent.mem_findOmitted hempty, List.mem_singleton]
  constructor
  · exact only e
  · rintro rfl
    exact found

theorem resolvePath_eq_descendOmitted (nonempty : tree.commands ≠ []) (hempty : token ≠ [])
    (absent : ∀ root, tree.Holds root → root.parent = none → ¬ token <+: root.name) :
    tree.resolvePath (token :: rest) = tree.descendOmitted token rest := by
  have hm : matching tree.top token = [] := by
    rw [top_eq_level, consistent.matching_level_eq_nil_iff]
    rintro root held hroot (rfl | ⟨_, hp⟩)
    · exact absent root held hroot (List.prefix_refl _)
    · exact absent root held hroot hp
  simp [resolvePath, consistent.top_isEmpty_eq_false nonempty, hm]

theorem one_lt_length_segments (held : tree.Holds c) (below : c.parent ≠ none) :
    1 < c.segments.length := by
  obtain ⟨above, hline⟩ := consistent.exists_line held
  have one_lt {line : List PlacedCommand} (h : tree.Line c line) : 1 < line.length := by
    cases h with
    | top _ root => exact absurd root below
    | down _ _ upper =>
      obtain ⟨_, _, rfl, _⟩ := upper.exists_root
      simp
  rw [← consistent.length_of_line hline]
  exact one_lt hline

end Consistent

end CommandTree

open CommandTree DeclarationTree

/-- In every compiled tree with commands, a first token that is no flag and begins no name at the
top is looked for below all commands. If it names none there, it is unknown. If it names one, the
call goes on from that command as if all its segments had been given. If it names several, the
candidates are their paths in strictly ascending order. -/
theorem resolvePath_omitted {source : Text} {tree : CommandTree} (h : compile source = .ok tree)
    (nonempty : tree.commands ≠ []) {token : Text} (hempty : token ≠ [])
    (plain : isFlagShaped token = false)
    (absent : ∀ root, tree.Holds root → root.parent = none → ¬ token <+: root.name)
    (rest : List Text) :
    ((∀ d, ¬ tree.IsNamedBelow token d) →
      tree.resolvePath (token :: rest) = .failed none (.unknownCommand token [])) ∧
    (∀ d, tree.IsNamedBelow token d → (∀ e, tree.IsNamedBelow token e → e = d) →
      1 < d.segments.length ∧ tree.resolvePath (d.segments ++ rest) =
        (tree.resolvePath (token :: rest)).later (d.segments.length - 1)) ∧
    ∀ d e, tree.IsNamedBelow token d → tree.IsNamedBelow token e → d ≠ e →
      ∃ found : List PlacedCommand, (∀ c, c ∈ found ↔ tree.IsNamedBelow token c) ∧
        (found.map (·.path)).Pairwise (· < ·) ∧
        tree.resolvePath (token :: rest) =
          .failed none (.ambiguousCommand token (found.map (·.path)) []) := by
  have consistent := consistent_of_compile h
  have mem (c : PlacedCommand) : c ∈ tree.findOmitted token ↔ tree.IsNamedBelow token c :=
    consistent.mem_findOmitted hempty
  rw [consistent.resolvePath_eq_descendOmitted nonempty hempty absent, descendOmitted,
    if_neg (by simp [plain])]
  refine ⟨?_, ?_, ?_⟩
  · intro none
    have hnil : tree.findOmitted token = [] :=
      List.eq_nil_iff_forall_not_mem.mpr fun c hc => none c ((mem c).mp hc)
    rw [hnil]
  · intro d found only
    have hlen := consistent.one_lt_length_segments found.1 found.2.1
    rw [consistent.findOmitted_eq_singleton hempty found only]
    refine ⟨hlen, ?_⟩
    rw [consistent.resolvePath_segments_append found.1, ← descend_later]
    congr 1
    omega
  · intro d e hd he differ
    refine ⟨tree.findOmitted token, mem, consistent.pairwise_findOmitted token, ?_⟩
    split
    · next hnil => exact absurd ((mem d).mpr hd) (hnil ▸ List.not_mem_nil)
    · next c hc =>
      have hdc := List.mem_singleton.mp (hc ▸ (mem d).mpr hd)
      have hec := List.mem_singleton.mp (hc ▸ (mem e).mpr he)
      exact absurd (hdc.trans hec.symm) differ
    · rfl

/-- One command is reached by the beginning of its name, and a name that two commands have is
ambiguous. -/
theorem omitted_ancestors_found :
    ∃ tree list, compile "cmd user add\ncmd user list\ncmd group add" = .ok tree ∧
      tree.IsNamedBelow "li" list ∧
      tree.resolvePath ["user", "list", "x"] = (tree.resolvePath ["li", "x"]).later 1 ∧
      ∃ found : List PlacedCommand, found.map (·.path) = ["group/add", "user/add"] ∧
        (found.map (·.path)).Pairwise (· < ·) := by
  let user : PlacedCommand :=
    ⟨commandOf { bareCommand 0 none "user" 1 with children := [1, 2] } ["user"] [], 0⟩
  let userAdd : PlacedCommand :=
    ⟨commandOf (bareCommand 1 (some 0) "add" 1) ["user", "add"] [], 1⟩
  let list : PlacedCommand := ⟨commandOf (bareCommand 2 (some 0) "list" 2) ["user", "list"] [], 2⟩
  let group : PlacedCommand :=
    ⟨commandOf { bareCommand 3 none "group" 3 with children := [4] } ["group"] [], 3⟩
  let groupAdd : PlacedCommand :=
    ⟨commandOf (bareCommand 4 (some 3) "add" 3) ["group", "add"] [], 4⟩
  let tree : CommandTree := ⟨none, [], [], [user.toCommand, userAdd.toCommand, list.toCommand,
    group.toCommand, groupAdd.toCommand], [0, 3], [], []⟩
  have h : compile "cmd user add\ncmd user list\ncmd group add" = .ok tree := by decide +kernel
  have placed {c : PlacedCommand} (held : tree.Holds c) :
      c = user ∨ c = userAdd ∨ c = list ∨ c = group ∨ c = groupAdd := by
    obtain ⟨c, i⟩ := c
    match i, held with
    | 0, held => cases held; exact .inl rfl
    | 1, held => cases held; exact .inr (.inl rfl)
    | 2, held => cases held; exact .inr (.inr (.inl rfl))
    | 3, held => cases held; exact .inr (.inr (.inr (.inl rfl)))
    | 4, held => cases held; exact .inr (.inr (.inr (.inr rfl)))
  have absent {token : Text} (hu : ¬ token <+: "user") (hg : ¬ token <+: "group") :
      ∀ root, tree.Holds root → root.parent = none → ¬ token <+: root.name := by
    intro root held hroot
    rcases placed held with rfl | rfl | rfl | rfl | rfl
    · exact hu
    · cases hroot
    · cases hroot
    · exact hg
    · cases hroot
  have found : tree.IsNamedBelow "li" list := by
    refine ⟨rfl, by decide, .inr ⟨by decide, ?_⟩⟩
    intro s held _
    rcases placed held with rfl | rfl | rfl | rfl | rfl <;> decide
  have only : ∀ e, tree.IsNamedBelow "li" e → e = list := by
    rintro e ⟨held, _, named⟩
    rcases placed held with rfl | rfl | rfl | rfl | rfl
    · exact absurd (named.imp_right And.left) (by decide)
    · exact absurd (named.imp_right And.left) (by decide)
    · rfl
    · exact absurd (named.imp_right And.left) (by decide)
    · exact absurd (named.imp_right And.left) (by decide)
  obtain ⟨_, one, _⟩ := resolvePath_omitted h (by decide) (show ("li" : Text) ≠ [] by decide)
    (by decide) (absent (by decide) (by decide)) ["x"]
  obtain ⟨_, _, several⟩ := resolvePath_omitted h (by decide)
    (show ("add" : Text) ≠ [] by decide) (by decide) (absent (by decide) (by decide)) []
  have also {c : PlacedCommand} (hc : c = groupAdd ∨ c = userAdd) : tree.IsNamedBelow "add" c := by
    rcases hc with rfl | rfl
    · exact ⟨rfl, by decide, .inl rfl⟩
    · exact ⟨rfl, by decide, .inl rfl⟩
  obtain ⟨candidates, mem, sorted, _⟩ := several groupAdd userAdd (also (.inl rfl))
    (also (.inr rfl)) (by decide)
  have members : ∀ c, c ∈ candidates ↔ c ∈ [groupAdd, userAdd] := by
    intro c
    simp only [mem, List.mem_cons, List.not_mem_nil, or_false]
    refine ⟨?_, also⟩
    rintro ⟨held, _, named⟩
    rcases placed held with rfl | rfl | rfl | rfl | rfl
    · exact absurd (named.imp_right And.left) (by decide)
    · exact .inr rfl
    · exact absurd (named.imp_right And.left) (by decide)
    · exact absurd (named.imp_right And.left) (by decide)
    · exact .inl rfl
  have distinct : candidates.Nodup := (List.pairwise_map.mp sorted).imp fun h => by
    rintro rfl
    exact List.lt_irrefl _ h
  have perm := (List.perm_ext_iff_of_nodup distinct (by decide)).mpr members
  have ascending : (List.map (·.path) [groupAdd, userAdd]).Pairwise (· < ·) := by decide
  have paths := (perm.map (·.path)).eq_of_pairwise
    (fun _ _ _ _ h h' => absurd h' (List.lt_asymm h)) sorted ascending
  exact ⟨tree, list, h, found, (one list found only).2, candidates, paths, sorted⟩

end CommandLanguage

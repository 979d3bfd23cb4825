import CommandLanguage.Invocation.Path
import CommandLanguage.Proofs.CommandTree.Placed

/-!
# Following a path

A token denotes a command among its siblings if it is the name of the command, or begins that name
and no other. Following tokens that denote a command and its ancestors reaches the command, and
only such tokens are followed, except that a first token may denote a command below the top when
no command at the top has a name it begins.
-/

set_option autoImplicit false

namespace CommandLanguage

/-- The token is the name of the command, or is not empty and begins it. -/
def PlacedCommand.IsBegunBy (c : PlacedCommand) (token : Text) : Prop :=
  token = c.name ∨ token ≠ [] ∧ token <+: c.name

namespace CommandTree

/-- The token is not empty, and it is the name of the command or begins no other sibling's. -/
def Denotes (tree : CommandTree) (token : Text) (c : PlacedCommand) : Prop :=
  token ≠ [] ∧ (token = c.name ∨ token <+: c.name ∧
    ∀ other, tree.Holds other → other.parent = c.parent → token <+: other.name → other = c)

/-- Some tokens name nothing further down: there are none, or nothing stands below the command, or
the first of them begins no name there. -/
def StopsAt (tree : CommandTree) (c : PlacedCommand) (tokens : List Text) : Prop :=
  tokens = [] ∨ c.children = [] ∨ ∃ token, tokens.head? = some token ∧
    ∀ child, tree.Holds child → child.parent = some c.position → ¬ child.IsBegunBy token

/-- The first tokens denote the last commands of the line to a command, and all of that line if the
first token begins a name at the top. The tokens behind them name nothing further down. -/
structure Follows (tree : CommandTree) (tokens : List Text) (c : PlacedCommand) (consumed : Nat) :
    Prop where
  consumed_pos : 1 ≤ consumed
  consumed_le : consumed ≤ c.segments.length
  denoted : ∃ omitted passed, tree.Line c (omitted ++ passed) ∧ passed.length = consumed ∧
    List.Forall₂ tree.Denotes (tokens.take consumed) passed
  complete : ∀ token root, tokens.head? = some token → tree.Holds root → root.parent = none →
    token <+: root.name → consumed = c.segments.length
  stops : tree.StopsAt c (tokens.drop consumed)

/-- How following a path begins. Nothing is followed without tokens or commands; otherwise the first
token finds the command from which the others are followed, or it fails. -/
inductive Starts (tree : CommandTree) : List Text → PathOutcome → Prop where
  | nothing {tokens : List Text} (h : tokens = [] ∨ tree.top.isEmpty = true) :
      Starts tree tokens (.reached none 0)
  | top {token : Text} {rest : List Text} {first : PlacedCommand} {outcome : PathOutcome}
      (found : PlacedCommand.matching tree.top token = [first])
      (followed : tree.descend first 1 rest = outcome) : Starts tree (token :: rest) outcome
  | omitted {token : Text} {rest : List Text} {first : PlacedCommand} {outcome : PathOutcome}
      (absent : PlacedCommand.matching tree.top token = []) (found : tree.findOmitted token = [first])
      (followed : tree.descend first 1 rest = outcome) : Starts tree (token :: rest) outcome
  | flag {token : Text} {rest : List Text} (shaped : isFlagShaped token = true) :
      Starts tree (token :: rest) (.failed none (.unknownFlag token []))
  | unknown {token : Text} {rest : List Text} (plain : isFlagShaped token = false) :
      Starts tree (token :: rest) (.failed none (.unknownCommand token []))
  | ambiguous {token : Text} {rest candidates : List Text} :
      Starts tree (token :: rest) (.failed none (.ambiguousCommand token candidates []))

end CommandTree

namespace PlacedCommand

variable {siblings : List PlacedCommand} {token : Text} {c : PlacedCommand}

theorem ne_name_of_find?_eq_none (h : siblings.find? (·.name = token) = none) :
    ∀ s ∈ siblings, token ≠ s.name := by
  intro s hs he
  exact List.find?_eq_none.mp h s hs (decide_eq_true he.symm)

theorem matching_eq_nil_iff :
    matching siblings token = [] ↔ ∀ s ∈ siblings, ¬ s.IsBegunBy token := by
  unfold matching
  split
  · next exact hfind =>
    have hname : exact.name = token := by simpa using List.find?_some hfind
    simp only [List.cons_ne_nil, false_iff]
    intro h
    exact h exact (List.mem_of_find?_eq_some hfind) (.inl hname.symm)
  · next hfind =>
    have other := ne_name_of_find?_eq_none hfind
    split
    · next hempty =>
      refine iff_of_true rfl fun s hs h => ?_
      rcases h with h | ⟨h, _⟩
      · exact other s hs h
      · exact h hempty
    · next hempty =>
      simp only [List.filter_eq_nil_iff, List.isPrefixOf_iff_prefix, IsBegunBy]
      refine forall₂_congr fun s hs => not_congr ?_
      simp [other s hs, hempty]

/-- Among siblings of different names a token matches one alone if it is the name of that one, or
begins its name and no other. -/
theorem matching_eq_singleton_iff (distinct : siblings.Nodup)
    (named : ∀ s ∈ siblings, s.name ≠ [])
    (differ : ∀ s ∈ siblings, ∀ t ∈ siblings, s.name = t.name → s = t) :
    matching siblings token = [c] ↔ c ∈ siblings ∧ token ≠ [] ∧
      (token = c.name ∨ token <+: c.name ∧ ∀ s ∈ siblings, token <+: s.name → s = c) := by
  unfold matching
  split
  · next exact hfind =>
    have hname : exact.name = token := by simpa using List.find?_some hfind
    have hmem := List.mem_of_find?_eq_some hfind
    rw [List.singleton_inj]
    constructor
    · rintro rfl
      exact ⟨hmem, hname ▸ named exact hmem, .inl hname.symm⟩
    · rintro ⟨hc, _, h⟩
      rcases h with h | ⟨_, only⟩
      · exact differ exact hmem c hc (hname.trans h)
      · exact only exact hmem (hname ▸ List.prefix_refl _)
  · next hfind =>
    have other := ne_name_of_find?_eq_none hfind
    split
    · next hempty => simp [hempty]
    · next hempty =>
      rw [← List.perm_singleton, List.perm_ext_iff_of_nodup (distinct.filter _) (by simp)]
      simp only [List.mem_filter, List.isPrefixOf_iff_prefix, List.mem_singleton]
      constructor
      · intro h
        obtain ⟨hc, hp⟩ := (h c).mpr rfl
        exact ⟨hc, hempty, .inr ⟨hp, fun s hs hps => (h s).mp ⟨hs, hps⟩⟩⟩
      · rintro ⟨hc, _, h⟩ s
        obtain ⟨hp, only⟩ := h.resolve_left (other c hc)
        constructor
        · rintro ⟨hs, hps⟩
          exact only s hs hps
        · rintro rfl
          exact ⟨hc, hp⟩

end PlacedCommand

namespace CommandTree

open PlacedCommand

variable {tree : CommandTree} {c d : PlacedCommand} {line : List PlacedCommand}
variable {token : Text} {tokens rest : List Text}

/-- Going down ends at a command, or fails there at a token that names several below it. -/
theorem descend_ends (tree : CommandTree) (c : PlacedCommand) (consumed : Nat) (tokens : List Text) :
    ∃ d : PlacedCommand,
      (∃ reached, tree.descend c consumed tokens = .reached (some d) reached) ∨
        ∃ token candidates, tree.descend c consumed tokens =
          .failed (some d) (.ambiguousCommand token candidates d.segments) := by
  induction tokens generalizing c consumed with
  | nil => exact ⟨c, .inl ⟨consumed, rfl⟩⟩
  | cons token rest ih =>
    unfold descend
    split
    · exact ⟨c, .inl ⟨consumed, rfl⟩⟩
    · next child _ => exact ih child (consumed + 1)
    · exact ⟨c, .inr ⟨token, _, rfl⟩⟩

/-- Going down fails only at a command, below which the token names several. -/
theorem exists_ambiguous_of_descend {consumed : Nat} {reached : Option PlacedCommand}
    {failure : Failure} (h : tree.descend c consumed tokens = .failed reached failure) :
    ∃ d token candidates, reached = some d ∧
      failure = .ambiguousCommand token candidates d.segments := by
  obtain ⟨d, ⟨_, ends⟩ | ⟨token, candidates, ends⟩⟩ := tree.descend_ends c consumed tokens
  · rw [ends] at h
    cases h
  · rw [ends] at h
    cases h
    exact ⟨d, token, candidates, rfl, rfl⟩

theorem starts_resolvePath (tree : CommandTree) (tokens : List Text) :
    tree.Starts tokens (tree.resolvePath tokens) := by
  unfold resolvePath
  split
  · exact .nothing (.inl rfl)
  · split
    · next empty => exact .nothing (.inr empty)
    · split
      · next absent =>
        unfold descendOmitted
        split
        · next shaped => exact .flag shaped
        · next plain =>
          split
          · exact .unknown (eq_false_of_ne_true plain)
          · next found => exact .omitted absent found rfl
          · exact .ambiguous
      · next found => exact .top found rfl
      · exact .ambiguous

namespace Consistent

variable (consistent : tree.Consistent)
include consistent

theorem matching_level_eq_nil_iff {parent : Option Nat} :
    matching (tree.level parent) token = [] ↔
      ∀ s, tree.Holds s → s.parent = parent → ¬ s.IsBegunBy token := by
  simp only [matching_eq_nil_iff, consistent.mem_level, and_imp]

theorem matching_level_eq_singleton_iff {parent : Option Nat} :
    matching (tree.level parent) token = [c] ↔
      tree.Holds c ∧ c.parent = parent ∧ tree.Denotes token c := by
  rw [matching_eq_singleton_iff (consistent.nodup_level parent)]
  · simp only [consistent.mem_level, Denotes, and_assoc, and_imp]
    refine and_congr_right fun _ => and_congr_right fun hp => ?_
    rw [hp]
  · intro s hs
    exact consistent.name_ne_nil (consistent.mem_level.mp hs).1
  · intro s hs t ht hn
    obtain ⟨hs, hsp⟩ := consistent.mem_level.mp hs
    obtain ⟨ht, htp⟩ := consistent.mem_level.mp ht
    exact consistent.eq_of_name_eq hs ht (hsp.trans htp.symm) hn

theorem stopsAt_cons_iff (held : tree.Holds c) : tree.StopsAt c (token :: rest) ↔
    matching (tree.below c.toCommand) token = [] := by
  rw [held.below_eq_level, consistent.matching_level_eq_nil_iff]
  constructor
  · intro h
    rcases h with h | h | ⟨t, ht, h⟩
    · cases h
    · intro s hs hp
      have hm : s.position ∈ c.children :=
        (consistent.forest.mem_children held.node).mpr ⟨s.node, hs.node, hp⟩
      rw [h] at hm
      cases hm
    · cases ht
      exact h
  · intro h
    exact .inr (.inr ⟨token, rfl, h⟩)

theorem descend_of_stopsAt (held : tree.Holds c) {consumed : Nat} (h : tree.StopsAt c tokens) :
    tree.descend c consumed tokens = .reached (some c) consumed := by
  cases tokens with
  | nil => rfl
  | cons token rest =>
    have hm := (consistent.stopsAt_cons_iff held).mp h
    simp only [descend, hm]

theorem resolvePath_of_line (h : tree.Line c line)
    (denoted : List.Forall₂ tree.Denotes tokens line) :
    tree.resolvePath (tokens ++ rest) = tree.descend c line.length rest := by
  induction h generalizing tokens rest with
  | @top c held root =>
    cases denoted with
    | cons hd hnil =>
      cases hnil
      have hm := consistent.matching_level_eq_singleton_iff.mpr ⟨held, root, hd⟩
      have hin : c ∈ tree.top := consistent.mem_level.mpr ⟨held, root⟩
      have hne : tree.top.isEmpty = false := List.isEmpty_eq_false_iff.mpr (List.ne_nil_of_mem hin)
      rw [← top_eq_level] at hm
      simp [resolvePath, hne, hm]
  | @down c p line held parent above ih =>
    have hinit := List.forall₂_take_append tokens line [c] denoted
    have hlast := List.forall₂_drop_append tokens line [c] denoted
    obtain ⟨token, others, hd, hnil, hdrop⟩ := List.forall₂_cons_right_iff.mp hlast
    cases List.forall₂_nil_right_iff.mp hnil
    have hm := consistent.matching_level_eq_singleton_iff.mpr ⟨held, parent, hd⟩
    rw [← above.holds.below_eq_level] at hm
    rw [← List.take_append_drop line.length tokens, hdrop, List.append_assoc, ih hinit]
    simp [descend, hm]

theorem resolvePath_segments_append (held : tree.Holds c) :
    tree.resolvePath (c.segments ++ rest) = tree.descend c c.segments.length rest := by
  obtain ⟨above, hline⟩ := consistent.exists_line held
  have denoted : List.Forall₂ tree.Denotes (c.segments) (above ++ [c]) := by
    rw [← consistent.names_of_line hline, List.forall₂_map_left_iff, List.forall₂_same]
    intro d hd
    exact ⟨consistent.name_ne_nil (hline.forall_holds d hd), .inl rfl⟩
  rw [consistent.resolvePath_of_line hline denoted, consistent.length_of_line hline]

theorem resolvePath_segments (held : tree.Holds c) (h : tree.StopsAt c rest) :
    tree.resolvePath (c.segments ++ rest) = .reached (some c) c.segments.length := by
  rw [consistent.resolvePath_segments_append held, consistent.descend_of_stopsAt held h]

/-- Tokens followed from a command that was reached denote the commands passed. -/
theorem follows_of_descend (h : tree.Line c line) {consumed reached : Nat}
    (hd : tree.descend c consumed tokens = .reached (some d) reached) :
    ∃ passed, tree.Line d (line ++ passed) ∧ consumed + passed.length = reached ∧
      List.Forall₂ tree.Denotes (tokens.take passed.length) passed ∧
      tree.StopsAt d (tokens.drop passed.length) := by
  -- Going down one step lengthens the line by the child that the token denotes.
  induction tokens generalizing c line consumed with
  | nil =>
    cases hd
    exact ⟨[], by simpa using h, rfl, .nil, .inl rfl⟩
  | cons token rest ih =>
    unfold descend at hd
    split at hd
    · next hm =>
      cases hd
      exact ⟨[], by simpa using h, rfl, .nil, (consistent.stopsAt_cons_iff h.holds).mpr hm⟩
    · next child hm =>
      rw [h.holds.below_eq_level, consistent.matching_level_eq_singleton_iff] at hm
      obtain ⟨held, parent, denotes⟩ := hm
      obtain ⟨passed, hline, hlen, hden, hstop⟩ := ih (.down held parent h) hd
      refine ⟨child :: passed, ?_, ?_, .cons denotes hden, hstop⟩
      · simpa using hline
      · rw [List.length_cons]
        omega
    · cases hd

theorem denotes_of_findOmitted (h : tree.findOmitted token = [c]) :
    tree.Holds c ∧ tree.Denotes token c := by
  -- Sorting one match leaves it, and the one parent below which it was found has no other.
  have hperm := (List.mergeSort_perm _ _).symm.trans (List.Perm.of_eq h)
  have hall := List.perm_singleton.mp hperm
  obtain ⟨command, hcommand, hc⟩ := List.mem_flatMap.mp (hall ▸ List.mem_cons_self)
  have hsub := List.sublist_flatten_of_mem (List.mem_map_of_mem hcommand)
    (L := tree.commands.map fun parent => matching (tree.below parent) token)
  rw [← List.flatMap_def, hall] at hsub
  have hm := (List.sublist_singleton.mp hsub).resolve_left (List.ne_nil_of_mem hc)
  obtain ⟨i, hi⟩ := List.getElem?_of_mem hcommand
  have held : tree.Holds ⟨command, i⟩ := hi
  rw [held.below_eq_level, consistent.matching_level_eq_singleton_iff] at hm
  exact ⟨hm.1, hm.2.2⟩

/-- A first token denotes a command at the end of some line; the others are followed from there. -/
theorem follows_of_first {first : PlacedCommand} {above : List PlacedCommand} {consumed : Nat}
    (hline : tree.Line first (above ++ [first])) (denotes : tree.Denotes token first)
    (hd : tree.descend first 1 rest = .reached (some c) consumed)
    (complete : above = [] ∨
      ∀ root, tree.Holds root → root.parent = none → ¬ token <+: root.name) :
    tree.Follows (token :: rest) c consumed := by
  obtain ⟨passed, hc, hlen, hden, hstop⟩ := consistent.follows_of_descend hline hd
  have hsegments := consistent.length_of_line hc
  simp only [List.length_append, List.length_singleton] at hsegments
  obtain rfl : consumed = passed.length + 1 := by omega
  refine ⟨by omega, by omega, ⟨above, first :: passed, ?_, rfl, .cons denotes hden⟩, ?_, hstop⟩
  · simpa using hc
  · rintro _ root ⟨⟩ held hroot hp
    rcases complete with rfl | none
    · simpa [Nat.add_comm] using hsegments
    · exact absurd hp (none root held hroot)

/-- Only tokens that denote are followed. -/
theorem follows_of_resolvePath {consumed : Nat}
    (h : tree.resolvePath tokens = .reached (some c) consumed) :
    tree.Follows tokens c consumed := by
  cases h ▸ tree.starts_resolvePath tokens with
  | top found followed =>
    rw [top_eq_level, consistent.matching_level_eq_singleton_iff] at found
    obtain ⟨held, root, denotes⟩ := found
    exact consistent.follows_of_first (.top held root) denotes followed (.inl rfl)
  | omitted absent found followed =>
    rw [top_eq_level, consistent.matching_level_eq_nil_iff] at absent
    obtain ⟨held, denotes⟩ := consistent.denotes_of_findOmitted found
    obtain ⟨above, hline⟩ := consistent.exists_line held
    refine consistent.follows_of_first hline denotes followed (.inr fun root hr hroot hp => ?_)
    exact absent root hr hroot (.inr ⟨denotes.1, hp⟩)

end Consistent

end CommandTree

open CommandTree DeclarationTree

/-- In every compiled tree, tokens that denote a command and its ancestors reach the command, if the
tokens behind them name nothing further down; and whatever is reached was denoted in this way, with
its ancestors left out only if the first token begins no name at the top. -/
theorem resolvePath_exact {source : Text} {tree : CommandTree} (h : compile source = .ok tree) :
    (∀ c, tree.Holds c → ∃ line, tree.Line c line) ∧
    (∀ c line, tree.Line c line → line.map (·.name) = c.segments) ∧
    (∀ c line tokens rest, tree.Line c line → List.Forall₂ tree.Denotes tokens line →
      tree.StopsAt c rest →
      tree.resolvePath (tokens ++ rest) = .reached (some c) c.segments.length) ∧
    ∀ tokens c consumed, tree.resolvePath tokens = .reached (some c) consumed →
      tree.Follows tokens c consumed := by
  have consistent := consistent_of_compile h
  refine ⟨?_, ?_, ?_, ?_⟩
  · intro c held
    obtain ⟨above, hline⟩ := consistent.exists_line held
    exact ⟨_, hline⟩
  · intro c line hline
    exact consistent.names_of_line hline
  · intro c line tokens rest hline denoted stops
    rw [consistent.resolvePath_of_line hline denoted,
      consistent.descend_of_stopsAt hline.holds stops, consistent.length_of_line hline]
  · intro tokens c consumed hr
    exact consistent.follows_of_resolvePath hr

/-- An abbreviated path is followed to its end, and a command is reached by its last name alone. -/
theorem abbreviated_path_followed :
    ∃ tree add list, compile "cmd user add\ncmd user list" = .ok tree ∧
      tree.resolvePath ["u", "add", "x"] = .reached (some add) 2 ∧
      tree.Follows ["li", "x"] list 1 := by
  let user : PlacedCommand :=
    ⟨commandOf { bareCommand 0 none "user" 1 with children := [1, 2] } ["user"] [], 0⟩
  let add : PlacedCommand := ⟨commandOf (bareCommand 1 (some 0) "add" 1) ["user", "add"] [], 1⟩
  let list : PlacedCommand := ⟨commandOf (bareCommand 2 (some 0) "list" 2) ["user", "list"] [], 2⟩
  let tree : CommandTree :=
    ⟨none, [], [], [user.toCommand, add.toCommand, list.toCommand], [0], [], []⟩
  have h : compile "cmd user add\ncmd user list" = .ok tree := by decide +kernel
  obtain ⟨_, _, reaches, follows⟩ := resolvePath_exact h
  refine ⟨tree, add, list, h, ?_, follows ["li", "x"] list 1 (by decide +kernel)⟩
  refine reaches add [user, add] ["u", "add"] ["x"] ?_ (.cons ?_ (.cons ?_ .nil)) (.inr (.inl rfl))
  · have above : tree.Line user [user] := .top rfl rfl
    have line : tree.Line add ([user] ++ [add]) := .down rfl rfl above
    exact line
  · refine ⟨by decide, .inr ⟨by decide, ?_⟩⟩
    rintro ⟨other, i⟩ held root _
    match i, held with
    | 0, held => cases held; rfl
    | 1, held => cases held; cases root
    | 2, held => cases held; cases root
  · exact ⟨by decide, .inl rfl⟩

end CommandLanguage

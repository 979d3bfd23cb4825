import CommandLanguage.Proofs.Invocation.Grounds

/-!
# Choosing a candidate

When a token names several commands, the tokens before it have been followed and are followed in the
same way in every other call. Each candidate, written out in place of the token, leads to a command,
and the call goes on from there.
-/

set_option autoImplicit false

namespace CommandLanguage

open PlacedCommand

/-- Following went past the command of these segments: it ended at or below it. -/
inductive PathOutcome.IsPast (segments : List Text) : PathOutcome → Prop where
  | reached {c : PlacedCommand} {consumed : Nat} (below : segments <+: c.segments) :
      IsPast segments (.reached (some c) consumed)
  | failed {reached : Option PlacedCommand} {failure : Failure} (below : segments <+: failure.path) :
      IsPast segments (.failed reached failure)

namespace CommandTree

variable {tree : CommandTree} {c d : PlacedCommand} {token : Text}
variable {front tokens candidates path : List Text} {reached : Option PlacedCommand}
variable {failure : Failure} {consumed : Nat}

/-- Tokens that are all followed are followed in the same way before any others. -/
theorem descend_append (h : tree.descend c consumed front = .reached (some d) (consumed + front.length))
    (others : List Text) :
    tree.descend c consumed (front ++ others) = tree.descend d (consumed + front.length) others := by
  induction front generalizing c consumed with
  | nil =>
    cases h
    rfl
  | cons token front ih =>
    rw [List.length_cons, Nat.add_comm front.length 1, ← Nat.add_assoc] at h ⊢
    simp only [descend, List.cons_append] at h ⊢
    split at h
    · have := (PathOutcome.reached.inj h).2
      omega
    · exact ih h
    · cases h

/-- Going down fails at a token, whatever stands behind it, when all tokens before it are followed. -/
theorem exists_front_of_descend
    (h : tree.descend c consumed tokens = .failed reached (.ambiguousCommand token candidates path)) :
    ∃ front rest d, tokens = front ++ token :: rest ∧ reached = some d ∧
      tree.descend c consumed front = .reached (some d) (consumed + front.length) ∧
      ∀ others, tree.descend d (consumed + front.length) (token :: others) =
        .failed (some d) (.ambiguousCommand token candidates path) := by
  induction tokens generalizing c consumed with
  | nil => cases h
  | cons first tokens ih =>
    simp only [descend] at h
    split at h
    · cases h
    · next child hm =>
      obtain ⟨front, rest, d, rfl, hd, hfront, fails⟩ := ih h
      have hlen : consumed + (first :: front).length = consumed + 1 + front.length := by
        rw [List.length_cons]
        omega
      refine ⟨first :: front, rest, d, rfl, hd, ?_, ?_⟩
      · simp only [descend, hm, hlen]
        exact hfront
      · rw [hlen]
        exact fails
    · next none more =>
      cases h
      refine ⟨[], tokens, c, rfl, rfl, rfl, ?_⟩
      intro others
      simp only [descend]

/-- What the first token finds does not depend on the others: a command from which they are followed,
or nothing, and then only the token itself can be called ambiguous. -/
theorem first_cases (tree : CommandTree) (token : Text) :
    (∃ first, ∀ rest, tree.resolvePath (token :: rest) = tree.descend first 1 rest) ∨
      ∃ outcome : PathOutcome, outcome.command = none ∧
        (∀ other candidates path,
          outcome = .failed none (.ambiguousCommand other candidates path) → other = token) ∧
        ∀ rest, tree.resolvePath (token :: rest) = outcome := by
  simp only [resolvePath, descendOmitted]
  split
  · exact .inr ⟨_, rfl, by simp, fun _ => rfl⟩
  · split
    · split
      · exact .inr ⟨_, rfl, by simp, fun _ => rfl⟩
      · split
        · exact .inr ⟨_, rfl, by simp, fun _ => rfl⟩
        · next first _ => exact .inl ⟨first, fun _ => rfl⟩
        · refine .inr ⟨_, rfl, ?_, fun _ => rfl⟩
          rintro _ _ _ ⟨⟩
          rfl
    · next first _ => exact .inl ⟨first, fun _ => rfl⟩
    · refine .inr ⟨_, rfl, ?_, fun _ => rfl⟩
      rintro _ _ _ ⟨⟩
      rfl

theorem resolvePath_append (h : tree.resolvePath front = .reached (some d) front.length)
    (others : List Text) :
    tree.resolvePath (front ++ others) = tree.descend d front.length others := by
  cases front with
  | nil => cases h
  | cons token front =>
    rw [List.length_cons, Nat.add_comm] at h ⊢
    rcases tree.first_cases token with ⟨first, follows⟩ | ⟨outcome, unreached, _, ends⟩
    · rw [follows] at h
      rw [List.cons_append, follows]
      exact descend_append h others
    · rw [ends] at h
      rw [h] at unreached
      cases unreached

/-- A path is ambiguous at a token, whatever stands behind it, when all tokens before it are
followed. -/
theorem exists_front_of_resolvePath
    (h : tree.resolvePath tokens = .failed reached (.ambiguousCommand token candidates path)) :
    ∃ front rest, tokens = front ++ token :: rest ∧
      tree.resolvePath front = .reached reached front.length ∧
      ∀ others, tree.resolvePath (front ++ token :: others) =
        .failed reached (.ambiguousCommand token candidates path) := by
  cases tokens with
  | nil => cases h
  | cons first rest =>
    rcases tree.first_cases first with ⟨start, follows⟩ | ⟨outcome, unreached, same, ends⟩
    · rw [follows] at h
      obtain ⟨front, rest, d, rfl, rfl, hfront, fails⟩ := exists_front_of_descend h
      have reaches : tree.resolvePath (first :: front) = .reached (some d) (first :: front).length := by
        rw [follows, hfront, List.length_cons, Nat.add_comm]
      refine ⟨first :: front, rest, rfl, reaches, ?_⟩
      intro others
      rw [resolvePath_append reaches, List.length_cons, Nat.add_comm]
      exact fails others
    · rw [ends] at h
      subst h
      obtain rfl : reached = none := unreached
      obtain rfl : token = first := same _ _ _ rfl
      exact ⟨[], rest, rfl, rfl, ends⟩

namespace Consistent

variable (consistent : tree.Consistent)
include consistent

theorem prefix_of_descend (held : tree.Holds c)
    (h : (tree.descend c consumed tokens).command = some d) : c.segments <+: d.segments := by
  induction tokens generalizing c consumed with
  | nil =>
    cases h
    exact List.prefix_refl _
  | cons token rest ih =>
    unfold descend at h
    split at h
    · cases h
      exact List.prefix_refl _
    · next child hm =>
      rw [held.below_eq_level, consistent.matching_level_eq_singleton_iff] at hm
      obtain ⟨inner, parent, _⟩ := hm
      have grown := consistent.segments_of_child inner held parent
      exact (grown ▸ List.prefix_append _ _).trans (ih inner h)
    · cases h
      exact List.prefix_refl _

theorem isPast_descend (held : tree.Holds c) (consumed : Nat) (rest : List Text) :
    (tree.descend c consumed rest).IsPast c.segments := by
  obtain ⟨d, ⟨_, ends⟩ | ⟨_, _, ends⟩⟩ := tree.descend_ends c consumed rest
  · have below := consistent.prefix_of_descend held (by rw [ends]; rfl)
    rw [ends]
    exact .reached below
  · have below := consistent.prefix_of_descend held (by rw [ends]; rfl)
    rw [ends]
    exact .failed below

/-- Behind tokens that are all followed, the name of a command directly below leads to it. -/
theorem resolvePath_of_standsBelow (hfront : tree.resolvePath front = .reached reached front.length)
    (below : tree.StandsBelow ((reached.map (·.segments)).getD []) c) (rest : List Text) :
    tree.resolvePath (front ++ c.name :: rest) = tree.descend c (front.length + 1) rest := by
  cases reached with
  | none =>
    obtain ⟨held, root⟩ := consistent.mem_level.mp (consistent.standsBelow_nil_iff.mp below)
    have populated := consistent.top_isEmpty_eq_false (List.ne_nil_of_mem held.mem)
    obtain rfl := eq_nil_of_resolvePath populated hfront
    have follows : tree.resolvePath (c.segments ++ rest) = tree.descend c c.segments.length rest :=
      consistent.resolvePath_segments_append held
    rw [consistent.segments_of_root held root] at follows
    exact follows
  | some d =>
    have above : tree.Holds d := consistent.holds_of_resolvePath (by rw [hfront]; rfl)
    obtain ⟨held, parent⟩ :=
      consistent.mem_level.mp ((consistent.standsBelow_segments_iff above).mp below)
    have hm : matching (tree.below d.toCommand) c.name = [c] := by
      rw [above.below_eq_level, consistent.matching_level_eq_singleton_iff]
      exact ⟨held, parent, consistent.name_ne_nil held, .inl rfl⟩
    rw [resolvePath_append hfront]
    simp only [descend, hm]

theorem segments_of_standsBelow (below : tree.StandsBelow path c) :
    tree.Holds c ∧ c.segments = path ++ [c.name] := by
  cases below with
  | top held root => exact ⟨held, consistent.segments_of_root held root⟩
  | child held above parent => exact ⟨held, consistent.segments_of_child held above parent⟩

theorem eq_of_standsBelow (hc : tree.StandsBelow path c) (hd : tree.StandsBelow path d)
    (hn : c.name = d.name) : c = d := by
  obtain ⟨heldc, hsc⟩ := consistent.segments_of_standsBelow hc
  obtain ⟨heldd, hsd⟩ := consistent.segments_of_standsBelow hd
  exact consistent.eq_of_segments_eq heldc heldd (by rw [hsc, hsd, hn])

theorem two_le_and_nodup_of_ambiguous (h : tree.Ambiguous token candidates path) :
    2 ≤ candidates.length ∧ candidates.Nodup := by
  cases h with
  | siblings several distinct mem _ =>
    refine ⟨by rwa [List.length_map], (List.nodup_map_iff_inj_on distinct).mpr ?_⟩
    intro a ha b hb hn
    exact consistent.eq_of_standsBelow ((mem a).mp ha).1 ((mem b).mp hb).1 hn
  | omitted several distinct mem _ =>
    refine ⟨by rwa [List.length_map], (List.nodup_map_iff_inj_on distinct).mpr ?_⟩
    intro a ha b hb hp
    exact consistent.eq_of_path_eq ((mem a).mp ha).1 ((mem b).mp hb).1 hp

theorem splitOn_name (held : tree.Holds c) : c.name.splitOn (unit '/') = [c.name] := by
  have plain := (consistent.named _ held.mem).slash_not_mem
  simpa [Text.join] using
    Text.splitOn_join (List.forall_mem_singleton.mpr plain) (List.cons_ne_nil _ _)

/-- A candidate is the name of a command directly below the path, or the path of one that was looked
for below all commands. -/
theorem exists_of_mem_candidates (h : tree.Ambiguous token candidates path) {candidate : Text}
    (hm : candidate ∈ candidates) :
    ∃ c, tree.Holds c ∧ token <+: c.name ∧
      (candidate = c.name ∧ tree.StandsBelow path c ∨ candidate = c.path ∧ path = []) := by
  cases h with
  | siblings _ _ mem _ =>
    obtain ⟨c, hc, rfl⟩ := List.mem_map.mp hm
    obtain ⟨below, begins⟩ := (mem c).mp hc
    exact ⟨c, (consistent.segments_of_standsBelow below).1, begins, .inl ⟨rfl, below⟩⟩
  | omitted _ _ mem _ =>
    obtain ⟨c, hc, rfl⟩ := List.mem_map.mp hm
    obtain ⟨held, _, named⟩ := (mem c).mp hc
    have begins : token <+: c.name := by
      rcases named with he | ⟨hp, _⟩
      · exact he ▸ List.prefix_refl _
      · exact hp
    exact ⟨c, held, begins, .inr ⟨rfl, rfl⟩⟩

/-- The segments of a candidate stand for the way from the path to its command. -/
theorem segments_of_candidate {candidate : Text} (held : tree.Holds c)
    (named : candidate = c.name ∧ tree.StandsBelow path c ∨ candidate = c.path ∧ path = []) :
    c.segments = path ++ candidate.splitOn (unit '/') ∧
      (candidate.splitOn (unit '/')).getLast? = some c.name := by
  rcases named with ⟨rfl, below⟩ | ⟨rfl, rfl⟩
  · rw [consistent.splitOn_name held]
    exact ⟨(consistent.segments_of_standsBelow below).2, rfl⟩
  · rw [consistent.splitOn_path held]
    exact ⟨rfl, consistent.getLast?_segments held⟩

/-- With a candidate's segments in place of the token, the path goes on past its command. -/
theorem isPast_of_candidate {candidate : Text} (held : tree.Holds c)
    (hfront : tree.resolvePath front = .reached reached front.length)
    (hpath : path = (reached.map (·.segments)).getD [])
    (named : candidate = c.name ∧ tree.StandsBelow path c ∨ candidate = c.path ∧ path = [])
    (rest : List Text) :
    (tree.resolvePath (front ++ candidate.splitOn (unit '/') ++ rest)).IsPast c.segments := by
  rcases named with ⟨rfl, below⟩ | ⟨rfl, rfl⟩
  · rw [consistent.splitOn_name held, List.append_assoc, List.singleton_append,
      consistent.resolvePath_of_standsBelow hfront (hpath ▸ below)]
    exact consistent.isPast_descend held _ rest
  · cases reached with
    | none =>
      have populated := consistent.top_isEmpty_eq_false (List.ne_nil_of_mem held.mem)
      obtain rfl := eq_nil_of_resolvePath populated hfront
      rw [List.nil_append, consistent.splitOn_path held,
        consistent.resolvePath_segments_append held]
      exact consistent.isPast_descend held _ rest
    | some d =>
      have above : tree.Holds d := consistent.holds_of_resolvePath (by rw [hfront]; rfl)
      exact absurd hpath.symm (consistent.segments_ne_nil above)

end Consistent

end CommandTree

open CommandTree

/-- In every compiled tree, an ambiguity can be resolved by each of its candidates. There are at least
two, all different, and the token begins the last segment of each. The tokens before the ambiguous
one are followed, and it is ambiguous there in every call; with the segments of a candidate in its
place, the path goes on past the command that these segments lead to from the path followed so
far. -/
theorem candidates_resolve_ambiguity {source : Text} {tree : CommandTree}
    (h : compile source = .ok tree) {tokens candidates path : List Text} {token : Text}
    {reached : Option PlacedCommand}
    (failed : tree.resolvePath tokens = .failed reached (.ambiguousCommand token candidates path)) :
    2 ≤ candidates.length ∧ candidates.Nodup ∧
    (∀ candidate ∈ candidates, ∃ last, (candidate.splitOn (unit '/')).getLast? = some last ∧
      token <+: last) ∧
    ∃ front rest, tokens = front ++ token :: rest ∧
      tree.resolvePath front = .reached reached front.length ∧
      (∀ others, tree.resolvePath (front ++ token :: others) =
        .failed reached (.ambiguousCommand token candidates path)) ∧
      ∀ candidate ∈ candidates, ∃ c, tree.Holds c ∧
        c.segments = path ++ candidate.splitOn (unit '/') ∧
        (candidate = c.name ∧ tree.StandsBelow path c ∨ candidate = c.path ∧ path = []) ∧
        (tree.resolvePath (front ++ candidate.splitOn (unit '/') ++ rest)).IsPast c.segments := by
  have consistent := consistent_of_compile h
  obtain ⟨_, _, _, ambiguous⟩ := consistent.ambiguous_of_resolvePath failed
  obtain ⟨several, distinct⟩ := consistent.two_le_and_nodup_of_ambiguous ambiguous
  obtain ⟨front, rest, htokens, hfront, fails⟩ := exists_front_of_resolvePath failed
  have hpath : path = (reached.map (·.segments)).getD [] := path_of_resolvePath failed
  refine ⟨several, distinct, ?_, front, rest, htokens, hfront, fails, ?_⟩
  · intro candidate hm
    obtain ⟨c, held, begins, named⟩ := consistent.exists_of_mem_candidates ambiguous hm
    exact ⟨c.name, (consistent.segments_of_candidate held named).2, begins⟩
  · intro candidate hm
    obtain ⟨c, held, _, named⟩ := consistent.exists_of_mem_candidates ambiguous hm
    exact ⟨c, held, (consistent.segments_of_candidate held named).1, named,
      consistent.isPast_of_candidate held hfront hpath named rest⟩

/-- Two names with one beginning, below a command that is abbreviated itself. -/
theorem ambiguous_names_resolved :
    ∃ tree user list, compile "cmd user lint\ncmd user list" = .ok tree ∧
      tree.resolvePath ["us", "li", "x"] =
        .failed (some user) (.ambiguousCommand "li" ["lint", "list"] ["user"]) ∧
      tree.Holds list ∧ list.segments = ["user", "list"] ∧
      (tree.resolvePath ["us", "list", "x"]).IsPast ["user", "list"] := by
  let user : PlacedCommand :=
    ⟨commandOf { DeclarationTree.bareCommand 0 none "user" 1 with children := [1, 2] } ["user"] [], 0⟩
  let lint : Command := commandOf (DeclarationTree.bareCommand 1 (some 0) "lint" 1) ["user", "lint"] []
  let list : Command := commandOf (DeclarationTree.bareCommand 2 (some 0) "list" 2) ["user", "list"] []
  let tree : CommandTree := ⟨none, [], [], [user.toCommand, lint, list], [0], [], []⟩
  have h : compile "cmd user lint\ncmd user list" = .ok tree := by decide +kernel
  have failed : tree.resolvePath ["us", "li", "x"] =
      .failed (some user) (.ambiguousCommand "li" ["lint", "list"] ["user"]) := by decide +kernel
  obtain ⟨_, _, _, front, rest, tokens_eq, _, _, resolves⟩ := candidates_resolve_ambiguity h failed
  obtain ⟨c, held, hsegments, _, past⟩ := resolves "list" (by decide)
  have hsegments : c.segments = ["user", "list"] := hsegments
  rw [hsegments] at past
  match front, tokens_eq, past with
  | [_], rfl, past => exact ⟨tree, user, c, h, failed, held, hsegments, past⟩
  | [], tokens_eq, _ => exact absurd (List.cons.inj tokens_eq).1 (by decide)
  | [_, _], tokens_eq, _ => cases tokens_eq
  | _ :: _ :: _ :: _, tokens_eq, _ => simp at tokens_eq

end CommandLanguage

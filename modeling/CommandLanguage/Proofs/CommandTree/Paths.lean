import CommandLanguage.Proofs.CommandTree.Placed

/-!
# Paths of commands

The path of a command joins its segments with slashes, and no name holds a slash: the segments can
be read off the path again, so different commands have different paths and sorting by path puts
them in a strict order.
-/

set_option autoImplicit false

namespace CommandLanguage

namespace Text

theorem IsIdentifier.slash_not_mem {name : Text} (h : IsIdentifier name) : unit '/' ∉ name := by
  cases name with
  | nil => exact h.elim
  | cons u rest =>
    obtain ⟨hu, hrest⟩ := h
    intro hm
    rcases List.mem_cons.mp hm with he | hm
    · rw [← he] at hu
      exact absurd hu (by decide)
    · exact absurd (hrest _ hm) (by decide)

theorem splitOn_join {segments : List Text} (h : ∀ s ∈ segments, unit '/' ∉ s)
    (nonempty : segments ≠ []) : (join "/" segments).splitOn (unit '/') = segments :=
  List.splitOn_intercalate (unit '/') h nonempty

end Text

namespace CommandTree

variable {tree : CommandTree} {c d : PlacedCommand}

/-- Things of different paths are sorted by path into a strict order. -/
theorem pairwise_sortByPath {α : Type} {path : α → Text} {things : List α} (distinct : things.Nodup)
    (differ : ∀ a ∈ things, ∀ b ∈ things, path a = path b → a = b) :
    ((sortByPath path things).map path).Pairwise (· < ·) := by
  have sorted : (sortByPath path things).Pairwise fun a b =>
      Text.precedesOrEquals (path a) (path b) = true := by
    apply List.pairwise_mergeSort
    · intro a b c hab hbc
      simp only [Text.precedesOrEquals, Bool.not_eq_true', decide_eq_false_iff_not] at hab hbc ⊢
      exact List.le_trans hab hbc
    · intro a b
      simp only [Text.precedesOrEquals, Bool.or_eq_true, Bool.not_eq_true', decide_eq_false_iff_not]
      exact List.le_total (path a) (path b)
  have perm : (sortByPath path things).Perm things := List.mergeSort_perm _ _
  rw [List.pairwise_map]
  refine (sorted.and (perm.nodup_iff.mpr distinct)).imp_of_mem ?_
  rintro a b ha hb ⟨hle, hne⟩
  have hle : path a ≤ path b := by simpa [Text.precedesOrEquals] using hle
  refine Std.lt_of_le_of_ne hle fun he => hne ?_
  exact differ a (perm.mem_iff.mp ha) b (perm.mem_iff.mp hb) he

namespace Consistent

variable (consistent : tree.Consistent)
include consistent

theorem isIdentifier_of_mem_segments (held : tree.Holds c) :
    ∀ s ∈ c.segments, Text.IsIdentifier s := by
  obtain ⟨above, hline⟩ := consistent.exists_line held
  rw [← consistent.names_of_line hline, List.forall_mem_map]
  intro d hd
  exact consistent.named _ (hline.forall_holds d hd).mem

theorem slash_not_mem_segments (held : tree.Holds c) : ∀ s ∈ c.segments, unit '/' ∉ s :=
  fun s hs => (consistent.isIdentifier_of_mem_segments held s hs).slash_not_mem

theorem segments_ne_nil (held : tree.Holds c) : c.segments ≠ [] :=
  (consistent.climbs _ _ held).ne_nil

theorem eq_of_segments_eq (hc : tree.Holds c) (hd : tree.Holds d)
    (h : c.segments = d.segments) : c = d :=
  hc.eq_of_position_eq hd
    (consistent.forest.eq_of_climbs (consistent.climbs _ _ hc) (consistent.climbs _ _ hd) h)

theorem splitOn_path (held : tree.Holds c) : c.path.splitOn (unit '/') = c.segments :=
  Text.splitOn_join (consistent.slash_not_mem_segments held) (consistent.segments_ne_nil held)

theorem eq_of_path_eq (hc : tree.Holds c) (hd : tree.Holds d) (h : c.path = d.path) : c = d := by
  refine consistent.eq_of_segments_eq hc hd ?_
  rw [← consistent.splitOn_path hc, ← consistent.splitOn_path hd, h]

end Consistent

end CommandTree

end CommandLanguage

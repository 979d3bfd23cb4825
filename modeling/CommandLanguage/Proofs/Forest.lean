import CommandLanguage.Text.Basic
import Mathlib.Data.List.Nodup
import Mathlib.Data.List.Perm.Basic
import Mathlib.Logic.Relation

/-!
# Forests of named nodes

Commands refer to each other by position, in both directions. `Forest` says that the references
agree, that parents stand before their children and that siblings have different names. Climbing
to the top and walking down from it then end, whatever bound is put on them: `Climbs` and `Visits`
are the unbounded procedures, as relations between where they start and what they yield.
-/

set_option autoImplicit false

namespace CommandLanguage

/-- What places a command among the others. -/
structure Node where
  id : Nat
  name : Text
  parent : Option Nat
  children : List Nat

namespace Node

variable (nodes : List Node)

def IsChild (child parent : Nat) : Prop :=
  ∃ node, nodes[child]? = some node ∧ node.parent = some parent

def IsBelow : Nat → Nat → Prop := Relation.TransGen (IsChild nodes)

/-- The positions directly below a parent; without a parent, those at the top. -/
def level (roots : List Nat) : Option Nat → List Nat
  | none => roots
  | some p => (nodes[p]?.map (·.children)).getD []

/-- What never changes about a node; only its list of children may grow. -/
def label (node : Node) : Nat × Text × Option Nat := (node.id, node.name, node.parent)

/-- Climbing from a position ends at the top; the names are listed from the top down. -/
inductive Climbs : Nat → List Text → Prop where
  | top {i : Nat} {node : Node} (here : nodes[i]? = some node) (root : node.parent = none) :
      Climbs i [node.name]
  | step {i p : Nat} {node : Node} {names : List Text} (here : nodes[i]? = some node)
      (parent : node.parent = some p) (above : Climbs p names) : Climbs i (names ++ [node.name])

/-- Visiting some positions, each followed by all positions below it, ends. -/
inductive Visits : List Nat → List Nat → Prop where
  | nil : Visits [] []
  | cons {i : Nat} {node : Node} {rest inner outer : List Nat} (here : nodes[i]? = some node)
      (children : Visits node.children inner) (others : Visits rest outer) :
      Visits (i :: rest) (i :: (inner ++ outer))

variable {nodes}

theorem isChild_rightUnique : Relator.RightUnique (IsChild nodes) := by
  rintro i p q ⟨node, hi, hp⟩ ⟨other, hj, hq⟩
  rw [hi] at hj
  cases hj
  rw [hp] at hq
  cases hq
  rfl

theorem IsChild.lt_length {i p : Nat} (h : IsChild nodes i p) : i < nodes.length := by
  obtain ⟨node, hi, _⟩ := h
  exact (List.getElem?_eq_some_iff.mp hi).1

theorem Climbs.ne_nil {i : Nat} {names : List Text} (h : Climbs nodes i names) : names ≠ [] := by
  cases h <;> simp

theorem Climbs.lt_length {i : Nat} {names : List Text} (h : Climbs nodes i names) :
    i < nodes.length := by
  cases h with
  | top here _ => exact (List.getElem?_eq_some_iff.mp here).1
  | step here _ _ => exact (List.getElem?_eq_some_iff.mp here).1

theorem Climbs.unique {i : Nat} {s t : List Text} (hs : Climbs nodes i s)
    (ht : Climbs nodes i t) : s = t := by
  induction hs generalizing t with
  | top here root =>
    cases ht with
    | top here' _ => rw [here] at here'; cases here'; rfl
    | step here' parent _ => rw [here] at here'; cases here'; rw [root] at parent; cases parent
  | step here parent _ ih =>
    cases ht with
    | top here' root => rw [here] at here'; cases here'; rw [root] at parent; cases parent
    | step here' parent' above' =>
      rw [here] at here'
      cases here'
      rw [parent] at parent'
      cases parent'
      rw [ih above']

theorem Visits.unique {ids v w : List Nat} (hv : Visits nodes ids v) (hw : Visits nodes ids w) :
    v = w := by
  induction hv generalizing w with
  | nil => cases hw; rfl
  | cons here _ _ ihc iho =>
    cases hw with
    | cons here' children' others' =>
      rw [here] at here'
      cases here'
      rw [ihc children', iho others']

end Node

open Node

/-- Nodes and the positions at the top, with references that agree. -/
structure Forest (nodes : List Node) (roots : List Nat) : Prop where
  id_eq : ∀ {i : Nat} {node : Node}, nodes[i]? = some node → node.id = i
  parent_lt : ∀ {i p : Nat}, IsChild nodes i p → p < i
  mem_level : ∀ {parent : Option Nat} {i : Nat},
    i ∈ level nodes roots parent ↔ ∃ node, nodes[i]? = some node ∧ node.parent = parent
  ascending : ∀ parent : Option Nat, (level nodes roots parent).Pairwise (· < ·)
  eq_of_name_eq : ∀ {i j : Nat} {a b : Node}, nodes[i]? = some a → nodes[j]? = some b →
    a.parent = b.parent → a.name = b.name → i = j

namespace Forest

variable {nodes : List Node} {roots : List Nat} (f : Forest nodes roots)
include f

theorem mem_roots {i : Nat} : i ∈ roots ↔ ∃ node, nodes[i]? = some node ∧ node.parent = none := by
  have h : i ∈ level nodes roots none ↔ _ := f.mem_level
  exact h

theorem mem_children {p i : Nat} {above : Node} (hp : nodes[p]? = some above) :
    i ∈ above.children ↔ IsChild nodes i p := by
  have h : i ∈ level nodes roots (some p) ↔ _ := f.mem_level
  simpa [level, hp, IsChild] using h

theorem nodup_level (parent : Option Nat) : (level nodes roots parent).Nodup :=
  (f.ascending parent).imp fun h => Nat.ne_of_lt h

theorem nodup_children {p : Nat} {above : Node} (hp : nodes[p]? = some above) :
    above.children.Nodup := by
  simpa [level, hp] using f.nodup_level (some p)

theorem lt_of_isBelow {i j : Nat} (h : IsBelow nodes i j) : j < i := by
  induction h with
  | single h => exact f.parent_lt h
  | tail _ h ih => exact Nat.lt_trans (f.parent_lt h) ih

/-- Different nodes have different paths. -/
theorem eq_of_climbs {i j : Nat} {s t : List Text} (hi : Climbs nodes i s)
    (hj : Climbs nodes j t) (h : s = t) : i = j := by
  induction hi generalizing j t with
  | top here root =>
    cases hj with
    | top here' root' =>
      exact f.eq_of_name_eq here here' (root.trans root'.symm) (List.singleton_inj.mp h)
    | step here' parent above =>
      rcases List.singleton_eq_append_iff.mp h with ⟨hn, _⟩ | ⟨_, hn⟩
      · exact absurd hn above.ne_nil
      · cases hn
  | step here parent above ih =>
    cases hj with
    | top here' root' =>
      rcases List.singleton_eq_append_iff.mp h.symm with ⟨hn, _⟩ | ⟨_, hn⟩
      · exact absurd hn above.ne_nil
      · cases hn
    | step here' parent' above' =>
      obtain ⟨hn, hl⟩ := List.append_inj' h rfl
      have hp := ih above' hn
      subst hp
      exact f.eq_of_name_eq here here' (parent.trans parent'.symm) (List.singleton_inj.mp hl)

/-- Of two siblings at most one stands above a given node. -/
theorem eq_of_reaches {parent : Option Nat} {i j k : Nat} {a b : Node}
    (ha : nodes[i]? = some a) (hb : nodes[j]? = some b) (hap : a.parent = parent)
    (hbp : b.parent = parent) (hki : Relation.ReflTransGen (IsChild nodes) k i)
    (hkj : Relation.ReflTransGen (IsChild nodes) k j) : i = j := by
  have le {x y : Nat} (h : Relation.ReflTransGen (IsChild nodes) x y) : y ≤ x := by
    rcases Relation.reflTransGen_iff_eq_or_transGen.mp h with rfl | h
    · exact Nat.le_refl _
    · exact Nat.le_of_lt (f.lt_of_isBelow h)
  -- One of the two stands above the other, and then also above or at the common parent.
  have same {x y : Nat} {u v : Node} (hu : nodes[x]? = some u) (hv : nodes[y]? = some v)
      (hup : u.parent = parent) (hvp : v.parent = parent)
      (h : Relation.ReflTransGen (IsChild nodes) x y) : x = y := by
    rcases h.cases_head with rfl | ⟨p, ⟨u', hu', hp⟩, h⟩
    · rfl
    · rw [hu] at hu'
      cases hu'
      have hpy : p < y := f.parent_lt ⟨v, hv, hvp.trans (hup.symm.trans hp)⟩
      exact absurd (le h) (Nat.not_le.mpr hpy)
  rcases Relation.ReflTransGen.total_of_right_unique isChild_rightUnique hki hkj with h | h
  · exact same ha hb hap hbp h
  · exact (same hb ha hbp hap h).symm

theorem mem_visits {ids visited : List Nat} (h : Visits nodes ids visited) {j : Nat} :
    j ∈ visited ↔ ∃ i ∈ ids, Relation.ReflTransGen (IsChild nodes) j i := by
  induction h with
  | nil => simp
  | @cons i node rest inner outer here _ _ ihc iho =>
    simp only [List.mem_cons, List.mem_append, ihc, iho, exists_eq_or_imp]
    have hc : (∃ c ∈ node.children, Relation.ReflTransGen (IsChild nodes) j c) ↔
        Relation.TransGen (IsChild nodes) j i := by
      simp only [f.mem_children here, Relation.TransGen.tail'_iff, and_comm]
    rw [hc, Relation.reflTransGen_iff_eq_or_transGen, ← or_assoc, eq_comm]

theorem nodup_visits {parent : Option Nat} {ids visited : List Nat}
    (h : Visits nodes ids visited) (distinct : ids.Nodup)
    (siblings : ∀ i ∈ ids, ∃ node, nodes[i]? = some node ∧ node.parent = parent) :
    visited.Nodup := by
  induction h generalizing parent with
  | nil => exact List.nodup_nil
  | @cons i node rest inner outer here hc ho ihc iho =>
    obtain ⟨hi, hrest⟩ := List.nodup_cons.mp distinct
    obtain ⟨a, ha, hap⟩ := siblings i List.mem_cons_self
    have houter := iho hrest fun j hj => siblings j (List.mem_cons_of_mem i hj)
    have hinner := ihc (f.nodup_children here) fun c hc => (f.mem_children here).mp hc
    -- Nothing below this node is below one of the siblings behind it.
    have apart {j : Nat} (hj : Relation.ReflTransGen (IsChild nodes) j i) : j ∉ outer := by
      intro hm
      obtain ⟨k, hk, hjk⟩ := (f.mem_visits ho).mp hm
      obtain ⟨b, hb, hbp⟩ := siblings k (List.mem_cons_of_mem i hk)
      have := f.eq_of_reaches ha hb hap hbp hj hjk
      exact hi (this ▸ hk)
    have below {j : Nat} (hj : j ∈ inner) : IsBelow nodes j i := by
      obtain ⟨c, hc, hjc⟩ := (f.mem_visits hc).mp hj
      exact Relation.TransGen.tail' hjc ((f.mem_children here).mp hc)
    refine List.nodup_cons.mpr ⟨?_, List.nodup_append.mpr ⟨hinner, houter, ?_⟩⟩
    · intro hm
      rcases List.mem_append.mp hm with hm | hm
      · exact Nat.lt_irrefl i (f.lt_of_isBelow (below hm))
      · exact apart .refl hm
    · rintro j hj k hk rfl
      exact apart (below hj).to_reflTransGen hk

/-- What stands below a visited position is visited later. -/
theorem visits_in_order {ids visited : List Nat} (h : Visits nodes ids visited) {i j : Nat}
    (hi : i ∈ visited) (hj : IsBelow nodes j i) : [i, j].Sublist visited := by
  induction h with
  | nil => cases hi
  | @cons k node rest inner outer here hc ho ihc iho =>
    rcases List.mem_cons.mp hi with rfl | hi
    · have hm : j ∈ i :: (inner ++ outer) :=
        (f.mem_visits (.cons here hc ho)).mpr ⟨i, List.mem_cons_self, hj.to_reflTransGen⟩
      have hne : j ≠ i := (Nat.ne_of_lt (f.lt_of_isBelow hj)).symm
      refine List.Sublist.cons_cons i (List.singleton_sublist.mpr ?_)
      exact (List.mem_cons.mp hm).resolve_left hne
    · refine List.Sublist.cons k ?_
      rcases List.mem_append.mp hi with hi | hi
      · exact (ihc hi).trans (List.sublist_append_left inner outer)
      · exact (iho hi).trans (List.sublist_append_right inner outer)

theorem reaches_root {j : Nat} (h : j < nodes.length) :
    ∃ i ∈ roots, Relation.ReflTransGen (IsChild nodes) j i := by
  induction j using Nat.strongRecOn with
  | ind j ih =>
    have hj := List.getElem?_eq_getElem h
    cases hp : nodes[j].parent with
    | none => exact ⟨j, f.mem_roots.mpr ⟨_, hj, hp⟩, .refl⟩
    | some p =>
      have hjp : IsChild nodes j p := ⟨_, hj, hp⟩
      have hlt := f.parent_lt hjp
      obtain ⟨i, hi, hpi⟩ := ih p hlt (Nat.lt_trans hlt h)
      exact ⟨i, hi, .head hjp hpi⟩

theorem eq_level {parent : Option Nat} {ids : List Nat} (ascending : ids.Pairwise (· < ·))
    (mem : ∀ i, i ∈ ids ↔ ∃ node, nodes[i]? = some node ∧ node.parent = parent) :
    ids = level nodes roots parent := by
  have distinct : ids.Nodup := ascending.imp fun h => Nat.ne_of_lt h
  have perm : ids.Perm (level nodes roots parent) := by
    rw [List.perm_ext_iff_of_nodup distinct (f.nodup_level parent)]
    intro i
    rw [mem, f.mem_level]
  exact perm.eq_of_pairwise (fun a b _ _ hab hba => absurd hab (Nat.lt_asymm hba)) ascending
    (f.ascending parent)

/-- Walking down from the top visits every position once. -/
theorem visits_perm {visited : List Nat} (h : Visits nodes roots visited) :
    visited.Perm (List.range nodes.length) := by
  have hnd := f.nodup_visits h (f.nodup_level none) fun i hi => f.mem_roots.mp hi
  refine (List.perm_ext_iff_of_nodup hnd List.nodup_range).mpr fun j => ?_
  rw [f.mem_visits h, List.mem_range]
  constructor
  · rintro ⟨i, hi, hji⟩
    rcases hji.cases_head with rfl | ⟨p, hp, _⟩
    · obtain ⟨node, hn, _⟩ := f.mem_roots.mp hi
      exact (List.getElem?_eq_some_iff.mp hn).1
    · exact hp.lt_length
  · exact f.reaches_root

end Forest

section Paths
variable {nodes others : List Node} {roots otherRoots : List Nat}
variable (paths : ∀ i, i < nodes.length → ∃ path, Climbs nodes i path ∧ Climbs others i path)
include paths

theorem labels_eq_of_paths (g : Forest others otherRoots) {i : Nat} {a b : Node}
    (ha : nodes[i]? = some a) (hb : others[i]? = some b) : a.name = b.name ∧ a.parent = b.parent := by
  obtain ⟨path, hn, ho⟩ := paths i (List.getElem?_eq_some_iff.mp ha).1
  cases hn with
  | top here root =>
    cases ha.symm.trans here
    generalize he : [a.name] = path at ho
    cases ho with
    | top here' root' =>
      cases hb.symm.trans here'
      exact ⟨List.singleton_inj.mp he, root.trans root'.symm⟩
    | step here' parent above =>
      rcases List.singleton_eq_append_iff.mp he with ⟨hn, _⟩ | ⟨_, hn⟩
      · exact absurd hn above.ne_nil
      · cases hn
  | @step _ p _ names here parent above =>
    cases ha.symm.trans here
    generalize he : names ++ [a.name] = path at ho
    cases ho with
    | top here' root' =>
      rcases List.singleton_eq_append_iff.mp he.symm with ⟨hn, _⟩ | ⟨_, hn⟩
      · exact absurd hn above.ne_nil
      · cases hn
    | step here' parent' above' =>
      cases hb.symm.trans here'
      obtain ⟨hnames, hl⟩ := List.append_inj' he rfl
      obtain ⟨other, hp, hq⟩ := paths p above.lt_length
      have hother : other = _ := (hp.unique above).trans hnames
      rw [parent, parent', g.eq_of_climbs hq above' hother]
      exact ⟨List.singleton_inj.mp hl, rfl⟩

/-- The paths determine a forest. -/
theorem Forest.eq_of_paths (f : Forest nodes roots) (g : Forest others otherRoots)
    (length : nodes.length = others.length) : nodes = others ∧ roots = otherRoots := by
  have levels (parent : Option Nat) : level nodes roots parent = level others otherRoots parent := by
    apply g.eq_level (f.ascending parent)
    intro i
    rw [f.mem_level]
    constructor
    · rintro ⟨a, ha, hp⟩
      have hi := (List.getElem?_eq_some_iff.mp ha).1
      have hb := List.getElem?_eq_getElem (length ▸ hi)
      exact ⟨_, hb, (labels_eq_of_paths paths g ha hb).2.symm.trans hp⟩
    · rintro ⟨b, hb, hp⟩
      have hi := (List.getElem?_eq_some_iff.mp hb).1
      have ha := List.getElem?_eq_getElem (length.symm ▸ hi)
      exact ⟨_, ha, (labels_eq_of_paths paths g ha hb).2.trans hp⟩
  refine ⟨List.ext_getElem length fun i hi hj => ?_, levels none⟩
  have ha := List.getElem?_eq_getElem hi
  have hb := List.getElem?_eq_getElem hj
  have children := levels (some i)
  simp only [level, ha, hb, Option.map_some, Option.getD_some] at children
  obtain ⟨hn, hp⟩ := labels_eq_of_paths paths g ha hb
  have hid := (f.id_eq ha).trans (g.id_eq hb).symm
  generalize nodes[i] = a at hn hp hid children ⊢
  generalize others[i] = b at hn hp hid children ⊢
  cases a
  cases b
  rw [Node.mk.injEq]
  exact ⟨hid, hn, hp, children⟩

end Paths

section Growth
variable {nodes grown : List Node} {roots grownRoots : List Nat} {name : Text} {parent : Option Nat}
variable (labels : grown.map label = nodes.map label ++ [(nodes.length, name, parent)])
include labels

theorem origin_of_grown {i : Nat} {b : Node} (h : grown[i]? = some b) :
    (∃ a, nodes[i]? = some a ∧ a.id = b.id ∧ a.name = b.name ∧ a.parent = b.parent) ∨
      i = nodes.length ∧ b.id = nodes.length ∧ b.name = name ∧ b.parent = parent := by
  have hb : (grown.map label)[i]? = some b.label := by rw [List.getElem?_map, h]; rfl
  rw [labels, List.getElem?_append, List.length_map] at hb
  split at hb
  · exact .inl (by simpa [label] using hb)
  · obtain ⟨hi, he⟩ := List.getElem?_eq_some_iff.mp hb
    rw [List.length_singleton] at hi
    simp only [List.getElem_singleton, label, Prod.mk.injEq] at he
    exact .inr ⟨by omega, he.1.symm, he.2.1.symm, he.2.2.symm⟩

theorem exists_grown {i : Nat} {a : Node} (h : nodes[i]? = some a) :
    ∃ b, grown[i]? = some b ∧ b.name = a.name ∧ b.parent = a.parent := by
  have hi := (List.getElem?_eq_some_iff.mp h).1
  have hb : (grown.map label)[i]? = some a.label := by
    rw [labels, List.getElem?_append_left (by simpa using hi), List.getElem?_map, h]
    rfl
  rw [List.getElem?_map] at hb
  obtain ⟨b, hb, he⟩ := Option.map_eq_some_iff.mp hb
  exact ⟨b, hb, congrArg (·.2.1) he, congrArg (·.2.2) he⟩

theorem exists_added : ∃ b, grown[nodes.length]? = some b ∧ b.name = name ∧ b.parent = parent := by
  have hb : (grown.map label)[nodes.length]? = some (nodes.length, name, parent) := by
    rw [labels, List.getElem?_append_right (by simp)]
    simp
  rw [List.getElem?_map] at hb
  obtain ⟨b, hb, he⟩ := Option.map_eq_some_iff.mp hb
  exact ⟨b, hb, congrArg (·.2.1) he, congrArg (·.2.2) he⟩

/-- Growing changes no path. -/
theorem climbs_grown {i : Nat} {path : List Text} (h : Climbs nodes i path) :
    Climbs grown i path := by
  induction h with
  | top here root =>
    obtain ⟨b, hb, hn, hp⟩ := exists_grown labels here
    rw [← hn]
    exact .top hb (hp.trans root)
  | step here parent _ ih =>
    obtain ⟨b, hb, hn, hp⟩ := exists_grown labels here
    rw [← hn]
    exact .step hb (hp.trans parent) ih

theorem climbs_added {above : List Text}
    (path : match parent with
      | none => above = []
      | some p => Climbs nodes p above) : Climbs grown nodes.length (above ++ [name]) := by
  obtain ⟨b, hb, rfl, hp⟩ := exists_added labels
  cases parent with
  | none =>
    subst path
    exact .top hb hp
  | some p => exact .step hb hp (climbs_grown labels path)

/-- A forest may grow by a node below an existing parent that has no child of its name. -/
theorem Forest.grow (f : Forest nodes roots)
    (levels : ∀ q : Option Nat, level grown grownRoots q =
      level nodes roots q ++ if q = parent then [nodes.length] else [])
    (placed : ∀ p : Nat, parent = some p → p < nodes.length)
    (fresh : ∀ (i : Nat) (a : Node), nodes[i]? = some a → a.parent = parent → a.name ≠ name) :
    Forest grown grownRoots where
  id_eq := by
    intro i b hb
    rcases origin_of_grown labels hb with ⟨a, ha, hid, _⟩ | ⟨rfl, hid, _⟩
    · exact hid.symm.trans (f.id_eq ha)
    · exact hid
  parent_lt := by
    rintro i p ⟨b, hb, hp⟩
    rcases origin_of_grown labels hb with ⟨a, ha, _, _, hq⟩ | ⟨rfl, _, _, hq⟩
    · exact f.parent_lt ⟨a, ha, hq.trans hp⟩
    · exact placed p (hq.symm.trans hp)
  mem_level := by
    intro q i
    rw [levels, List.mem_append, f.mem_level]
    constructor
    · rintro (⟨a, ha, hq⟩ | hi)
      · obtain ⟨b, hb, _, hp⟩ := exists_grown labels ha
        exact ⟨b, hb, hp.trans hq⟩
      · split at hi
        · next hq =>
          obtain ⟨b, hb, _, hp⟩ := exists_added labels
          rw [List.mem_singleton.mp hi]
          exact ⟨b, hb, hp.trans hq.symm⟩
        · cases hi
    · rintro ⟨b, hb, hq⟩
      rcases origin_of_grown labels hb with ⟨a, ha, _, _, hp⟩ | ⟨rfl, _, _, hp⟩
      · exact .inl ⟨a, ha, hp.trans hq⟩
      · rw [if_pos (hq.symm.trans hp)]
        exact .inr List.mem_cons_self
  ascending := by
    intro q
    rw [levels, List.pairwise_append]
    refine ⟨f.ascending q, by split <;> simp, ?_⟩
    intro i hi j hj
    obtain ⟨a, ha, _⟩ := f.mem_level.mp hi
    split at hj
    · rw [List.mem_singleton.mp hj]
      exact (List.getElem?_eq_some_iff.mp ha).1
    · cases hj
  eq_of_name_eq := by
    intro i j b c hb hc hp hn
    rcases origin_of_grown labels hb with ⟨a, ha, _, hbn, hbp⟩ | ⟨rfl, _, hbn, hbp⟩ <;>
      rcases origin_of_grown labels hc with ⟨d, hd, _, hcn, hcp⟩ | ⟨rfl, _, hcn, hcp⟩
    · exact f.eq_of_name_eq ha hd (by rw [hbp, hcp, hp]) (by rw [hbn, hcn, hn])
    · exact absurd (by rw [hbn, hn, hcn]) (fresh i a ha (by rw [hbp, hp, hcp]))
    · exact absurd (by rw [hcn, ← hn, hbn]) (fresh j d hd (by rw [hcp, ← hp, hbp]))
    · rfl

end Growth

end CommandLanguage

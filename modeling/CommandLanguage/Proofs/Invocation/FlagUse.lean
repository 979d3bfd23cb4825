import CommandLanguage.Invocation.Parameters
import CommandLanguage.Proofs.CommandTree.Consistent
import Mathlib.Data.List.Induction
import Mathlib.Data.List.Pairwise
import Mathlib.Logic.Function.Basic

/-!
# Flags as they are given

Flags that share no name and no short alias share no spelling either, since identifiers do not
begin with a dash. The values of flags are a table with one row for each flag, and giving a flag
changes its row.
-/

set_option autoImplicit false

namespace CommandLanguage

open Text

/-- A flag as it stands in an argument vector, and the text behind it if it takes one. -/
structure FlagUse where
  flag : Flag
  token : Text
  text : Text

namespace FlagUse

/-- A flag of kind `bool` is one token; one of kind `string` is followed by its text. -/
def tokens (use : FlagUse) : List Text :=
  match use.flag.kind with
  | .bool => [use.token]
  | .string => [use.token, use.text]

def value (use : FlagUse) : FlagValue :=
  match use.flag.kind with
  | .bool => .bool true
  | .string => .string use.text

/-- The value that the last use of a flag gives; without a use, that of a flag not given. -/
def lastValue (uses : List FlagUse) (flag : Flag) : FlagValue :=
  ((uses.filter (·.flag = flag)).getLast?.map (·.value)).getD flag.kind.zero

theorem lastValue_of_unused {uses : List FlagUse} {flag : Flag}
    (h : ∀ use ∈ uses, use.flag ≠ flag) : lastValue uses flag = flag.kind.zero := by
  have hnone : uses.filter (·.flag = flag) = [] := by
    simpa [List.filter_eq_nil_iff] using h
  rw [lastValue, hnone]
  rfl

theorem lastValue_append (uses : List FlagUse) (use : FlagUse) :
    lastValue (uses ++ [use]) = Function.update (lastValue uses) use.flag use.value := by
  funext flag
  by_cases h : use.flag = flag
  · subst h
    simp [lastValue]
  · have hne : flag ≠ use.flag := fun he => h he.symm
    rw [Function.update_of_ne hne]
    simp [lastValue, h]

end FlagUse

namespace Flag

variable {flag other : Flag} {token : Text}

theorem isGivenBy_iff : flag.isGivenBy token = true ↔
    token = longForm flag.name ∨ ∃ short, flag.short = some short ∧ token = shortForm short := by
  simp [isGivenBy, Option.any_eq_true]

theorem longForm_eq (name : Text) : longForm name = unit '-' :: unit '-' :: name := rfl

theorem shortForm_eq (short : Text) : shortForm short = unit '-' :: short := rfl

theorem longForm_ne_shortForm {name short : Text} (h : IsIdentifier short) :
    longForm name ≠ shortForm short := by
  rw [longForm_eq, shortForm_eq]
  intro he
  have hs := (List.cons.inj he).2
  exact h.head?_ne_dash (by rw [← hs]; rfl)

/-- Whatever gives a flag begins with a dash and goes on. -/
theorem isFlagShaped_of_isGivenBy (named : CommandTree.NamedFlag flag)
    (h : flag.isGivenBy token = true) : isFlagShaped token = true := by
  rcases isGivenBy_iff.mp h with rfl | ⟨short, hs, rfl⟩
  · simp [isFlagShaped, longForm_eq]
  · have hne := (named.short short hs).ne_nil
    have hpos := List.length_pos_iff.mpr hne
    simp [isFlagShaped, shortForm_eq, hpos]

/-- A token that is not shaped like a flag gives none. -/
theorem find?_eq_none_of_plain {flags : List Flag} (named : ∀ flag ∈ flags, CommandTree.NamedFlag flag)
    (plain : isFlagShaped token = false) : flags.find? (·.isGivenBy token) = none := by
  apply List.find?_eq_none.mpr
  intro flag hf given
  have shaped := isFlagShaped_of_isGivenBy (named flag hf) given
  rw [plain] at shaped
  cases shaped

theorem isFlagShaped_eq_false {name : Text} (h : IsIdentifier name) :
    isFlagShaped name = false := by
  have hne := h.head?_ne_dash
  cases name with
  | nil => rfl
  | cons u rest =>
    have hu : (unit '-' == u) = false := beq_eq_false_iff_ne.mpr fun he => hne (he ▸ rfl)
    rw [isFlagShaped, List.isPrefixOf, hu, Bool.false_and, Bool.and_false]

end Flag

namespace CommandTree

open CommandLanguage.Flag

variable {flags : List Flag} {flag other : Flag} {token : Text}

theorem Unshared.eq_of_short_eq (unshared : Unshared flags) (hf : flag ∈ flags)
    (ho : other ∈ flags) {short : Text} (hs : flag.short = some short)
    (ht : other.short = some short) : flag = other := by
  by_contra hne
  have hp := List.pairwise_filterMap.mp unshared.shorts
  have hsymm : Std.Symm fun f g : Flag =>
      ∀ a, f.short = some a → ∀ b, g.short = some b → a ≠ b :=
    ⟨fun f g h a ha b hb => (h b hb a ha).symm⟩
  exact hp.forall hf ho hne short hs short ht rfl

theorem Unshared.of_append_right {others : List Flag} (unshared : Unshared (others ++ flags)) :
    Unshared flags :=
  ⟨unshared.names.sublist ((List.sublist_append_right others flags).map _),
    unshared.shorts.sublist ((List.sublist_append_right others flags).filterMap _)⟩

/-- Of flags that share no name and no alias, a token gives at most one. -/
theorem Unshared.eq_of_isGivenBy (unshared : Unshared flags)
    (named : ∀ flag ∈ flags, NamedFlag flag) (hf : flag ∈ flags) (ho : other ∈ flags)
    (h : flag.isGivenBy token = true) (h' : other.isGivenBy token = true) : flag = other := by
  rcases isGivenBy_iff.mp h with hl | ⟨short, hs, hl⟩ <;>
    rcases isGivenBy_iff.mp h' with hl' | ⟨short', hs', hl'⟩ <;> rw [hl] at hl'
  · rw [longForm_eq, longForm_eq] at hl'
    have hn := (List.cons.inj (List.cons.inj hl').2).2
    exact List.inj_on_of_nodup_map unshared.names hf ho hn
  · exact absurd hl' (longForm_ne_shortForm ((named other ho).short short' hs'))
  · exact absurd hl'.symm (longForm_ne_shortForm ((named flag hf).short short hs))
  · rw [shortForm_eq, shortForm_eq] at hl'
    have hn := (List.cons.inj hl').2
    exact unshared.eq_of_short_eq hf ho hs (hn ▸ hs')

theorem Unshared.find?_eq_some (unshared : Unshared flags)
    (named : ∀ flag ∈ flags, NamedFlag flag) (hf : flag ∈ flags)
    (h : flag.isGivenBy token = true) : flags.find? (·.isGivenBy token) = some flag := by
  cases hfind : flags.find? (·.isGivenBy token) with
  | none => exact absurd h (List.find?_eq_none.mp hfind flag hf)
  | some found =>
    have hm := List.mem_of_find?_eq_some hfind
    have hg : found.isGivenBy token = true := by simpa using List.find?_some hfind
    rw [unshared.eq_of_isGivenBy named hm hf hg h]

namespace Consistent

variable {tree : CommandTree} {c : Command} (consistent : tree.Consistent)
include consistent

theorem scope_named (hc : c ∈ tree.commands) :
    ∀ flag ∈ tree.globalFlags ++ c.flags, NamedFlag flag :=
  List.forall_mem_append.mpr ⟨consistent.globalFlags_named, consistent.flags_named c hc⟩

theorem own_unshared (hc : c ∈ tree.commands) : Unshared c.flags :=
  (consistent.flags_unshared c hc).of_append_right

theorem find?_globalFlags (hf : flag ∈ tree.globalFlags) (given : flag.isGivenBy token = true) :
    tree.globalFlags.find? (·.isGivenBy token) = some flag :=
  consistent.globalFlags_unshared.find?_eq_some consistent.globalFlags_named hf given

theorem find?_flags (hc : c ∈ tree.commands) (hf : flag ∈ c.flags)
    (given : flag.isGivenBy token = true) : c.flags.find? (·.isGivenBy token) = some flag :=
  (consistent.own_unshared hc).find?_eq_some (consistent.flags_named c hc) hf given

end Consistent

end CommandTree

namespace FlagValues

open KeyedList

variable {flags : List Flag} {flag : Flag}

/-- One row for each flag, in their order; the one name that is never recorded has none. -/
def table (flags : List Flag) (value : Flag → FlagValue) : FlagValues :=
  (flags.filter (·.name ≠ unrecordedName)).map fun flag => (flag.name, value flag)

/-- The values after some uses, one after the other. -/
def afterUses (values : FlagValues) (uses : List FlagUse) : FlagValues :=
  uses.foldl (fun values use => record values use.flag.name use.value) values

theorem afterUses_cons (values : FlagValues) (use : FlagUse) (uses : List FlagUse) :
    afterUses values (use :: uses) =
      afterUses (record values use.flag.name use.value) uses := rfl

theorem table_of_recorded (recorded : ∀ flag ∈ flags, flag.name ≠ unrecordedName)
    (value : Flag → FlagValue) :
    table flags value = flags.map fun flag => (flag.name, value flag) := by
  have hall : flags.filter (·.name ≠ unrecordedName) = flags := by
    simpa [List.filter_eq_self] using recorded
  rw [table, hall]

theorem table_cons (flag : Flag) (flags : List Flag) (value : Flag → FlagValue) :
    table (flag :: flags) value =
      (if flag.name = unrecordedName then [] else [(flag.name, value flag)]) ++
        table flags value := by
  by_cases h : flag.name = unrecordedName <;> simp [table, h]

theorem assign_rows {flags : List Flag} (nodup : (flags.map (·.name)).Nodup) (hf : flag ∈ flags)
    (value : Flag → FlagValue) (new : FlagValue) :
    assign (flags.map fun f => (f.name, value f)) flag.name new =
      flags.map fun f => (f.name, Function.update value flag new f) := by
  induction flags with
  | nil => cases hf
  | cons first rest ih =>
    obtain ⟨hfirst, hrest⟩ := List.nodup_cons.mp nodup
    rw [List.map_cons, List.map_cons, assign]
    split
    · next he =>
      have hsame : first = flag :=
        List.inj_on_of_nodup_map nodup List.mem_cons_self hf he
      subst hsame
      rw [Function.update_self]
      congr 1
      refine List.map_congr_left fun g hg => ?_
      have hne : g ≠ first := fun hgf => hfirst (hgf ▸ List.mem_map_of_mem hg)
      rw [Function.update_of_ne hne]
    · next he =>
      have hne : first ≠ flag := fun hff => he (hff ▸ rfl)
      have hmem : flag ∈ rest := (List.mem_cons.mp hf).resolve_left hne.symm
      rw [Function.update_of_ne hne, ih hrest hmem]

/-- Giving a flag changes its row and no other. -/
theorem record_table (nodup : (flags.map (·.name)).Nodup) (hf : flag ∈ flags)
    (value : Flag → FlagValue) (new : FlagValue) :
    record (table flags value) flag.name new = table flags (Function.update value flag new) := by
  unfold record
  split
  · next hname =>
    refine List.map_congr_left fun g hg => ?_
    have hg : g.name ≠ unrecordedName := by simpa using (List.mem_filter.mp hg).2
    have hne : g ≠ flag := fun h => hg (h ▸ hname)
    rw [Function.update_of_ne hne]
  · next hname =>
    have hkept : flag ∈ flags.filter (·.name ≠ unrecordedName) :=
      List.mem_filter.mpr ⟨hf, by simpa using hname⟩
    exact assign_rows (nodup.sublist (List.filter_sublist.map _)) hkept value new

theorem zero_eq_table (nodup : (flags.map (·.name)).Nodup) :
    zero flags = table flags fun flag => flag.kind.zero := by
  -- The rows made so far stand in front, under other names.
  have rows (made : FlagValues) (fresh : ∀ flag ∈ flags, flag.name ∉ names made) :
      flags.foldl (fun values flag => record values flag.name flag.kind.zero) made =
        made ++ table flags fun flag => flag.kind.zero := by
    induction flags generalizing made with
    | nil => exact (List.append_nil made).symm
    | cons flag flags ih =>
      obtain ⟨hflag, hflags⟩ := List.nodup_cons.mp nodup
      obtain ⟨hfresh, fresh⟩ := List.forall_mem_cons.mp fresh
      rw [List.foldl_cons, table_cons, record]
      split
      · exact ih hflags made fresh
      · rw [assign_of_not_mem _ hfresh, ← List.append_assoc]
        refine ih hflags _ fun g hg => ?_
        have hne : g.name ≠ flag.name := fun he => hflag (List.mem_map.mpr ⟨g, hg, he⟩)
        simpa [names, hne] using fresh g hg
  exact rows [] fun flag _ => List.not_mem_nil

/-- After some uses each flag has the value that its last use gives. -/
theorem afterUses_zero (nodup : (flags.map (·.name)).Nodup) {uses : List FlagUse}
    (known : ∀ use ∈ uses, use.flag ∈ flags) :
    afterUses (zero flags) uses = table flags (FlagUse.lastValue uses) := by
  induction uses using List.reverseRecOn with
  | nil => exact zero_eq_table nodup
  | append_singleton uses use ih =>
    have huse : use.flag ∈ flags := known use (by simp)
    have huses : ∀ u ∈ uses, u.flag ∈ flags := fun u hu => known u (List.mem_append_left _ hu)
    have hfold : afterUses (zero flags) (uses ++ [use]) =
        record (afterUses (zero flags) uses) use.flag.name use.value := by
      rw [afterUses, List.foldl_append]
      rfl
    rw [hfold, ih huses, record_table nodup huse, FlagUse.lastValue_append]

end FlagValues

end CommandLanguage

import CommandLanguage.Invocation.Dispatch
import CommandLanguage.Proofs.Invocation.FlagUse

/-!
# The place of a global flag

Taking the global flags out of a vector goes on behind its first part as it would have begun there,
with the values found so far. Giving one more flag changes one value and leaves the other tokens as
they are, so what a vector means does not depend on where the flag is given.
-/

set_option autoImplicit false

namespace CommandLanguage

open FlagValues KeyedList

section Vectors
variable {flags : List Flag} {values : FlagValues} {a b rest left : List Text} {token : Text}
variable {use : FlagUse} {found : FlagValues}

theorem takeGlobals_other (h : flags.find? (·.isGivenBy token) = none) (values : FlagValues)
    (rest : List Text) : takeGlobals flags values (token :: rest) =
      (takeGlobals flags values rest).map fun taken => (taken.1, token :: taken.2) := by
  rw [takeGlobals, h]
  cases takeGlobals flags values rest <;> rfl

theorem takeGlobals_use (h : flags.find? (·.isGivenBy use.token) = some use.flag)
    (values : FlagValues) (rest : List Text) :
    takeGlobals flags values (use.tokens ++ rest) =
      takeGlobals flags (record values use.flag.name use.value) rest := by
  unfold FlagUse.tokens FlagUse.value
  cases hk : use.flag.kind <;> simp only [List.cons_append, List.nil_append, takeGlobals, h, hk] <;>
    rfl

theorem takeGlobals_append (h : takeGlobals flags values a = .ok (found, left)) :
    takeGlobals flags values (a ++ b) =
      (takeGlobals flags found b).map fun taken => (taken.1, left ++ taken.2) := by
  -- Along the scan, since a flag and its text are taken in one step.
  fun_induction takeGlobals flags values a generalizing left with
  | case1 values =>
    cases h
    rw [List.nil_append]
    cases takeGlobals flags found b <;> rfl
  | case2 values token rest hfind ih =>
    obtain ⟨taken, hrest, h⟩ := Statement.exists_of_bind_eq_ok h
    cases h
    rw [List.cons_append, takeGlobals_other hfind, ih hrest]
    cases takeGlobals flags taken.1 b <;> rfl
  | case3 values token flag hfind rest hk ih =>
    rw [List.cons_append, takeGlobals, hfind]
    simp only [hk]
    exact ih h
  | case4 => cases h
  | case5 values token flag hfind value rest hk ih =>
    rw [List.cons_append, List.cons_append, takeGlobals, hfind]
    simp only [hk]
    exact ih h

/-- The only failure of the first pass is a flag at the end of the vector that lacks its text. -/
theorem takeGlobals_eq_error {failure : Failure} (h : takeGlobals flags values a = .error failure) :
    ∃ flag ∈ flags, flag.kind = .string ∧ failure = .missingFlagValue flag.name [] ∧
      ∃ token, a.getLast? = some token ∧ flag.isGivenBy token = true := by
  have behind {tokens : List Text} {token last : Text} (hl : tokens.getLast? = some last) :
      (token :: tokens).getLast? = some last := by
    rw [List.getLast?_cons, hl]
    rfl
  fun_induction takeGlobals flags values a with
  | case1 => cases h
  | case2 values token rest _ ih =>
    cases hrest : takeGlobals flags values rest with
    | ok taken =>
      rw [hrest] at h
      cases h
    | error e =>
      rw [hrest] at h
      cases h
      obtain ⟨flag, hf, kind, he, last, hl, given⟩ := ih hrest
      exact ⟨flag, hf, kind, he, last, behind hl, given⟩
  | case3 _ _ _ _ _ _ ih =>
    obtain ⟨flag, hf, kind, he, last, hl, given⟩ := ih h
    exact ⟨flag, hf, kind, he, last, behind hl, given⟩
  | case4 values token flag hfind kind =>
    cases h
    have given : flag.isGivenBy token = true := by simpa using List.find?_some hfind
    exact ⟨flag, List.mem_of_find?_eq_some hfind, kind, rfl, token, rfl, given⟩
  | case5 _ _ _ _ _ _ _ ih =>
    obtain ⟨flag, hf, kind, he, last, hl, given⟩ := ih h
    exact ⟨flag, hf, kind, he, last, behind (behind hl), given⟩

/-- The values found in a vector are those of uses of the flags. -/
theorem exists_uses_of_takeGlobals (h : takeGlobals flags values a = .ok (found, left)) :
    ∃ uses : List FlagUse, (∀ use ∈ uses, use.flag ∈ flags) ∧ found = afterUses values uses := by
  fun_induction takeGlobals flags values a generalizing left with
  | case1 values =>
    cases h
    exact ⟨[], by simp, rfl⟩
  | case2 values token rest hfind ih =>
    obtain ⟨taken, hrest, h⟩ := Statement.exists_of_bind_eq_ok h
    cases h
    exact ih hrest
  | case3 values token flag hfind rest hk ih =>
    obtain ⟨uses, known, rfl⟩ := ih h
    refine ⟨⟨flag, token, []⟩ :: uses, ?_, ?_⟩
    · exact List.forall_mem_cons.mpr ⟨List.mem_of_find?_eq_some hfind, known⟩
    · simp [afterUses_cons, setGiven, FlagUse.value, hk]
  | case4 => cases h
  | case5 values token flag hfind text rest hk ih =>
    obtain ⟨uses, known, rfl⟩ := ih h
    refine ⟨⟨flag, token, text⟩ :: uses, ?_, ?_⟩
    · exact List.forall_mem_cons.mpr ⟨List.mem_of_find?_eq_some hfind, known⟩
    · simp [afterUses_cons, setText, FlagUse.value, hk]

/-- Each flag has its row, and no name has another one. -/
def Tabled (flags : List Flag) (values : FlagValues) : Prop :=
  ∃ value : Flag → FlagValue, values = table flags value

variable (nodup : (flags.map (·.name)).Nodup)
include nodup

theorem Tabled.record {flag : Flag} (h : Tabled flags values) (hf : flag ∈ flags)
    (value : FlagValue) : Tabled flags (record values flag.name value) := by
  obtain ⟨rows, rfl⟩ := h
  exact ⟨_, record_table nodup hf rows value⟩

/-- Values of different flags are recorded in either order, and so is one value given twice. -/
theorem Tabled.record_comm {f g : Flag} (h : Tabled flags values) (hf : f ∈ flags) (hg : g ∈ flags)
    {x y : FlagValue} (apart : f = g → x = y) :
    KeyedList.record (KeyedList.record values f.name x) g.name y =
      KeyedList.record (KeyedList.record values g.name y) f.name x := by
  obtain ⟨rows, rfl⟩ := h
  rw [record_table nodup hf, record_table nodup hg, record_table nodup hg, record_table nodup hf]
  by_cases he : f = g
  · rw [he, apart he]
  · rw [Function.update_comm he]

theorem Tabled.afterUses (h : Tabled flags values) {uses : List FlagUse}
    (known : ∀ use ∈ uses, use.flag ∈ flags) : Tabled flags (afterUses values uses) := by
  induction uses generalizing values with
  | nil => exact h
  | cons use uses ih =>
    obtain ⟨huse, huses⟩ := List.forall_mem_cons.mp known
    rw [afterUses_cons]
    exact ih (h.record nodup huse use.value) huses

theorem tabled_takeGlobals (h : Tabled flags values)
    (ht : takeGlobals flags values a = .ok (found, left)) : Tabled flags found := by
  obtain ⟨uses, known, rfl⟩ := exists_uses_of_takeGlobals ht
  exact h.afterUses nodup known

/-- A value recorded before the rest of a vector is read may be recorded behind it, unless the rest
gives another value to the flag. -/
theorem takeGlobals_record (h : Tabled flags values) (hf : use.flag ∈ flags)
    (apart : use.flag.kind = .string → ∀ token ∈ rest, use.flag.isGivenBy token = false) :
    takeGlobals flags (record values use.flag.name use.value) rest =
      (takeGlobals flags values rest).map fun taken =>
        (record taken.1 use.flag.name use.value, taken.2) := by
  fun_induction takeGlobals flags values rest with
  | case1 values => rfl
  | case2 values token rest hfind ih =>
    rw [takeGlobals_other hfind, ih h fun hk => (List.forall_mem_cons.mp (apart hk)).2]
    cases takeGlobals flags values rest <;> rfl
  | case3 values token flag hfind rest hk ih =>
    have hmem := List.mem_of_find?_eq_some hfind
    -- The flag itself may be found again here; it then has the same value.
    have hsame : use.flag = flag → use.value = .bool true := by
      rintro rfl
      simp [FlagUse.value, hk]
    rw [takeGlobals, hfind]
    simp only [hk]
    rw [setGiven, h.record_comm nodup hf hmem hsame]
    exact ih (h.record nodup hmem _) fun hs => (List.forall_mem_cons.mp (apart hs)).2
  | case4 values token flag hfind hk =>
    rw [takeGlobals, hfind]
    simp only [hk]
    rfl
  | case5 values token flag hfind value rest hk ih =>
    have hmem := List.mem_of_find?_eq_some hfind
    have hgiven : flag.isGivenBy token = true := by simpa using List.find?_some hfind
    -- Here it may not, because no token of the rest spells it.
    have hsame : use.flag = flag → use.value = .string value := by
      rintro rfl
      rw [apart hk token List.mem_cons_self] at hgiven
      cases hgiven
    rw [takeGlobals, hfind]
    simp only [hk]
    rw [setText, h.record_comm nodup hf hmem hsame]
    refine ih (h.record nodup hmem _) fun hs => ?_
    exact (List.forall_mem_cons.mp (List.forall_mem_cons.mp (apart hs)).2).2

end Vectors

namespace CommandTree

variable {tree : CommandTree}

/-- Giving a global flag at some place of a vector changes its value in what the vector gives. -/
theorem Consistent.extractGlobals_insert (consistent : tree.Consistent) {use : FlagUse}
    (hf : use.flag ∈ tree.globalFlags) (given : use.flag.isGivenBy use.token = true)
    {a b : List Text}
    (apart : use.flag.kind = .string → ∀ token ∈ b, use.flag.isGivenBy token = false)
    {taken : FlagValues × List Text} (ha : tree.extractGlobals a = .ok taken) :
    tree.extractGlobals (a ++ use.tokens ++ b) = (tree.extractGlobals (a ++ b)).map fun taken =>
      (record taken.1 use.flag.name use.value, taken.2) := by
  have nodup := consistent.globalFlags_unshared.names
  have tabled : Tabled tree.globalFlags taken.1 :=
    tabled_takeGlobals nodup ⟨_, zero_eq_table nodup⟩ ha
  unfold extractGlobals at ha ⊢
  rw [List.append_assoc, takeGlobals_append ha, takeGlobals_append ha,
    takeGlobals_use (consistent.find?_globalFlags hf given),
    takeGlobals_record nodup tabled hf apart]
  cases takeGlobals tree.globalFlags taken.1 b <;> rfl

theorem dispatch_eq_of_extractGlobals_eq {argv other : List Text}
    (h : tree.extractGlobals argv = tree.extractGlobals other) :
    tree.dispatch argv = tree.dispatch other := by
  rw [dispatch, dispatch, h]

end CommandTree

open CommandTree

/-- In every compiled tree a global flag of kind `bool` may be given at any place of any vector that
does not come between a global flag and its text, with the same result; and so may a global flag of
kind `string` with its text, if the vector does not mention the flag. -/
theorem dispatch_anywhere {source : Text} {tree : CommandTree} (h : compile source = .ok tree)
    {a b a' b' : List Text} (split : a ++ b = a' ++ b') {taken taken' : FlagValues × List Text}
    (ha : tree.extractGlobals a = .ok taken) (ha' : tree.extractGlobals a' = .ok taken') :
    (∀ flag ∈ tree.globalFlags, flag.kind = .bool → ∀ token, flag.isGivenBy token = true →
      tree.dispatch (a ++ [token] ++ b) = tree.dispatch (a' ++ [token] ++ b')) ∧
    ∀ flag ∈ tree.globalFlags, flag.kind = .string →
      (∀ token ∈ a ++ b, flag.isGivenBy token = false) →
      ∀ token, flag.isGivenBy token = true → ∀ text,
        tree.dispatch (a ++ [token, text] ++ b) = tree.dispatch (a' ++ [token, text] ++ b') := by
  have consistent := consistent_of_compile h
  have same {use : FlagUse} (hf : use.flag ∈ tree.globalFlags)
      (given : use.flag.isGivenBy use.token = true)
      (apart : use.flag.kind = .string → ∀ token ∈ a ++ b, use.flag.isGivenBy token = false) :
      tree.dispatch (a ++ use.tokens ++ b) = tree.dispatch (a' ++ use.tokens ++ b') := by
    apply dispatch_eq_of_extractGlobals_eq
    rw [consistent.extractGlobals_insert hf given _ ha, split,
      consistent.extractGlobals_insert hf given _ ha']
    · intro hk token ht
      exact apart hk token (split ▸ List.mem_append_right a' ht)
    · intro hk token ht
      exact apart hk token (List.mem_append_right a ht)
  constructor
  · intro flag hf hk token given
    have htokens : FlagUse.tokens ⟨flag, token, []⟩ = [token] := by simp [FlagUse.tokens, hk]
    rw [← htokens]
    exact same hf given fun hs => nomatch hk.symm.trans hs
  · intro flag hf hk absent token given text
    have htokens : FlagUse.tokens ⟨flag, token, text⟩ = [token, text] := by
      simp [FlagUse.tokens, hk]
    rw [← htokens]
    exact same hf given fun _ => absent

/-- In a call that lacks an argument, global flags in front and between a flag and its text. -/
theorem globals_between_flag_and_text :
    ∃ tree, compile
        "flag log string \"\" l\ncmd add\nflag tag string \"\" t\narg to string \"\"" = .ok tree ∧
      tree.dispatch ["-h", "add", "-t", "x"] = tree.dispatch ["add", "-t", "-h", "x"] ∧
      tree.dispatch ["--log", "f", "add", "-t", "x"] =
        tree.dispatch ["add", "-t", "--log", "f", "x"] := by
  let log : Flag := ⟨"log", some "l", .string, []⟩
  let add : Command :=
    { commandOf (DeclarationTree.bareCommand 0 none "add" 2) ["add"]
        [⟨"tag", some "t", .string, []⟩] with
      args := [⟨"to", "string", []⟩] }
  let tree : CommandTree := ⟨none, [log], [], [add], [0], [], []⟩
  have h : compile
      "flag log string \"\" l\ncmd add\nflag tag string \"\" t\narg to string \"\"" = .ok tree := by
    decide +kernel
  have before : tree.extractGlobals [] = .ok (zero tree.globalFlags, []) := rfl
  have between : tree.extractGlobals ["add", "-t"] =
      .ok (zero tree.globalFlags, ["add", "-t"]) := by decide +kernel
  obtain ⟨alone, withText⟩ :=
    @dispatch_anywhere _ tree h [] ["add", "-t", "x"] ["add", "-t"] ["x"] rfl _ _ before between
  refine ⟨tree, h, ?_, ?_⟩
  · exact alone Flag.help List.mem_cons_self rfl "-h" rfl
  · exact withText log (by decide +kernel) rfl (by decide +kernel) "--log" rfl "f"

end CommandLanguage

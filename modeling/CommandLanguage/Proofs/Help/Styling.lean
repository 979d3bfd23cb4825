import CommandLanguage.Compile
import CommandLanguage.Proofs.Help.Dressing
import CommandLanguage.Proofs.Text.Digits

/-!
# Styles can be taken off

Deleting the markers of a marker theme, or the codes of the terminal theme, leaves the plain page. A
marker can be deleted unit by unit where its units do not occur otherwise. Codes are deleted as a
whole, and need only that no text of the tree brings an escape unit along.
-/

set_option autoImplicit false

namespace CommandLanguage

open Text

namespace Theme

/-- The units of which some markers consist. -/
def markUnits (markers : List Marker) : Text := markers.flatMap fun m => m.opening ++ m.closing

/-- What stands behind the terminal code at the beginning of a text: an escape unit, a bracket, digits
and an `m`. -/
def behindCode? : Text → Option Text
  | e :: b :: text =>
    if e = escapeUnit ∧ b = unit '[' ∧ text.takeWhile isDigit ≠ [] then
      match text.dropWhile isDigit with
      | [] => none
      | m :: rest => if m = unit 'm' then some rest else none
    else none
  | _ => none

theorem length_behindCode?_lt {text rest : Text} (h : behindCode? text = some rest) :
    rest.length < text.length := by
  unfold behindCode? at h
  split at h
  · next e b text =>
    have left : (text.dropWhile isDigit).length ≤ text.length :=
      (List.dropWhile_suffix _).length_le
    split at h
    · split at h
      · cases h
      · next m behind hd =>
        rw [hd] at left
        split at h
        · cases h
          simp only [List.length_cons] at left ⊢
          omega
        · cases h
    · cases h
  · cases h

/-- The text without its terminal codes. -/
def dropCodes (text : Text) : Text :=
  match _h : behindCode? text with
  | some rest => dropCodes rest
  | none =>
    match text with
    | [] => []
    | u :: rest => u :: dropCodes rest
termination_by text.length
decreasing_by
  · exact length_behindCode?_lt _h
  · simp only [List.length_cons]
    omega

theorem dropCodes_nil : dropCodes [] = [] := by
  rw [dropCodes]
  rfl

theorem dropCodes_cons {u : CodeUnit} (h : u ≠ escapeUnit) (text : Text) :
    dropCodes (u :: text) = u :: dropCodes text := by
  have plain : behindCode? (u :: text) = none := by
    cases text with
    | nil => rfl
    | cons v text => simp [behindCode?, h]
  rw [dropCodes]
  split
  · next rest hc =>
    rw [plain] at hc
    cases hc
  · rfl

theorem behindCode?_terminalCode (n : Nat) (text : Text) :
    behindCode? (terminalCode n ++ text) = some text := by
  have digits := isDigit_of_mem_ofNat n
  have ended : ¬ isDigit (unit 'm') = true := by decide
  have taken : (ofNat n ++ unit 'm' :: text).takeWhile isDigit = ofNat n := by
    rw [List.takeWhile_append_of_pos digits, List.takeWhile_cons_of_neg ended,
      List.append_nil]
  have left : (ofNat n ++ unit 'm' :: text).dropWhile isDigit = unit 'm' :: text := by
    rw [List.dropWhile_append_of_pos digits, List.dropWhile_cons_of_neg ended]
  have some : ofNat n ≠ [] := by
    intro none
    have numeral := isNumeral_ofNat n
    rw [none] at numeral
    cases numeral
  have spelled : terminalCode n ++ text =
      escapeUnit :: unit '[' :: (ofNat n ++ unit 'm' :: text) := by
    simp only [terminalCode, List.cons_append, List.append_assoc]
    rfl
  rw [spelled, behindCode?, taken, left]
  simp [some]

theorem dropCodes_terminalCode (n : Nat) (text : Text) :
    dropCodes (terminalCode n ++ text) = dropCodes text := by
  have code := behindCode?_terminalCode n text
  rw [dropCodes]
  split
  · next rest hc =>
    rw [code] at hc
    cases hc
    rfl
  · next hc =>
    rw [code] at hc
    cases hc

end Theme

namespace Help

open Theme

section Markers
variable {marks : Text} {marker : Marker}

/-- Texts go together if they are the same but for the marks. -/
def deleting (marks : Text) : Dressing where
  Admits _ := True
  Rel a s := a.filter (· ∉ marks) = s.filter (· ∉ marks)
  admits_constant _ _ := trivial
  rel_self _ _ := rfl
  rel_append a s b t first second := by
    rw [List.filter_append, List.filter_append, first, second]

theorem filter_eq_nil_of_subset {t : Text} (h : ∀ u ∈ t, u ∈ marks) :
    t.filter (· ∉ marks) = [] := by
  rw [List.filter_eq_nil_iff]
  intro u hu
  simpa using h u hu

theorem dresses_wrap {markers : List Marker} (h : marker ∈ markers) :
    (deleting (markUnits markers)).Dresses marker.wrap where
  rel t _ := by
    have mem {u : CodeUnit} (hu : u ∈ marker.opening ++ marker.closing) :
        u ∈ markUnits markers := List.mem_flatMap.mpr ⟨marker, h, hu⟩
    change (marker.wrap t).filter _ = t.filter _
    rw [Marker.wrap, List.filter_append, List.filter_append,
      filter_eq_nil_of_subset fun u hu => mem (List.mem_append_left _ hu),
      filter_eq_nil_of_subset fun u hu => mem (List.mem_append_right _ hu),
      List.nil_append, List.append_nil]
  ne_nil t _ nonempty := List.append_ne_nil_of_left_ne_nil
    (List.append_ne_nil_of_right_ne_nil _ nonempty) _

theorem dressesTheme_marked (title heading command flag argument dim prompt : Marker) :
    (deleting (markUnits [title, heading, command, flag, argument, dim, prompt])).DressesTheme
      (.marked title heading command flag argument dim prompt) where
  title := dresses_wrap (by simp)
  heading := dresses_wrap (by simp)
  command := dresses_wrap (by simp)
  flag := dresses_wrap (by simp)
  argument := dresses_wrap (by simp)
  dim := dresses_wrap (by simp)
  prompt := dresses_wrap (by simp)

end Markers

section Codes
variable {text before after : Text} {style : Marker} {styles : List Marker}

/-- Texts go together if dropping the codes leads from one to the other, whatever stands behind. -/
def droppingCodes : Dressing where
  Admits u := u ≠ Theme.escapeUnit
  Rel a s := ∀ rest, dropCodes (a ++ rest) = s ++ dropCodes rest
  admits_constant := by
    intro u constant same
    rw [same] at constant
    exact absurd constant (by decide)
  rel_self t admitted := by
    intro rest
    induction t with
    | nil => rfl
    | cons u t ih =>
      obtain ⟨first, others⟩ := List.forall_mem_cons.mp admitted
      rw [List.cons_append, dropCodes_cons first, ih others, List.cons_append]
  rel_append a s b t first second := by
    intro rest
    rw [List.append_assoc, first, second, List.append_assoc]

/-- A text of which nothing is left without its codes. -/
abbrev OnlyCodes (text : Text) : Prop := droppingCodes.Rel text []

theorem onlyCodes_terminalCode (n : Nat) : OnlyCodes (terminalCode n) :=
  fun rest => dropCodes_terminalCode n rest

theorem OnlyCodes.flatMap {piece : Marker → Text} (h : ∀ style ∈ styles, OnlyCodes (piece style)) :
    OnlyCodes (styles.flatMap piece) := by
  induction styles with
  | nil => exact fun _ => rfl
  | cons style styles ih =>
    obtain ⟨first, others⟩ := List.forall_mem_cons.mp h
    exact droppingCodes.rel_append _ _ _ _ first (ih others)

theorem OnlyCodes.rel_append (h : OnlyCodes before) {a s : Text} (ha : droppingCodes.Rel a s) :
    droppingCodes.Rel (before ++ a) s :=
  droppingCodes.rel_append _ _ _ _ h ha

theorem rel_cons {u : CodeUnit} (admitted : u ≠ Theme.escapeUnit) {a s : Text}
    (h : droppingCodes.Rel a s) : droppingCodes.Rel (u :: a) (u :: s) :=
  droppingCodes.rel_append _ _ _ _
    (droppingCodes.rel_self [u] (List.forall_mem_singleton.mpr admitted)) h

theorem rel_encloseLineBreaks (hb : OnlyCodes before) (ha : OnlyCodes after)
    (bare : droppingCodes.Bare text) :
    droppingCodes.Rel (text.encloseLineBreaks before after) text := by
  have feed : lineFeed ≠ Theme.escapeUnit := by decide
  fun_induction encloseLineBreaks text before after with
  | case1 => exact Dressing.bare_nil.rel
  | case2 => exact hb.rel_append (rel_cons feed ha)
  | case3 => exact bare.rel
  | case4 v rest ih =>
    have inner := ih (List.forall_mem_of_forall_mem_cons bare)
    exact hb.rel_append (rel_cons feed (ha.rel_append inner))
  | case5 u v rest _ _ ih =>
    obtain ⟨first, others⟩ := List.forall_mem_cons.mp bare
    obtain ⟨second, others⟩ := List.forall_mem_cons.mp others
    exact hb.rel_append (rel_cons first (rel_cons second (ha.rel_append (ih others))))
  | case6 u v rest _ _ ih =>
    obtain ⟨first, others⟩ := List.forall_mem_cons.mp bare
    exact rel_cons first (ih others)

theorem rel_styled (opening : ∀ style ∈ styles, OnlyCodes style.opening)
    (closing : ∀ style ∈ styles, OnlyCodes style.closing) (bare : droppingCodes.Bare text) :
    droppingCodes.Rel (styled styles text) text := by
  have opened := OnlyCodes.flatMap opening
  have closed : OnlyCodes (styles.reverse.flatMap (·.closing)) :=
    OnlyCodes.flatMap fun style hs => closing style (List.mem_reverse.mp hs)
  have unescaped : Theme.escapeUnit ∉ text := fun hu => bare Theme.escapeUnit hu rfl
  rw [styled, if_neg unescaped]
  split
  · next empty =>
    rw [empty]
    exact Dressing.bare_nil.rel
  · have whole := droppingCodes.rel_append _ _ _ _
      (opened.rel_append (rel_encloseLineBreaks closed opened bare)) closed
    rwa [List.append_nil] at whole

/-- A style made of terminal codes dresses texts. It makes none empty, as no code can be dropped from
the empty text. -/
theorem dresses_styled (codes : List (Nat × Nat)) :
    droppingCodes.Dresses (styled (codes.map fun code => terminalMarker code.1 code.2)) := by
  have rel (t : Text) (bare : droppingCodes.Bare t) :
      droppingCodes.Rel (styled (codes.map fun code => terminalMarker code.1 code.2) t) t :=
    rel_styled (List.forall_mem_map.mpr fun code _ => onlyCodes_terminalCode code.1)
      (List.forall_mem_map.mpr fun code _ => onlyCodes_terminalCode code.2) bare
  refine ⟨rel, fun t bare nonempty empty => nonempty ?_⟩
  have dropped := rel t bare []
  rw [empty, List.append_nil, dropCodes_nil, List.append_nil] at dropped
  exact dropped.symm

theorem dressesTheme_terminal : droppingCodes.DressesTheme .terminal where
  title := dresses_styled [(36, 39), (1, 22)]
  heading := dresses_styled [(1, 22)]
  command := dresses_styled [(36, 39)]
  flag := dresses_styled [(36, 39)]
  argument := dresses_styled [(33, 39)]
  dim := dresses_styled [(2, 22)]
  prompt := dresses_styled [(32, 39)]

end Codes

/-- Styling never changes the help text or its alignment. Without the units of the markers, help with
markers is plain help if plain help has none of them; without its terminal codes, help for terminals
is plain help if no text of the tree has an escape unit. -/
theorem styling_keeps_help (tree : CommandTree) (scope : HelpScope) :
    (∀ title heading command flag argument dim prompt : Marker,
      let marks := markUnits [title, heading, command, flag, argument, dim, prompt]
      (∀ u ∈ marks, u ∉ tree.help .plain scope) →
        (tree.help (.marked title heading command flag argument dim prompt) scope).filter
          (· ∉ marks) = tree.help .plain scope) ∧
    ((∀ t ∈ tree.texts, Theme.escapeUnit ∉ t) →
      dropCodes (tree.help .terminal scope) = tree.help .plain scope) := by
  constructor
  · intro title heading command flag argument dim prompt marks absent
    have same : (deleting marks).Rel (tree.help (.marked title heading command flag argument dim
        prompt) scope) (tree.help .plain scope) :=
      Dressing.rel_help
        (dressesTheme_marked title heading command flag argument dim prompt)
        (fun _ _ _ _ => trivial) scope
    have kept : (tree.help .plain scope).filter (· ∉ marks) = tree.help .plain scope :=
      List.filter_eq_self.mpr fun u hu => by simpa using fun hm => absent u hm hu
    exact Eq.trans same kept
  · intro unescaped
    have bare : ∀ t ∈ tree.texts, droppingCodes.Bare t := by
      intro t ht u hu same
      exact unescaped t ht (same ▸ hu)
    have dropped := Dressing.rel_help dressesTheme_terminal bare scope []
    rwa [dropCodes_nil, List.append_nil, List.append_nil] at dropped

/-- A description over two lines is marked once and coloured line by line. -/
theorem multiline_help_kept :
    ∃ tree, compile "name \"demo\" \"\"\ncmd note \"\"\"Add a note\nor two\"\"\"" = .ok tree ∧
      (∀ u ∈ ([1, 2, 3, 4, 5, 6, 7, 8] : Text), u ∉ tree.help .plain .root) ∧
      (tree.help (.marked ⟨[1], []⟩ ⟨[2], []⟩ ⟨[3], []⟩ ⟨[4], []⟩ ⟨[5], []⟩ ⟨[6], [7]⟩ ⟨[8], []⟩)
        .root).filter (· ∉ ([1, 2, 3, 4, 5, 6, 7, 8] : Text)) = tree.help .plain .root ∧
      (∀ t ∈ tree.texts, Theme.escapeUnit ∉ t) ∧
      dropCodes (tree.help .terminal .root) = tree.help .plain .root := by
  let tree : CommandTree :=
    { app := some ⟨"demo", []⟩
      declaredFlags := []
      globalAttributes := []
      commands := [
        { id := 0, name := "note", segments := ["note"], description := "Add a note\nor two"
          flags := [], args := [], examples := [], attributes := [], children := [], parent := none }]
      roots := [0]
      topics := []
      attributeTable := [] }
  have h : compile "name \"demo\" \"\"\ncmd note \"\"\"Add a note\nor two\"\"\"" = .ok tree := by
    decide +kernel
  obtain ⟨marked, coloured⟩ := styling_keeps_help tree .root
  have absent : ∀ u ∈ ([1, 2, 3, 4, 5, 6, 7, 8] : Text), u ∉ tree.help .plain .root := by
    decide +kernel
  have unescaped : ∀ t ∈ tree.texts, Theme.escapeUnit ∉ t := by decide +kernel
  exact ⟨tree, h, absent,
    marked ⟨[1], []⟩ ⟨[2], []⟩ ⟨[3], []⟩ ⟨[4], []⟩ ⟨[5], []⟩ ⟨[6], [7]⟩ ⟨[8], []⟩ absent,
    unescaped, coloured unescaped⟩

end Help

end CommandLanguage

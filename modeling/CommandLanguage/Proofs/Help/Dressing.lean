import CommandLanguage.Help.Page
import CommandLanguage.Proofs.CommandTree.Placed
import Mathlib.Data.List.Forall2

/-!
# Help under a theme

A page under a theme and the page under the plain theme consist of the same pieces: widths and sections
do not depend on the theme, and a line is empty under both or under none, as far as it may be dropped
at the end of a page. So a relation between texts holds of the pages if it holds of styled and bare
pieces and is kept when pieces are put together.
-/

set_option autoImplicit false

namespace CommandLanguage

open Text

section Texts

def Flag.texts (flag : Flag) : List Text := flag.name :: flag.description :: flag.short.toList

def Argument.texts (argument : Argument) : List Text := [argument.name, argument.description]

def Topic.texts (topic : Topic) : List Text := topic.name :: topic.description :: topic.body.toList

def Identity.texts (app : Identity) : List Text := [app.name, app.tagline]

def Command.texts (command : Command) : List Text :=
  command.name :: command.description ::
    (command.segments ++ command.flags.flatMap Flag.texts ++ command.args.flatMap Argument.texts ++
      command.examples)

/-- The texts of a tree that help may show. -/
def CommandTree.texts (tree : CommandTree) : List Text :=
  tree.app.toList.flatMap Identity.texts ++ tree.declaredFlags.flatMap Flag.texts ++
    tree.commands.flatMap Command.texts ++ tree.topics.flatMap Topic.texts

end Texts

namespace Help

/-- A line feed or a printable unit of ASCII, of which all constant pieces consist. -/
def isConstantUnit (u : CodeUnit) : Bool := u == lineFeed || (0x20 ≤ u && u < 0x7F)

/-- A piece like those that every help text has, such as the title of a section. -/
def IsConstant (t : Text) : Prop := t ≠ [] ∧ ∀ u ∈ t, isConstantUnit u = true

instance (t : Text) : Decidable (IsConstant t) := inferInstanceAs (Decidable (_ ∧ _))

/-- Which dressed texts go with which bare ones: a text of admitted units goes with itself, and texts
go together if their pieces do. -/
structure Dressing where
  Admits : CodeUnit → Prop
  Rel : Text → Text → Prop
  admits_constant : ∀ u, isConstantUnit u = true → Admits u
  rel_self : ∀ t, (∀ u ∈ t, Admits u) → Rel t t
  rel_append : ∀ a s b t, Rel a s → Rel b t → Rel (a ++ b) (s ++ t)

namespace Dressing

variable (D : Dressing)

/-- All units of the text are admitted. -/
def Bare (t : Text) : Prop := ∀ u ∈ t, D.Admits u

/-- A style dresses bare texts and makes none empty. -/
structure Dresses (style : Text → Text) : Prop where
  rel : ∀ t, D.Bare t → D.Rel (style t) t
  ne_nil : ∀ t, D.Bare t → t ≠ [] → style t ≠ []

structure DressesTheme (theme : Theme) : Prop where
  title : D.Dresses theme.title
  heading : D.Dresses theme.heading
  command : D.Dresses theme.command
  flag : D.Dresses theme.flag
  argument : D.Dresses theme.argument
  dim : D.Dresses theme.dim
  prompt : D.Dresses theme.prompt

/-- Lines that go together, both empty or none. -/
structure Alike (a s : Text) : Prop where
  rel : D.Rel a s
  nil_iff : a = [] ↔ s = []

variable {D} {s t : Text} {texts lines others : List Text} {style dim : Text → Text} {theme : Theme}

theorem bare_constant (h : IsConstant t) : D.Bare t :=
  fun u hu => D.admits_constant u (h.2 u hu)

theorem bare_nil : D.Bare [] := List.forall_mem_nil _

theorem Bare.append (hs : D.Bare s) (ht : D.Bare t) : D.Bare (s ++ t) :=
  List.forall_mem_append.mpr ⟨hs, ht⟩

theorem bare_spaces (n : Nat) : D.Bare (spaces n) := by
  intro u hu
  rw [List.eq_of_mem_replicate hu]
  exact D.admits_constant _ (by decide)

theorem bare_join (hs : D.Bare s) (h : ∀ t ∈ texts, D.Bare t) : D.Bare (join s texts) := by
  induction texts with
  | nil => exact bare_nil
  | cons t texts ih =>
    obtain ⟨first, others⟩ := List.forall_mem_cons.mp h
    cases texts with
    | nil => simpa [join] using first
    | cons next texts =>
      have more : join s (t :: next :: texts) = t ++ s ++ join s (next :: texts) :=
        List.intercalate_cons_of_ne_nil (List.cons_ne_nil next texts)
      rw [more]
      exact (first.append hs).append (ih others)

theorem Bare.rel (h : D.Bare t) : D.Rel t t := D.rel_self t h

theorem Bare.alike (h : D.Bare t) : D.Alike t t := ⟨h.rel, Iff.rfl⟩

section Pages

/-- Lines that go together, one by one. -/
abbrev AlikeLines (D : Dressing) : List Text → List Text → Prop := List.Forall₂ D.Alike

theorem rel_unlines (h : List.Forall₂ D.Rel lines others) :
    D.Rel (unlines lines) (unlines others) := by
  induction h with
  | nil => exact bare_nil.rel
  | @cons a s lines others first rest ih =>
    cases rest with
    | nil => simpa [unlines, join] using first
    | @cons b t lines others second rest =>
      have dressed : unlines (a :: b :: lines) = a ++ [lineFeed] ++ unlines (b :: lines) :=
        List.intercalate_cons_of_ne_nil (List.cons_ne_nil b lines)
      have bare : unlines (s :: t :: others) = s ++ [lineFeed] ++ unlines (t :: others) :=
        List.intercalate_cons_of_ne_nil (List.cons_ne_nil t others)
      have feed : D.Bare [lineFeed] := bare_constant (by decide)
      rw [dressed, bare]
      exact D.rel_append _ _ _ _ (D.rel_append _ _ _ _ first feed.rel) ih

theorem alike_dropWhile (h : AlikeLines D lines others) :
    AlikeLines D (lines.dropWhile (· = [])) (others.dropWhile (· = [])) := by
  induction h with
  | nil => exact .nil
  | @cons a s lines others first rest ih =>
    by_cases empty : a = []
    · have same := first.nil_iff.mp empty
      simpa [empty, same] using ih
    · have same := mt first.nil_iff.mpr empty
      simpa [empty, same] using List.Forall₂.cons first rest

theorem AlikeLines.rel (h : AlikeLines D lines others) : List.Forall₂ D.Rel lines others :=
  h.imp fun _ _ alike => alike.rel

/-- Pages drop the same lines at their ends. -/
theorem rel_page (h : AlikeLines D lines others) : D.Rel (page lines) (page others) := by
  apply rel_unlines
  rw [List.forall₂_reverse_iff]
  exact AlikeLines.rel (alike_dropWhile (List.forall₂_reverse_iff.mpr h))

theorem page_concat {last : Text} (nonempty : last ≠ []) (lines : List Text) :
    page (lines ++ [last]) = unlines (lines ++ [last]) := by
  rw [page, List.reverse_append, List.reverse_singleton, List.singleton_append,
    List.dropWhile_cons_of_neg (by simpa using nonempty), List.reverse_cons, List.reverse_reverse]

end Pages

section Lines
variable {a : Text} {title : Text} {body bodies : List Text} {rows : List Row}

theorem alike_of_ne_nil (h : D.Rel a s) (ha : a ≠ []) (hs : s ≠ []) : D.Alike a s :=
  ⟨h, iff_of_false ha hs⟩

/-- The texts in the rows of a table are bare. -/
def BareRows (D : Dressing) (rows : List Row) : Prop :=
  ∀ row ∈ rows, D.Bare row.label ∧ D.Bare row.description

theorem alike_row (hs : D.Dresses style) (hd : D.Dresses dim) {row : Row} (label : D.Bare row.label)
    (description : D.Bare row.description) (width : Nat) :
    D.Alike (row.line width style dim) (row.line width id id) := by
  have indent : D.Bare "  " := bare_constant (by decide)
  have begun := D.rel_append _ _ _ _ indent.rel (hs.rel row.label label)
  have indented (t : Text) : ("  " : Text) ++ t ≠ [] :=
    List.append_ne_nil_of_left_ne_nil (by decide) t
  unfold Row.line
  split
  · exact alike_of_ne_nil begun (indented _) (indented _)
  · have gap := D.rel_append _ _ _ _ begun (bare_spaces (width - row.label.length + 2)).rel
    have whole := D.rel_append _ _ _ _ gap (hd.rel row.description description)
    simp only [List.append_assoc] at whole ⊢
    exact alike_of_ne_nil whole (indented _) (indented _)

theorem alike_table (hs : D.Dresses style) (hd : D.Dresses dim) (h : D.BareRows rows) :
    AlikeLines D (table style dim rows) (table id id rows) := by
  unfold AlikeLines table
  rw [List.forall₂_map_left_iff, List.forall₂_map_right_iff, List.forall₂_same]
  intro row hm
  obtain ⟨label, description⟩ := h row hm
  exact alike_row hs hd label description _

variable (dressed : D.DressesTheme theme)
include dressed

theorem alike_section (constant : IsConstant title) (h : AlikeLines D body bodies) :
    AlikeLines D (sectionLines theme title body) (sectionLines .plain title bodies) := by
  have bare : D.Bare title := bare_constant constant
  have heading := alike_of_ne_nil (dressed.heading.rel title bare)
    (dressed.heading.ne_nil title bare constant.1) constant.1
  unfold sectionLines
  cases h with
  | nil => exact .nil
  | cons first rest =>
    exact .cons heading (List.rel_append (.cons first rest) (.cons bare_nil.alike .nil))

theorem alike_headed (constant : IsConstant title) (h : D.Rel a s) :
    D.Alike (headed theme title a) (headed .plain title s) := by
  have bare : D.Bare title := bare_constant constant
  have gap : D.Bare " " := bare_constant (by decide)
  have begun := D.rel_append _ _ _ _ (dressed.heading.rel title bare) gap.rel
  refine alike_of_ne_nil (D.rel_append _ _ _ _ begun h) ?_ ?_
  · simp [headed, dressed.heading.ne_nil title bare constant.1]
  · simp [headed, Theme.plain, constant.1]

theorem alike_descriptionLine (h : D.Bare t) :
    AlikeLines D (descriptionLine theme t) (descriptionLine .plain t) := by
  unfold descriptionLine
  split
  · exact .nil
  · exact .cons (alike_headed dressed (by decide) h.rel) .nil

end Lines

section Shown
variable {tree : CommandTree} {flag : Flag} {command : Command} {topic : Topic}

theorem bare_flag (h : ∀ t ∈ flag.texts, D.Bare t) :
    D.Bare flag.label ∧ D.Bare flag.description := by
  simp only [Flag.texts, List.forall_mem_cons] at h
  obtain ⟨name, description, short⟩ := h
  refine ⟨?_, description⟩
  have dashes : D.Bare "--" := bare_constant (by decide)
  refine ((dashes.append name).append ?_).append ?_
  · cases hs : flag.short with
    | none => exact bare_nil
    | some text =>
      have comma : D.Bare ", " := bare_constant (by decide)
      have dash : D.Bare "-" := bare_constant (by decide)
      exact comma.append (dash.append (short text (by simp [hs])))
  · cases flag.kind with
    | bool => exact bare_nil
    | string => exact bare_constant (by decide)

theorem bareRows_map {α : Type} {things : List α} {row : α → Row}
    (h : ∀ thing ∈ things, D.Bare (row thing).label ∧ D.Bare (row thing).description) :
    D.BareRows (things.map row) :=
  List.forall_mem_map.mpr h

theorem bareRows_flagRows {flags : List Flag} (h : ∀ t ∈ flags.flatMap Flag.texts, D.Bare t) :
    D.BareRows (flagRows flags) :=
  bareRows_map fun flag hf => bare_flag fun t ht => h t (List.mem_flatMap.mpr ⟨flag, hf, ht⟩)

theorem bare_placeholder (h : D.Bare t) : D.Bare (placeholder t) := by
  have opening : D.Bare "<" := bare_constant (by decide)
  have closing : D.Bare ">" := bare_constant (by decide)
  exact (opening.append h).append closing

theorem bareRows_commandRows (h : ∀ c ∈ tree.commands, D.Bare c.name ∧ D.Bare c.description)
    (levels depth : Nat) {commands : List PlacedCommand}
    (held : ∀ c ∈ commands, c.toCommand ∈ tree.commands) :
    D.BareRows (commandRows tree levels depth commands) := by
  induction levels generalizing depth commands with
  | zero => exact List.forall_mem_nil _
  | succ levels ih =>
    refine List.forall_mem_flatMap.mpr fun c hc => ?_
    obtain ⟨name, description⟩ := h c.toCommand (held c hc)
    refine List.forall_mem_cons.mpr ⟨⟨(bare_spaces _).append name, description⟩, ?_⟩
    exact ih (depth + 1) fun d hd => (CommandTree.mem_commandsAt.mp hd).2.mem

variable (shown : ∀ t ∈ tree.texts, D.Bare t)
include shown

theorem bare_programName : D.Bare tree.programName := by
  unfold CommandTree.programName
  split
  · next app ha =>
    apply shown
    simp [CommandTree.texts, ha, Identity.texts]
  · exact bare_constant (by decide)

theorem bare_of_mem_commands (hc : command ∈ tree.commands) : ∀ t ∈ command.texts, D.Bare t := by
  intro t ht
  apply shown
  simp only [CommandTree.texts, List.mem_append, List.mem_flatMap]
  exact .inl (.inr ⟨command, hc, ht⟩)

theorem bareRows_globalFlags : D.BareRows (flagRows tree.globalFlags) := by
  refine bareRows_flagRows (List.forall_mem_append.mpr ⟨?_, ?_⟩)
  · have constant : ∀ t ∈ Flag.help.texts, IsConstant t := by decide
    exact fun t ht => bare_constant (constant t ht)
  · intro t ht
    apply shown
    simp only [CommandTree.texts, List.mem_append]
    exact .inl (.inl (.inr ht))

theorem bareRows_allCommandRows : D.BareRows (allCommandRows tree) := by
  refine bareRows_commandRows (fun c hc => ?_) _ _ fun c hc =>
    (CommandTree.mem_commandsAt.mp hc).2.mem
  have bare := bare_of_mem_commands shown hc
  simp only [Command.texts, List.forall_mem_cons] at bare
  exact ⟨bare.1, bare.2.1⟩

theorem bareRows_below (command : Command) :
    D.BareRows ((tree.below command).map fun c => ⟨c.name, c.description⟩) := by
  refine bareRows_map fun c hc => ?_
  have bare := bare_of_mem_commands shown (CommandTree.mem_commandsAt.mp hc).2.mem
  simp only [Command.texts, List.forall_mem_cons] at bare
  exact ⟨bare.1, bare.2.1⟩

theorem bare_of_mem_topics (ht : topic ∈ tree.topics) : ∀ t ∈ topic.texts, D.Bare t := by
  intro t hm
  apply shown
  simp only [CommandTree.texts, List.mem_append, List.mem_flatMap]
  exact .inr ⟨topic, ht, hm⟩

theorem bareRows_topics :
    D.BareRows (tree.topics.map fun t => ⟨t.name, t.description⟩) := by
  refine bareRows_map fun topic ht => ?_
  have bare := bare_of_mem_topics shown ht
  simp only [Topic.texts, List.forall_mem_cons] at bare
  exact ⟨bare.1, bare.2.1⟩

/-- The texts of a command that its own page shows. -/
structure BareCommand (D : Dressing) (command : Command) : Prop where
  segments : ∀ t ∈ command.segments, D.Bare t
  description : D.Bare command.description
  flags : ∀ t ∈ command.flags.flatMap Flag.texts, D.Bare t
  args : ∀ a ∈ command.args, D.Bare a.name ∧ D.Bare a.description
  examples : ∀ t ∈ command.examples, D.Bare t

theorem bareCommand (hc : command ∈ tree.commands) : D.BareCommand command := by
  have bare := bare_of_mem_commands shown hc
  simp only [Command.texts, List.forall_mem_cons, List.forall_mem_append] at bare
  obtain ⟨-, description, ⟨⟨segments, flags⟩, args⟩, examples⟩ := bare
  refine ⟨segments, description, flags, fun a ha => ?_, examples⟩
  have both : ∀ t ∈ a.texts, D.Bare t := fun t ht => args t (List.mem_flatMap.mpr ⟨a, ha, ht⟩)
  obtain ⟨name, description⟩ := List.forall_mem_cons.mp both
  exact ⟨name, List.forall_mem_singleton.mp description⟩

theorem bare_usageLine (bare : D.BareCommand command) : D.Bare (usageLine tree command) := by
  have space : D.Bare " " := bare_constant (by decide)
  refine bare_join space (List.forall_mem_append.mpr ⟨List.forall_mem_append.mpr
    ⟨List.forall_mem_append.mpr ⟨?_, ?_⟩, ?_⟩, List.forall_mem_map.mpr ?_⟩)
  · exact List.forall_mem_cons.mpr ⟨bare_programName shown, bare.segments⟩
  · split
    · exact List.forall_mem_nil _
    · exact List.forall_mem_singleton.mpr (bare_constant (by decide))
  · split
    · exact List.forall_mem_nil _
    · exact List.forall_mem_singleton.mpr (bare_constant (by decide))
  · exact fun a ha => bare_placeholder (bare.args a ha).1

end Shown

section Help
variable {tree : CommandTree} {command : Command} {topic : Topic}
variable (dressed : D.DressesTheme theme) (shown : ∀ t ∈ tree.texts, D.Bare t)
include dressed

/-- A program without a name and a purpose has an empty first line only under the plain theme. That
line is not at the end of the page, so that it need not be alike. -/
theorem rel_identityLines (app : Option Identity)
    (h : ∀ t ∈ app.toList.flatMap Identity.texts, D.Bare t) :
    List.Forall₂ D.Rel (identityLines theme app) (identityLines .plain app) := by
  cases app with
  | none => exact .nil
  | some app =>
    have name : D.Bare app.name := h _ (by simp [Identity.texts])
    have tagline : D.Bare app.tagline := h _ (by simp [Identity.texts])
    have suffix : D.Bare (taglineSuffix app.tagline) := by
      unfold taglineSuffix
      split
      · exact bare_nil
      · have dash : D.Bare " - " := bare_constant (by decide)
        exact dash.append tagline
    have first := D.rel_append _ _ _ _ (dressed.title.rel _ name) suffix.rel
    exact .cons first (.cons bare_nil.rel .nil)

theorem alike_usage {text : Text} (h : D.Bare text) :
    AlikeLines D (sectionLines theme "Usage:" ["  " ++ text])
      (sectionLines .plain "Usage:" ["  " ++ text]) := by
  have indent : D.Bare "  " := bare_constant (by decide)
  exact alike_section dressed (by decide) (.cons (indent.append h).alike .nil)

theorem alike_examples {examples : List Text} (h : ∀ t ∈ examples, D.Bare t) :
    AlikeLines D (examples.map fun e => "  " ++ theme.prompt "$" ++ " " ++ e)
      (examples.map fun e => "  " ++ Theme.plain.prompt "$" ++ " " ++ e) := by
  have indent : D.Bare "  " := bare_constant (by decide)
  have gap : D.Bare " " := bare_constant (by decide)
  have sign := dressed.prompt.rel "$" (bare_constant (by decide))
  have begun := D.rel_append _ _ _ _ (D.rel_append _ _ _ _ indent.rel sign) gap.rel
  unfold AlikeLines
  rw [List.forall₂_map_left_iff, List.forall₂_map_right_iff, List.forall₂_same]
  intro e he
  refine alike_of_ne_nil (D.rel_append _ _ _ _ begun (h e he).rel) ?_ ?_
  all_goals simp only [List.append_assoc]
  all_goals exact List.append_ne_nil_of_left_ne_nil (by decide) _

theorem rel_topicPage (h : ∀ t ∈ topic.texts, D.Bare t) :
    D.Rel (topicPage theme topic) (topicPage .plain topic) := by
  simp only [Topic.texts, List.forall_mem_cons] at h
  obtain ⟨name, description, body⟩ := h
  have first : D.Alike (headed theme "Topic:" (theme.command topic.name))
      (headed .plain "Topic:" topic.name) :=
    alike_headed dressed (by decide) (dressed.command.rel _ name)
  refine rel_page (List.rel_append
    (.cons first (alike_descriptionLine dressed description)) ?_)
  cases hb : topic.body with
  | none => exact .nil
  | some text =>
    cases text with
    | nil => exact .nil
    | cons u text =>
      have shown : D.Bare (u :: text) := body _ (by simp [hb])
      exact .cons bare_nil.alike (.cons shown.alike .nil)

include shown

theorem rel_rootPage : D.Rel (rootPage tree theme) (rootPage tree .plain) := by
  have program := bare_programName shown
  have more : D.Bare ("Run '" ++ tree.programName ++ " <command> --help' for more details.") := by
    have before : D.Bare "Run '" := bare_constant (by decide)
    have behind : D.Bare " <command> --help' for more details." := bare_constant (by decide)
    exact (before.append program).append behind
  have nonempty : ("Run '" ++ tree.programName ++ " <command> --help' for more details." : Text)
      ≠ [] := List.append_ne_nil_of_right_ne_nil _ (by decide)
  have usage : D.Bare (tree.programName ++ " [flags] <command>") :=
    program.append (bare_constant (by decide))
  have identity := rel_identityLines dressed tree.app fun t ht =>
    shown t (by simp only [CommandTree.texts, List.mem_append]; exact .inl (.inl (.inl ht)))
  rw [rootPage, rootPage, page_concat nonempty, page_concat nonempty]
  refine rel_unlines (List.rel_append (List.rel_append (List.rel_append (List.rel_append
    (List.rel_append identity ?_) ?_) ?_) ?_) (.cons more.rel .nil))
  · exact (alike_usage dressed usage).rel
  · exact (alike_section dressed (by decide)
      (alike_table dressed.flag dressed.dim (bareRows_globalFlags shown))).rel
  · exact (alike_section dressed (by decide)
      (alike_table dressed.command dressed.dim (bareRows_allCommandRows shown))).rel
  · exact (alike_section dressed (by decide)
      (alike_table dressed.command dressed.dim (bareRows_topics shown))).rel

theorem rel_commandPage (hc : command ∈ tree.commands) :
    D.Rel (commandPage tree theme command) (commandPage tree .plain command) := by
  have bare := bareCommand shown hc
  have first : D.Alike (headed theme "Command:" (theme.command (join " " command.segments)))
      (headed .plain "Command:" (join " " command.segments)) :=
    alike_headed dressed (by decide)
      (dressed.command.rel _ (bare_join (bare_constant (by decide)) bare.segments))
  refine rel_page (List.rel_append (List.rel_append (List.rel_append (List.rel_append
    (List.rel_append (List.rel_append
      (.cons first (alike_descriptionLine dressed bare.description)) (.cons bare_nil.alike .nil))
    ?_) ?_) ?_) ?_) ?_)
  · exact alike_usage dressed (bare_usageLine shown bare)
  · exact alike_section dressed (by decide)
      (alike_table dressed.command dressed.dim (bareRows_below shown command))
  · exact alike_section dressed (by decide)
      (alike_table dressed.argument dressed.dim (bareRows_map fun a ha =>
        ⟨bare_placeholder (bare.args a ha).1, (bare.args a ha).2⟩))
  · exact alike_section dressed (by decide)
      (alike_table dressed.flag dressed.dim (bareRows_flagRows bare.flags))
  · exact alike_section dressed (by decide) (alike_examples dressed bare.examples)

/-- Help under a theme goes with the help under the plain theme. -/
theorem rel_help (scope : HelpScope) : D.Rel (tree.help theme scope) (tree.help .plain scope) := by
  cases scope with
  | root => exact rel_rootPage dressed shown
  | command position =>
    simp only [CommandTree.help]
    cases hc : tree.commands[position]? with
    | none => exact bare_nil.rel
    | some command => exact rel_commandPage dressed shown (List.mem_of_getElem? hc)
  | topic index =>
    simp only [CommandTree.help]
    cases ht : tree.topics[index]? with
    | none => exact bare_nil.rel
    | some topic =>
      exact rel_topicPage dressed (bare_of_mem_topics shown (List.mem_of_getElem? ht))

end Help

end Dressing

end Help

end CommandLanguage

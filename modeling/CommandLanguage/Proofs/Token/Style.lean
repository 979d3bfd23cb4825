import CommandLanguage.Compile
import CommandLanguage.Proofs.Text.Block
import CommandLanguage.Proofs.Token.Layout

/-!
# Indentation and line ends

How the lines of a source are indented, and which of them end in a carriage return and a line
feed, is a matter of style: scanning finds the same tokens on the same lines, in comments, in
blocks and where a token is not complete as well as between tokens.
-/

set_option autoImplicit false

namespace CommandLanguage

open Text

namespace Text

/-- What a change of style puts next to a line feed. -/
def IsMargin (t : Text) : Prop := ∀ u ∈ t, u = carriageReturn ∨ isIndent u = true

/-- The second text is the first one in another style. No indentation is added at its beginning,
which may lie within a line. -/
inductive Restyled : Text → Text → Prop where
  | nil : Restyled [] []
  | unit {u : CodeUnit} {t t' : Text} (inLine : u ≠ lineFeed) (plain : u ≠ carriageReturn)
      (others : Restyled t t') : Restyled (u :: t) (u :: t')
  | line {ending indent t t' : Text} (ended : ending = [] ∨ ending = [carriageReturn])
      (indented : ∀ u ∈ indent, isIndent u = true) (others : Restyled t t') :
      Restyled (lineFeed :: t) (ending ++ lineFeed :: (indent ++ t'))

section Margin
variable {margin t : Text}

theorem isMargin_ending {ending : Text} (h : ending = [] ∨ ending = [carriageReturn]) :
    IsMargin ending := by
  intro u hu
  rcases h with rfl | rfl
  · exact absurd hu List.not_mem_nil
  · exact .inl (List.mem_singleton.mp hu)

theorem isMargin_indent {indent : Text} (h : ∀ u ∈ indent, isIndent u = true) :
    IsMargin indent :=
  fun u hu => .inr (h u hu)

theorem IsMargin.of_cons {u : CodeUnit} (h : IsMargin (u :: margin)) :
    (u = carriageReturn ∨ isIndent u = true) ∧ IsMargin margin :=
  List.forall_mem_cons.mp h

theorem IsMargin.not_mem (h : IsMargin margin) {u : CodeUnit} (differs : u ≠ carriageReturn)
    (visible : isIndent u = false) : u ∉ margin := by
  intro hu
  rcases h u hu with he | he
  · exact differs he
  · rw [visible] at he
    cases he

theorem IsMargin.lineFeed_not_mem (h : IsMargin margin) : lineFeed ∉ margin :=
  h.not_mem (by decide) (by decide)

theorem IsMargin.quote_not_mem (h : IsMargin margin) : quote ∉ margin :=
  h.not_mem (by decide) (by decide)

theorem IsMargin.isBlank (h : IsMargin margin) : ∀ u ∈ margin, isBlank u = true := by
  intro u hu
  rcases h u hu with rfl | hi
  · decide
  · exact isBlank_of_isIndent hi

theorem splitAtTripleQuote_append (h : quote ∉ margin) :
    splitAtTripleQuote (margin ++ t) =
      (splitAtTripleQuote t).map fun (before, after) => (margin ++ before, after) := by
  induction margin with
  | nil => simp
  | cons u margin ih =>
    have hu : quote ≠ u := List.ne_of_not_mem_cons h
    rw [List.cons_append, splitAtTripleQuote, if_neg (by simp [List.isPrefixOf, hu]),
      ih (List.not_mem_of_not_mem_cons h), Option.map_map]
    rfl

end Margin

namespace Restyled

variable {t t' : Text}

theorem eq_nil (h : Restyled [] t') : t' = [] := by
  cases h
  rfl

theorem exists_cons {u : CodeUnit} (h : Restyled (u :: t) t') (inLine : u ≠ lineFeed) :
    ∃ rest, t' = u :: rest ∧ Restyled t rest := by
  cases h with
  | unit _ _ others => exact ⟨_, rfl, others⟩
  | line _ _ _ => exact absurd rfl inLine

theorem lineFeeds_eq (h : Restyled t t') : t.lineFeeds = t'.lineFeeds := by
  induction h with
  | nil => rfl
  | unit inLine _ _ ih => rw [lineFeeds_cons_of_ne inLine, lineFeeds_cons_of_ne inLine, ih]
  | line ended indented _ ih =>
    have hending := lineFeeds_of_not_mem (isMargin_ending ended).lineFeed_not_mem
    have hindent := lineFeeds_of_not_mem (isMargin_indent indented).lineFeed_not_mem
    rw [lineFeeds_append, lineFeeds_lineFeed_cons, lineFeeds_lineFeed_cons, lineFeeds_append,
      hending, hindent, ih, Int.zero_add, Int.zero_add]

section Runs
variable {p : CodeUnit → Bool}

theorem dropWhile (h : Restyled t t') (stops : p lineFeed = false) :
    Restyled (t.dropWhile p) (t'.dropWhile p) := by
  induction h with
  | nil => exact .nil
  | @unit u t t' inLine plain others ih =>
    by_cases hu : p u = true
    · rw [List.dropWhile_cons_of_pos hu, List.dropWhile_cons_of_pos hu]
      exact ih
    · rw [List.dropWhile_cons_of_neg hu, List.dropWhile_cons_of_neg hu]
      exact .unit inLine plain others
  | @line ending indent t t' ended indented others ih =>
    have hstop : ¬ p lineFeed = true := by simp [stops]
    rw [List.dropWhile_cons_of_neg hstop]
    -- A run that goes on over the carriage return ends at the line feed behind it.
    rcases ended with rfl | rfl
    · rw [List.nil_append, List.dropWhile_cons_of_neg hstop]
      exact .line (.inl rfl) indented others
    · by_cases hr : p carriageReturn = true
      · rw [List.cons_append, List.dropWhile_cons_of_pos hr, List.nil_append,
          List.dropWhile_cons_of_neg hstop]
        exact .line (.inl rfl) indented others
      · rw [List.cons_append, List.dropWhile_cons_of_neg hr]
        exact .line (.inr rfl) indented others

theorem takeWhile_eq (h : Restyled t t') (stops : p lineFeed = false)
    (ends : p carriageReturn = false ∨ (t.dropWhile p).head? ≠ some lineFeed) :
    t.takeWhile p = t'.takeWhile p := by
  induction h with
  | nil => rfl
  | @unit u t t' _ _ _ ih =>
    by_cases hu : p u = true
    · rw [List.dropWhile_cons_of_pos hu] at ends
      rw [List.takeWhile_cons_of_pos hu, List.takeWhile_cons_of_pos hu, ih ends]
    · rw [List.takeWhile_cons_of_neg hu, List.takeWhile_cons_of_neg hu]
  | @line ending indent t t' ended _ _ _ =>
    have hstop : ¬ p lineFeed = true := by simp [stops]
    rw [List.dropWhile_cons_of_neg hstop] at ends
    have hreturn : ¬ p carriageReturn = true := by
      rcases ends with ends | ends
      · simp [ends]
      · exact absurd rfl ends
    rw [List.takeWhile_cons_of_neg hstop]
    rcases ended with rfl | rfl
    · exact (List.takeWhile_cons_of_neg hstop).symm
    · exact (List.takeWhile_cons_of_neg hreturn).symm

/-- A text that lies within a line begins both or neither. -/
theorem isPrefixOf_cases (h : Restyled t t') (start : Text) (inLine : lineFeed ∉ start)
    (plain : carriageReturn ∉ start) :
    start.isPrefixOf t = true ∧ start.isPrefixOf t' = true ∧
        Restyled (t.drop start.length) (t'.drop start.length) ∨
      start.isPrefixOf t = false ∧ start.isPrefixOf t' = false := by
  induction start generalizing t t' with
  | nil => exact .inl ⟨rfl, rfl, h⟩
  | cons v start ih =>
    have hline : v ≠ lineFeed := Ne.symm (List.ne_of_not_mem_cons inLine)
    have hplain : v ≠ carriageReturn := Ne.symm (List.ne_of_not_mem_cons plain)
    cases h with
    | nil => exact .inr ⟨rfl, rfl⟩
    | @unit u t t' _ _ others =>
      have hrest := ih others (List.not_mem_of_not_mem_cons inLine)
        (List.not_mem_of_not_mem_cons plain)
      by_cases hv : v = u
      · simpa [List.isPrefixOf, hv] using hrest
      · simp [List.isPrefixOf, hv]
    | line ended _ _ =>
      rcases ended with rfl | rfl
      · simp [List.isPrefixOf, hline]
      · simp [List.isPrefixOf, hline, hplain]

end Runs

theorem split_rel (h : Restyled t t') :
    Option.Rel (fun parts parts' => Restyled parts.1 parts'.1 ∧ Restyled parts.2 parts'.2)
      (splitAtTripleQuote t) (splitAtTripleQuote t') := by
  induction h with
  | nil => exact .none
  | @unit u t t' inLine plain others ih =>
    have hquotes := (Restyled.unit inLine plain others).isPrefixOf_cases [quote, quote, quote]
      (by decide) (by decide)
    rcases hquotes with ⟨ht, ht', hrest⟩ | ⟨ht, ht'⟩
    · rw [splitAtTripleQuote, splitAtTripleQuote, if_pos ht, if_pos ht']
      exact .some ⟨.nil, hrest⟩
    · rw [splitAtTripleQuote, splitAtTripleQuote, if_neg (Bool.eq_false_iff.mp ht),
        if_neg (Bool.eq_false_iff.mp ht')]
      generalize splitAtTripleQuote t = parts, splitAtTripleQuote t' = parts' at ih ⊢
      cases ih with
      | none => exact .none
      | some parts => exact .some ⟨.unit inLine plain parts.1, parts.2⟩
  | @line ending indent t t' ended indented _ ih =>
    have hfeed : quote ∉ [lineFeed] := by decide
    have hmargin : quote ∉ ending ++ lineFeed :: indent := by
      intro hq
      rcases List.mem_append.mp hq with hq | hq
      · exact (isMargin_ending ended).quote_not_mem hq
      · rcases List.mem_cons.mp hq with hq | hq
        · exact absurd hq (by decide)
        · exact (isMargin_indent indented).quote_not_mem hq
    have hassoc : ending ++ lineFeed :: (indent ++ t') = (ending ++ lineFeed :: indent) ++ t' := by
      simp
    rw [← List.singleton_append, hassoc, splitAtTripleQuote_append hfeed,
      splitAtTripleQuote_append hmargin]
    generalize splitAtTripleQuote t = parts, splitAtTripleQuote t' = parts' at ih ⊢
    cases ih with
    | none => exact .none
    | some parts =>
      refine .some ⟨?_, parts.2⟩
      simpa using Restyled.line ended indented parts.1

/-- The first lines agree up to a carriage return, the others in all that a block takes of them. -/
theorem exists_lines (h : Restyled t t') : ∃ first ending others others',
    t.lines = first :: others ∧ t'.lines = (first ++ ending) :: others' ∧
      carriageReturn ∉ first ∧ (ending = [] ∨ ending = [carriageReturn]) ∧
      others.map content = others'.map content := by
  induction h with
  | nil => exact ⟨[], [], [], [], lines_nil, lines_nil, List.not_mem_nil, .inl rfl, rfl⟩
  | @unit u t t' inLine plain _ ih =>
    obtain ⟨first, ending, others, others', ht, ht', hf, ended, hothers⟩ := ih
    refine ⟨u :: first, ending, others, others', ?_, ?_, ?_, ended, hothers⟩
    · rw [lines_cons_of_ne inLine, ht]
      rfl
    · rw [lines_cons_of_ne inLine, ht']
      rfl
    · exact List.not_mem_cons_of_ne_of_not_mem (Ne.symm plain) hf
  | @line ending indent t t' ended indented _ ih =>
    obtain ⟨first, ending', others, others', ht, ht', hf, ended', hothers⟩ := ih
    refine ⟨[], ending, first :: others, (indent ++ (first ++ ending')) :: others', ?_, ?_,
      List.not_mem_nil, ended, ?_⟩
    · rw [lines_lineFeed_cons, ht]
    · rw [lines_append (isMargin_ending ended).lineFeed_not_mem, lines_lineFeed_cons,
        lines_append (isMargin_indent indented).lineFeed_not_mem, ht']
      simp
    · rw [List.map_cons, List.map_cons, content_append indented hf ended', hothers]

theorem blockBody_eq (h : Restyled t t') : blockBody t = blockBody t' := by
  obtain ⟨first, ending, others, others', ht, ht', hf, ended, hothers⟩ := h.exists_lines
  have hfirst : content (first ++ ending) = content first :=
    content_append (List.forall_mem_nil _) hf ended
  apply blockBody_congr
  rw [ht, ht', List.map_cons, List.map_cons, hfirst, hothers]

end Restyled

end Text

namespace Cursor

/-- The cursors are on the same line, before the same text up to its style. -/
structure Alike (c c' : Cursor) : Prop where
  line : c.line = c'.line
  rest : Restyled c.rest c'.rest

variable {t t' : Text}

theorem skipTrivia_blank {margin : Text} (h : IsMargin margin) (inComment : Bool) (t : Text)
    (line : Int) : skipTrivia inComment (margin ++ t) line = skipTrivia inComment t line := by
  induction margin with
  | nil => rfl
  | cons u margin ih =>
    have hfeed : u ≠ lineFeed := Ne.symm (List.ne_of_not_mem_cons h.lineFeed_not_mem)
    have hblank : isBlank u = true := h.isBlank u List.mem_cons_self
    rw [List.cons_append, skipTrivia, if_neg hfeed, if_pos (by simp [hblank]), ih h.of_cons.2]

theorem ne_lineFeed_of_skipTrivia {inComment : Bool} {line : Int} {u : CodeUnit} {rest : Text}
    (h : (skipTrivia inComment t line).rest = u :: rest) : u ≠ lineFeed := by
  induction t generalizing inComment line with
  | nil => cases h
  | cons v t ih =>
    unfold skipTrivia at h
    split at h
    · exact ih h
    · next hv =>
      split at h
      · exact ih h
      · split at h
        · exact ih h
        · cases h
          exact hv

theorem skipTrivia_alike (h : Restyled t t') (inComment : Bool) (line : Int) :
    Alike (skipTrivia inComment t line) (skipTrivia inComment t' line) := by
  induction h generalizing inComment line with
  | nil => exact ⟨rfl, .nil⟩
  | unit inLine plain others ih =>
    rw [skipTrivia, skipTrivia, if_neg inLine, if_neg inLine]
    split
    · apply ih
    · split
      · apply ih
      · exact ⟨rfl, .unit inLine plain others⟩
  | line ended indented _ ih =>
    rw [skipTrivia_lineFeed, skipTrivia_blank (isMargin_ending ended), skipTrivia_lineFeed,
      skipTrivia_blank (isMargin_indent indented)]
    apply ih

/-- What was read is the same, and so is the place behind it. -/
def Agree {α : Type} (r r' : α × Cursor) : Prop := r.1 = r'.1 ∧ Alike r.2 r'.2

theorem string_agree (h : Restyled t t') (line : Int) :
    Agree (string t line) (string t' line) := by
  rcases h.isPrefixOf_cases [quote, quote] (by decide) (by decide) with
    ⟨ht, ht', hbody⟩ | ⟨ht, ht'⟩
  · have hbody : Restyled (t.drop 2) (t'.drop 2) := hbody
    have hsplit := hbody.split_rel
    rw [string, string, if_pos ht, if_pos ht']
    generalize splitAtTripleQuote (t.drop 2) = parts,
      splitAtTripleQuote (t'.drop 2) = parts' at hsplit ⊢
    cases hsplit with
    | none => exact ⟨rfl, by rw [hbody.lineFeeds_eq], .nil⟩
    | some parts =>
      obtain ⟨hraw, hafter⟩ := parts
      exact ⟨congrArg TokenKind.string hraw.blockBody_eq,
        congrArg (line + ·) hraw.lineFeeds_eq, hafter⟩
  · have hrest : Restyled (t.dropWhile isStringPart) (t'.dropWhile isStringPart) :=
      h.dropWhile (by decide)
    have hvalue : (t.dropWhile isStringPart).head? = some quote →
        t.takeWhile isStringPart = t'.takeWhile isStringPart := by
      intro hq
      apply h.takeWhile_eq (by decide) (.inr _)
      rw [hq]
      decide
    rw [string, string, if_neg (Bool.eq_false_iff.mp ht), if_neg (Bool.eq_false_iff.mp ht')]
    generalize t.dropWhile isStringPart = behind,
      t'.dropWhile isStringPart = behind' at hrest hvalue ⊢
    cases hrest with
    | nil => exact ⟨rfl, rfl, .nil⟩
    | @unit u after after' inLine plain others =>
      by_cases hu : u = quote
      · subst hu
        exact ⟨congrArg TokenKind.string (hvalue rfl), rfl, others⟩
      · simp only [if_neg hu]
        exact ⟨rfl, rfl, .unit inLine plain others⟩
    | line ended indented others =>
      rcases ended with rfl | rfl
      · exact ⟨rfl, rfl, .line (.inl rfl) indented others⟩
      · exact ⟨rfl, rfl, .line (.inr rfl) indented others⟩

theorem token_agree (h : Restyled t t') (u : CodeUnit) (line : Int) :
    Agree (token u t line) (token u t' line) := by
  have hrun {p : CodeUnit → Bool} (feed : p lineFeed = false) (ret : p carriageReturn = false) :
      t.takeWhile p = t'.takeWhile p ∧ Restyled (t.dropWhile p) (t'.dropWhile p) :=
    ⟨h.takeWhile_eq feed (.inl ret), h.dropWhile feed⟩
  unfold token
  split
  · exact string_agree h line
  · split
    · exact ⟨rfl, rfl, h⟩
    · split
      · obtain ⟨htake, hdrop⟩ := hrun (p := isDigit) (by decide) (by decide)
        exact ⟨by rw [htake], rfl, hdrop⟩
      · split
        · obtain ⟨htake, hdrop⟩ := hrun (p := isIdentifierPart) (by decide) (by decide)
          exact ⟨by rw [htake], rfl, hdrop⟩
        · exact ⟨rfl, rfl, h⟩

theorem next_agree {c c' : Cursor} (h : Alike c c') : Agree c.next c'.next := by
  have hhere := skipTrivia_alike h.rest false c.line
  have hstop {u : CodeUnit} {rest : Text} :
      (skipTrivia false c.rest c.line).rest = u :: rest → u ≠ lineFeed :=
    ne_lineFeed_of_skipTrivia
  simp only [next, ← h.line]
  generalize skipTrivia false c.rest c.line = here,
    skipTrivia false c'.rest c.line = here' at hhere hstop ⊢
  obtain ⟨rest, line⟩ := here
  obtain ⟨rest', line'⟩ := here'
  obtain ⟨rfl, hrest⟩ := hhere
  cases rest with
  | nil =>
    obtain rfl := hrest.eq_nil
    exact ⟨rfl, rfl, .nil⟩
  | cons u rest =>
    obtain ⟨behind, rfl, hbehind⟩ := hrest.exists_cons (hstop rfl)
    obtain ⟨hkind, hafter⟩ := token_agree hbehind u line
    exact ⟨by simp only [hkind], hafter⟩

theorem tokens_eq {c c' : Cursor} (h : Alike c c') : c.tokens = c'.tokens := by
  induction c using tokens.induct generalizing c' with
  | case1 c hlast =>
    obtain ⟨htoken, _⟩ := next_agree h
    rw [tokens, if_pos hlast, tokens, if_pos (htoken ▸ hlast), htoken]
  | case2 c hlast ih =>
    obtain ⟨htoken, hbehind⟩ := next_agree h
    have hnext : c'.tokens = c'.next.1 :: c'.next.2.tokens := by
      rw [tokens, if_neg (htoken ▸ hlast)]
    rw [tokens, if_neg hlast, hnext, htoken, ih hbehind]

theorem tokens_indent {indent : Text} (h : ∀ u ∈ indent, isIndent u = true) (t : Text)
    (line : Int) : tokens ⟨indent ++ t, line⟩ = tokens ⟨t, line⟩ := by
  have hnext : next ⟨indent ++ t, line⟩ = next ⟨t, line⟩ := by
    simp only [next, skipTrivia_blank (isMargin_indent h)]
  rw [tokens, hnext, ← tokens]

end Cursor

/-- How the lines of a text, counted from zero, are indented and ended. -/
structure Style where
  indent : Nat → Text
  /-- The lines that end in a carriage return and a line feed. -/
  returns : Nat → Bool
  indented : ∀ line, ∀ u ∈ indent line, isIndent u = true

namespace Style

/-- Writes the rest of a line, and each line behind it, in a style. -/
def writeFrom (style : Style) (line : Nat) : Text → Text
  | [] => []
  | u :: rest =>
    if u = lineFeed then
      (if style.returns line then [carriageReturn] else []) ++
        lineFeed :: (style.indent (line + 1) ++ style.writeFrom (line + 1) rest)
    else u :: style.writeFrom line rest

def write (style : Style) (source : Text) : Text := style.indent 0 ++ style.writeFrom 0 source

theorem restyled_writeFrom (style : Style) {t : Text} (plain : carriageReturn ∉ t) (line : Nat) :
    Restyled t (style.writeFrom line t) := by
  induction t generalizing line with
  | nil => exact .nil
  | cons u t ih =>
    have hu : u ≠ carriageReturn := Ne.symm (List.ne_of_not_mem_cons plain)
    have hrest := ih (List.not_mem_of_not_mem_cons plain)
    rw [writeFrom]
    split
    · next hfeed =>
      subst hfeed
      apply Restyled.line _ (style.indented (line + 1)) (hrest (line + 1))
      split
      · exact .inr rfl
      · exact .inl rfl
    · next hfeed => exact .unit hfeed hu (hrest line)

theorem scan_write (style : Style) {source : Text} (plain : carriageReturn ∉ source) :
    scan (style.write source) = scan source := by
  have hstart : Cursor.Alike (.start source) (.start (style.writeFrom 0 source)) :=
    ⟨rfl, style.restyled_writeFrom plain 0⟩
  rw [scan, scan, Cursor.tokens_eq hstart]
  exact Cursor.tokens_indent (style.indented 0) _ 1

end Style

/-- Indentation and line ends never show: neither in the tokens and their lines, nor in what a
source declares, nor in what is wrong with it. -/
theorem style_invisible (style : Style) {source : Text} (plain : carriageReturn ∉ source) :
    scan (style.write source) = scan source ∧
      parse (style.write source) = parse source ∧
      compile (style.write source) = compile source := by
  have hscan := style.scan_write plain
  have hparse : parse (style.write source) = parse source := by
    rw [parse, parse, hscan]
  refine ⟨hscan, hparse, ?_⟩
  rw [compile, compile, hparse]

/-- One space more or a tab before each line, and a carriage return behind every second one. -/
def staggered : Style where
  indent line := List.replicate line (if line % 2 = 0 then unit '\t' else unit ' ')
  returns line := line % 2 == 1
  indented line u hu := by
    rw [List.eq_of_mem_replicate hu]
    split <;> decide

/-- A comment, a block whose closing quotes begin a line, and a string that is not closed. -/
theorem staggered_invisible :
    carriageReturn ∉ ofString "a # b\n\"\"\"\n c\n\nd\"\n\"\"\"\n\"e\n" ∧
      staggered.write "a # b\n\"\"\"\n c\n\nd\"\n\"\"\"\n\"e\n" =
        "a # b\n \"\"\"\r\n\t\t c\n   \r\n\t\t\t\td\"\n     \"\"\"\r\n\t\t\t\t\t\t\"e\n       " ∧
      scan (staggered.write "a # b\n\"\"\"\n c\n\nd\"\n\"\"\"\n\"e\n") =
        scan "a # b\n\"\"\"\n c\n\nd\"\n\"\"\"\n\"e\n" := by
  have plain : carriageReturn ∉ ofString "a # b\n\"\"\"\n c\n\nd\"\n\"\"\"\n\"e\n" := by decide
  exact ⟨plain, by decide, (style_invisible staggered plain).1⟩

end CommandLanguage

import CommandLanguage.Generated.Fragment
import CommandLanguage.Proofs.Text.Apostrophes
import Mathlib.Data.List.Chain

/-!
# Comments and literals in generated code

A program is read from its front: a double quote begins a literal, a slash and a star begin a comment,
and each of them runs up to its own end, whatever stands in it. Between them stands code, in which
literals between apostrophes are passed over. `Holds` says of a part of a program that these are its
comments and literals wherever it stands, so it is kept when parts are put together.
-/

set_option autoImplicit false

namespace CommandLanguage

namespace Text

/-- What ends a comment. -/
def closing : Text := [unit '*', unit '/']

/-- No comment ends in the text. -/
def Unclosed (t : Text) : Prop := t.IsChain fun u v => ¬ (u = unit '*' ∧ v = unit '/')

/-- The text ends with the end of a comment, and no comment ends before. -/
def ClosesOnce (t : Text) : Prop :=
  closing <:+ t ∧ ∀ before after, t = before ++ (closing ++ after) → after = []

/-- Reads the rest of a comment; gives what stands in it and what follows. -/
def readComment : Text → Option (Text × Text)
  | [] => none
  | u :: rest =>
    if closing.isPrefixOf (u :: rest) then some ([], rest.tail)
    else (readComment rest).map fun (body, behind) => (u :: body, behind)

section Comments
variable {t body value behind : Text}

theorem length_readComment_lt (h : readComment t = some (body, behind)) :
    behind.length < t.length := by
  induction t generalizing body behind with
  | nil => cases h
  | cons u rest ih =>
    unfold readComment at h
    split at h
    · cases h
      simp only [List.length_tail, List.length_cons]
      omega
    · obtain ⟨⟨_, _⟩, read, he⟩ := Option.map_eq_some_iff.mp h
      cases he
      exact Nat.lt_succ_of_lt (ih read)

theorem Unclosed.not_closing_prefix {u : CodeUnit} (h : Unclosed (u :: body)) (behind : Text) :
    ¬ closing <+: u :: (body ++ (closing ++ behind)) := by
  rintro ⟨after, he⟩
  obtain ⟨rfl, hrest⟩ := List.cons.inj he
  clear he
  cases body with
  | nil => exact absurd (List.cons.inj hrest).1 (by decide)
  | cons v body =>
    obtain ⟨rfl, _⟩ := List.cons.inj hrest
    exact (List.isChain_cons_cons.mp h).1 ⟨rfl, rfl⟩

theorem Unclosed.readComment_eq (h : Unclosed body) (behind : Text) :
    readComment (body ++ (closing ++ behind)) = some (body, behind) := by
  induction body with
  | nil => rfl
  | cons u body ih =>
    rw [List.cons_append, readComment, if_neg, ih h.tail]
    · rfl
    · rw [List.isPrefixOf_iff_prefix]
      exact h.not_closing_prefix behind

theorem Unclosed.closesOnce (h : Unclosed body) : ClosesOnce (body ++ closing) := by
  refine ⟨List.suffix_append body closing, ?_⟩
  intro before after he
  induction body generalizing before with
  | nil =>
    have := congrArg List.length he
    simp only [List.nil_append, List.length_append] at this
    exact List.length_eq_zero_iff.mp (by omega)
  | cons u body ih =>
    cases before with
    | nil =>
      have start : closing <+: u :: (body ++ (closing ++ [])) := ⟨after, by simpa using he.symm⟩
      exact absurd start (h.not_closing_prefix [])
    | cons v before => exact ih h.tail before (List.cons.inj he).2

end Comments

end Text

namespace Generated

open Text

section Breaking
variable {t : Text} {u : CodeUnit}

theorem commentBody_nil : commentBody [] = [] := by
  rw [commentBody, replaceAll]

/-- The end of a comment is broken up, and anything else is kept. -/
theorem commentBody_cons (u : CodeUnit) (rest : Text) : commentBody (u :: rest) =
    if closing <+: u :: rest then [unit '*', unit '\\', unit '/'] ++ commentBody rest.tail
    else u :: commentBody rest := by
  rw [commentBody, replaceAll]
  simp only [List.isPrefixOf_iff_prefix]
  have mark : ("*/" : Text) = closing := by decide
  have broken : ("*\\/" : Text) = [unit '*', unit '\\', unit '/'] := by decide
  rw [mark, broken, ← List.drop_one]
  rw [commentBody, commentBody, mark, broken]
  rfl

theorem head?_commentBody (t : Text) : (commentBody t).head? = t.head? := by
  cases t with
  | nil => rw [commentBody_nil]
  | cons u rest =>
    rw [commentBody_cons]
    split
    · next start =>
      obtain ⟨_, he⟩ := start
      obtain ⟨rfl, _⟩ := List.cons.inj he
      rfl
    · rfl

/-- Breaking up every end of a comment makes no new one. -/
theorem unclosed_commentBody (t : Text) : Unclosed (commentBody t) := by
  induction hn : t.length using Nat.strongRecOn generalizing t with
  | ind n ih =>
    subst hn
    cases t with
    | nil =>
      rw [commentBody_nil]
      exact .nil
    | cons u rest =>
      rw [commentBody_cons]
      split
      · have hlt : rest.tail.length < (u :: rest).length := by
          simp only [List.length_tail, List.length_cons]
          omega
        have others := ih _ hlt rest.tail rfl
        have broken : Unclosed [unit '*', unit '\\', unit '/'] := by unfold Unclosed; decide
        refine List.isChain_append.mpr ⟨broken, others, ?_⟩
        rintro _ ⟨⟩ v _ ⟨star, _⟩
        exact absurd star (by decide)
      · next start =>
        have others := ih _ (Nat.lt_succ_self _) rest rfl
        refine List.isChain_cons.mpr ⟨?_, others⟩
        -- What is written behind a unit begins as what stood behind it.
        rw [head?_commentBody]
        rintro v hv ⟨rfl, rfl⟩
        apply start
        cases rest with
        | nil => cases hv
        | cons w rest =>
          cases hv
          exact ⟨rest, rfl⟩

end Breaking

/-- What stands in a program besides its code. -/
inductive Inset where
  | comment (body : Text)
  | literal (value : Text)
  deriving DecidableEq

/-- The comments and the literals between double quotes of a program, in order. -/
def insets (t : Text) : Option (List Inset) :=
  match t with
  | [] => some []
  | u :: rest =>
    if u = unit '"' then
      match _ : readQuotes rest with
      | none => none
      | some (value, behind) => (insets behind).map (.literal value :: ·)
    else if u = apostrophe then
      match _ : readApostrophes rest with
      | none => none
      | some (_, behind) => insets behind
    else if u = unit '/' ∧ rest.head? = some (unit '*') then
      match _ : readComment rest.tail with
      | none => none
      | some (body, behind) => (insets behind).map (.comment body :: ·)
    else if u = unit '/' ∧ rest.head? = some (unit '/') then
      insets (rest.dropWhile fun v => !isLineTerminator v)
    else insets rest
termination_by t.length
decreasing_by
  · next h => exact Nat.lt_succ_of_lt (length_readQuotes_lt h)
  · next h => exact Nat.lt_succ_of_lt (length_readApostrophes_lt h)
  · next h =>
    have := length_readComment_lt h
    simp only [List.length_tail, List.length_cons] at this ⊢
    omega
  · exact Nat.lt_succ_of_le (List.dropWhile_suffix _).length_le
  · exact Nat.lt_succ_self _

/-- These are the comments and literals of a part of a program, whatever follows it. -/
def Holds (part : Text) (found : List Inset) : Prop :=
  ∀ rest, insets (part ++ rest) = (insets rest).map (found ++ ·)

/-- The unit begins neither a literal nor a comment. -/
def isCode (u : CodeUnit) : Bool := u != unit '"' && u != apostrophe && u != unit '/'

section Parts
variable {α : Type} {part other body value : Text} {found more : List Inset}

theorem insets_code {u : CodeUnit} (h : isCode u = true) (rest : Text) :
    insets (u :: rest) = insets rest := by
  simp only [isCode, Bool.and_eq_true, bne_iff_ne] at h
  obtain ⟨⟨quote, plain⟩, slash⟩ := h
  rw [insets, if_neg quote, if_neg plain, if_neg fun hu => slash hu.1, if_neg fun hu => slash hu.1]

theorem insets_quote {rest behind : Text} (read : readQuotes rest = some (value, behind)) :
    insets (unit '"' :: rest) = (insets behind).map (.literal value :: ·) := by
  rw [insets, if_pos rfl]
  split
  · next h => rw [read] at h; cases h
  · next h => rw [read] at h; cases h; rfl

theorem insets_apostrophe {rest behind : Text}
    (read : readApostrophes rest = some (value, behind)) :
    insets (apostrophe :: rest) = insets behind := by
  rw [insets, if_neg (by decide), if_pos rfl]
  split
  · next h => rw [read] at h; cases h
  · next h => rw [read] at h; cases h; rfl

theorem insets_comment {rest behind : Text} (read : readComment rest = some (body, behind)) :
    insets (unit '/' :: unit '*' :: rest) = (insets behind).map (.comment body :: ·) := by
  rw [insets, if_neg (by decide), if_neg (by decide), if_pos ⟨rfl, rfl⟩]
  split
  · next h => rw [List.tail_cons, read] at h; cases h
  · next h => rw [List.tail_cons, read] at h; cases h; rfl

theorem holds_nil : Holds [] [] := by
  intro rest
  simp

theorem Holds.append (h : Holds part found) (ho : Holds other more) :
    Holds (part ++ other) (found ++ more) := by
  intro rest
  rw [List.append_assoc, h, ho, Option.map_map]
  congr 1
  funext insets
  exact (List.append_assoc ..).symm

theorem Holds.flatMap {f : α → Text} {g : α → List Inset} {things : List α}
    (h : ∀ thing ∈ things, Holds (f thing) (g thing)) :
    Holds (things.flatMap f) (things.flatMap g) := by
  induction things with
  | nil => exact holds_nil
  | cons thing things ih =>
    obtain ⟨first, others⟩ := List.forall_mem_cons.mp h
    exact first.append (ih others)

theorem Holds.insets_eq (h : Holds part found) : insets part = some found := by
  have whole := h []
  rw [List.append_nil, insets] at whole
  simpa using whole

theorem holds_code (h : ∀ u ∈ part, isCode u = true) : Holds part [] := by
  induction part with
  | nil => exact holds_nil
  | cons u part ih =>
    obtain ⟨hu, hpart⟩ := List.forall_mem_cons.mp h
    intro rest
    rw [List.cons_append, insets_code hu, ih hpart]

theorem holds_quoted (value : Text) : Holds value.quoted [.literal value] := by
  intro rest
  have read := readLiteral_quoted value rest
  exact insets_quote read

/-- Text between apostrophes is neither a comment nor a literal between double quotes. -/
theorem holds_apostrophes (h : ∀ u ∈ body, isVerbatim u = true) :
    Holds (apostrophe :: (body ++ [apostrophe])) [] := by
  intro rest
  have read := readApostrophes_of_verbatim h rest
  rw [List.cons_append, List.append_assoc]
  exact (insets_apostrophe read).trans (by simp)

theorem holds_comment (h : Unclosed body) :
    Holds (unit '/' :: unit '*' :: (body ++ closing)) [.comment body] := by
  intro rest
  have read := h.readComment_eq rest
  rw [List.cons_append, List.cons_append, List.append_assoc]
  exact insets_comment read

end Parts

end Generated

end CommandLanguage

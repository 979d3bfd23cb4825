import CommandLanguage.Generated.Fragment
import CommandLanguage.Proofs.Text.Quoted
import Mathlib.Data.List.Nodup

/-!
# Pieces of generated files

A generated file consists of lines and of blocks in braces. Some lines in a block begin its members;
the key of a member is an identifier or a literal, and a block must not have two members whose keys
stand for one name.
-/

set_option autoImplicit false

namespace CommandLanguage

namespace Generated

/-- A line, with the key of the member that it begins. -/
structure Line where
  front : Text
  key? : Option Text
  rest : Text
  deriving DecidableEq

/-- A piece of a generated file: a line, or a block in braces. -/
inductive Piece where
  | line (line : Line)
  | block (opening : Line) (body : List Piece) (closing : Text)

def Line.write (line : Line) : Text := line.front ++ line.key?.getD [] ++ line.rest

/-- A line that begins no member. -/
def Line.plain (text : Text) : Line := ⟨text, none, []⟩

namespace Piece

def plain (text : Text) : Piece := .line (.plain text)

def member (indent key rest : Text) : Piece := .line ⟨indent, some key, rest⟩

mutual

def write : Piece → List Text
  | .line begun => [begun.write]
  | .block opening body closing => opening.write :: (writeAll body ++ [closing])

def writeAll : List Piece → List Text
  | [] => []
  | piece :: pieces => piece.write ++ writeAll pieces

end

mutual

/-- The blocks in a piece, each before those within it. -/
def blocks : Piece → List (List Piece)
  | .line _ => []
  | .block _ body _ => body :: allBlocks body

def allBlocks : List Piece → List (List Piece)
  | [] => []
  | piece :: pieces => piece.blocks ++ allBlocks pieces

end

def key? : Piece → Option Text
  | .line begun => begun.key?
  | .block opening _ _ => opening.key?

end Piece

/-- The name that a key stands for: the text of a literal, or the key itself. -/
def keyName? (key : Text) : Option Text :=
  if key.head? = some (unit '"') then
    match Text.readLiteral key with
    | some (name, []) => some name
    | _ => none
  else some key

/-- The names of the members of a block. -/
def memberNames (body : List Piece) : List (Option Text) := (body.filterMap Piece.key?).map keyName?

/-- The blocks that have two members of one name. -/
def repeating (pieces : List Piece) : List (List Piece) :=
  (Piece.allBlocks pieces).filter fun body => ¬ (memberNames body).Nodup

open Piece

section Writing
variable {α : Type}

theorem writeAll_eq_flatMap (pieces : List Piece) : writeAll pieces = pieces.flatMap Piece.write := by
  induction pieces with
  | nil => rfl
  | cons piece pieces ih => rw [writeAll, ih, List.flatMap_cons]

theorem writeAll_append (pieces others : List Piece) :
    writeAll (pieces ++ others) = writeAll pieces ++ writeAll others := by
  simp only [writeAll_eq_flatMap, List.flatMap_append]

theorem writeAll_flatMap (f : α → List Piece) (things : List α) :
    writeAll (things.flatMap f) = things.flatMap fun thing => writeAll (f thing) := by
  simp only [writeAll_eq_flatMap, List.flatMap_assoc]

theorem writeAll_map (f : α → Piece) (things : List α) :
    writeAll (things.map f) = things.flatMap fun thing => (f thing).write := by
  rw [writeAll_eq_flatMap, List.flatMap_map]

theorem write_plain (text : Text) : (plain text).write = [text] := by
  simp [plain, Piece.write, Line.write, Line.plain]

theorem writeAll_plain (lines : List Text) : writeAll (lines.map plain) = lines := by
  simp only [writeAll_map, write_plain, List.flatMap_singleton']

theorem write_member (indent key rest : Text) :
    (Piece.member indent key rest).write = [indent ++ key ++ rest] := rfl

theorem writeAll_members (indent : Text) (key rest : α → Text) (things : List α) :
    writeAll (things.map fun thing => .member indent (key thing) (rest thing)) =
      things.map fun thing => indent ++ key thing ++ rest thing := by
  rw [writeAll_map, List.map_eq_flatMap]
  rfl

end Writing

section Keys
variable {α : Type} {pieces others : List Piece}

theorem keyName?_quoted (name : Text) : keyName? name.quoted = some name := by
  have read := Text.readLiteral_quoted name []
  rw [List.append_nil] at read
  rw [keyName?, if_pos (show name.quoted.head? = some (unit '"') from rfl), read]

theorem keyName?_of_isWordStart {u : CodeUnit} (rest : Text) (h : Text.isWordStart u = true) :
    keyName? (u :: rest) = some (u :: rest) := by
  rw [keyName?, if_neg]
  rintro quote
  cases Option.some.inj quote
  exact absurd h (by decide)

theorem keyName?_key (name : Text) : keyName? (key name) = some name := by
  unfold key
  split
  · next valid =>
    cases name with
    | nil => cases valid
    | cons u rest => exact keyName?_of_isWordStart rest (Bool.and_eq_true_iff.mp valid).1
  · exact keyName?_quoted name

theorem memberNames_append :
    memberNames (pieces ++ others) = memberNames pieces ++ memberNames others := by
  simp only [memberNames, List.filterMap_append, List.map_append]

theorem memberNames_flatMap (f : α → List Piece) (things : List α) :
    memberNames (things.flatMap f) = things.flatMap fun thing => memberNames (f thing) := by
  simp only [memberNames, List.filterMap_flatMap, List.map_flatMap]

theorem memberNames_plain (lines : List Text) : memberNames (lines.map plain) = [] := by
  induction lines with
  | nil => rfl
  | cons line lines ih => exact ih

end Keys

section Blocks
variable {α : Type} {pieces others : List Piece}

theorem allBlocks_eq_flatMap (pieces : List Piece) :
    allBlocks pieces = pieces.flatMap Piece.blocks := by
  induction pieces with
  | nil => rfl
  | cons piece pieces ih => rw [allBlocks, ih, List.flatMap_cons]

theorem repeating_append : repeating (pieces ++ others) = repeating pieces ++ repeating others := by
  simp only [repeating, allBlocks_eq_flatMap, List.flatMap_append, List.filter_append]

theorem repeating_flatMap (f : α → List Piece) (things : List α) :
    repeating (things.flatMap f) = things.flatMap fun thing => repeating (f thing) := by
  simp only [repeating, allBlocks_eq_flatMap, List.flatMap_assoc, List.filter_flatMap]

@[simp] theorem repeating_nil : repeating [] = [] := rfl

theorem repeating_line (begun : Line) (pieces : List Piece) :
    repeating (.line begun :: pieces) = repeating pieces := rfl

@[simp] theorem repeating_plain (text : Text) (pieces : List Piece) :
    repeating (plain text :: pieces) = repeating pieces := rfl

@[simp] theorem repeating_member (indent key rest : Text) (pieces : List Piece) :
    repeating (.member indent key rest :: pieces) = repeating pieces := rfl

theorem repeating_block (opening : Line) (body : List Piece) (closing : Text) (pieces : List Piece) :
    repeating (.block opening body closing :: pieces) =
      (if (memberNames body).Nodup then [] else [body]) ++ repeating body ++ repeating pieces := by
  rw [repeating, allBlocks, Piece.blocks, List.cons_append, List.filter_cons, List.filter_append]
  by_cases differ : (memberNames body).Nodup
  · rw [if_pos differ, if_neg (by simpa using differ)]
    rfl
  · rw [if_neg differ, if_pos (by simpa using differ)]
    rfl

theorem nodup_map_some_iff {names : List Text} : (names.map some).Nodup ↔ names.Nodup :=
  List.nodup_map_iff fun _ _ => Option.some.inj

/-- The pieces are lines, and those that begin members begin members of the given names. -/
structure Lists (body : List Piece) (names : List Text) : Prop where
  lines : ∀ piece ∈ body, ∃ begun, piece = .line begun
  names_eq : memberNames body = names.map some

theorem lists_plain (lines : List Text) : Lists (lines.map plain) [] where
  lines := List.forall_mem_map.mpr fun _ _ => ⟨_, rfl⟩
  names_eq := memberNames_plain lines

theorem lists_member {key name : Text} (h : keyName? key = some name) (indent rest : Text) :
    Lists [.member indent key rest] [name] where
  lines := List.forall_mem_singleton.mpr ⟨_, rfl⟩
  names_eq := congrArg (fun read => [read]) h

namespace Lists

variable {body rest : List Piece} {names others : List Text}

theorem append (h : Lists body names) (hr : Lists rest others) :
    Lists (body ++ rest) (names ++ others) where
  lines := List.forall_mem_append.mpr ⟨h.lines, hr.lines⟩
  names_eq := by rw [memberNames_append, h.names_eq, hr.names_eq, List.map_append]

theorem flatMap {f : α → List Piece} {names : α → List Text} {things : List α}
    (h : ∀ thing ∈ things, Lists (f thing) (names thing)) :
    Lists (things.flatMap f) (things.flatMap names) where
  lines := List.forall_mem_flatMap.mpr fun thing hm => (h thing hm).lines
  names_eq := by
    rw [memberNames_flatMap, List.map_flatMap]
    exact List.flatMap_congr fun thing hm => (h thing hm).names_eq

theorem repeating_eq_nil (h : Lists body names) : repeating body = [] := by
  have lines := h.lines
  clear h
  induction body with
  | nil => rfl
  | cons piece pieces ih =>
    obtain ⟨⟨begun, rfl⟩, hrest⟩ := List.forall_mem_cons.mp lines
    rw [repeating_line, ih hrest]

theorem nodup_iff (h : Lists body names) : (memberNames body).Nodup ↔ names.Nodup := by
  rw [h.names_eq, nodup_map_some_iff]

theorem repeating_block (h : Lists body names) (opening : Line) (closing : Text)
    (pieces : List Piece) : repeating (.block opening body closing :: pieces) =
      (if names.Nodup then [] else [body]) ++ repeating pieces := by
  rw [Generated.repeating_block, h.repeating_eq_nil, List.append_nil]
  simp only [h.nodup_iff]

end Lists

theorem lists_members {indent : Text} {key rest name : α → Text} {things : List α}
    (h : ∀ thing ∈ things, keyName? (key thing) = some (name thing)) :
    Lists (things.map fun thing => .member indent (key thing) (rest thing)) (things.map name) := by
  rw [List.map_eq_flatMap, List.map_eq_flatMap]
  exact Lists.flatMap fun thing hm => lists_member (h thing hm) indent (rest thing)

end Blocks

end Generated

end CommandLanguage

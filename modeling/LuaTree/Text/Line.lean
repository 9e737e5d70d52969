import LuaTree.Text.Bytes

/-!
# Text/Line — the lines of a source

A line ends with a line feed, which belongs to it, and a carriage return just before the line feed
is part of the line break. A source always has a line, and a line break at its very end opens no
other.
-/

namespace LuaTree

/-- A line of a source. -/
structure Line where
  /-- Counted from one. -/
  number : Nat
  /-- The byte offset of its first character. -/
  start : Nat
  /-- Its characters, without the line break. -/
  text : List Char
  /-- The byte offset after its line break. -/
  stop : Nat

namespace Line

/-- Cuts a text after each line feed. -/
def cut : List Char → List (List Char)
  | [] => []
  | c :: cs =>
    if c = '\n' then [c] :: cut cs
    else
      match cut cs with
      | [] => [[c]]
      | l :: ls => (c :: l) :: ls

theorem flatten_cut (cs : List Char) : (cut cs).flatten = cs := by
  induction cs with
  | nil => rfl
  | cons c cs ih =>
    simp only [cut]
    split
    · simp [ih]
    · split <;> simp_all

/-- A line without its line break. -/
def withoutBreak (l : List Char) : List Char :=
  match l.reverse with
  | '\n' :: '\r' :: r => r.reverse
  | '\n' :: r => r.reverse
  | _ => l

/-- The lines that stand one after the other, from a number and an offset on. -/
def place (number start : Nat) : List (List Char) → List Line
  | [] => []
  | l :: ls =>
    ⟨number, start, withoutBreak l, start + byteLength l⟩ ::
      place (number + 1) (start + byteLength l) ls

/-- The first of the lines, and those after it. -/
def split (source : List Char) : Line × List Line :=
  match place 1 0 (cut source) with
  | [] => (⟨1, 0, [], 0⟩, [])
  | l :: ls => (l, ls)

/-- The line in which an offset lies, and the last one for all offsets after it. -/
def find (offset : Nat) (l : Line) : List Line → Line
  | [] => l
  | next :: ls => if offset < l.stop then l else find offset next ls

/-- The characters of a line before an offset; all of them for an offset in or after its line break,
and `none` inside a character. -/
def before? (l : Line) (offset : Nat) : Option (List Char) :=
  takeBytes? l.text (min (offset - l.start) (byteLength l.text))

end Line

end LuaTree

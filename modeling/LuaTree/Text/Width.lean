import LuaTree.Text.Extending

/-!
# Text/Width — the columns that a text takes

A character takes one column, or none if it is not drawn or is drawn upon its neighbors. A cut at a
column is a cut between characters: `columnIndex` finds it from the left, and `takeColumns` keeps
what has room, with the marks upon its last character.
-/

namespace LuaTree

namespace Width

/-- Characters that are not drawn (the property Default_Ignorable_Code_Point of Unicode), as ranges
with both ends. -/
def ignorable : List (Nat × Nat) :=
  [(0xad, 0xad), (0x34f, 0x34f), (0x61c, 0x61c), (0x1160, 0x1160), (0x17b4, 0x17b5),
   (0x180b, 0x180f), (0x200b, 0x200f), (0x202a, 0x202e), (0x2060, 0x206f), (0x3164, 0x3164),
   (0xfe00, 0xfe0f), (0xfeff, 0xfeff), (0xffa0, 0xffa0), (0xfff0, 0xfff8), (0x1bca0, 0x1bca3),
   (0x1d173, 0x1d17a), (0xe0000, 0xe0fff)]

/-- Vowels and final consonants that are drawn into a syllable of Hangul. -/
def jamo : List (Nat × Nat) := [(0x1161, 0x11ff), (0xd7b0, 0xd7c6), (0xd7cb, 0xd7fb)]

/-- Signs of Arabic, Syriac and Devanagari that are drawn over other characters. -/
def signs : List (Nat × Nat) :=
  [(0x605, 0x605), (0x70f, 0x70f), (0x890, 0x891), (0x8e2, 0x8e2), (0xa8fa, 0xa8fa)]

end Width

/-- The columns of a character. The joiner U+2D7F has a shape of its own, although it is drawn upon
the character before it. -/
def charColumns (c : Char) : Nat :=
  if c.toNat < 0xad ∨ c.toNat = 0x2d7f then 1
  else if isExtending c || (Width.ignorable ++ Width.jamo ++ Width.signs).any (fun (first, last) =>
    first ≤ c.toNat && c.toNat ≤ last) then 0
  else 1

theorem charColumns_le_one (c : Char) : charColumns c ≤ 1 := by
  unfold charColumns
  split
  · exact Nat.le_refl 1
  · split <;> simp

/-- The columns of a text. -/
def columns : List Char → Nat
  | [] => 0
  | c :: cs => charColumns c + columns cs

@[simp] theorem columns_nil : columns [] = 0 := rfl

@[simp] theorem columns_cons (c : Char) (cs : List Char) :
    columns (c :: cs) = charColumns c + columns cs := rfl

@[simp] theorem columns_append (cs ds : List Char) :
    columns (cs ++ ds) = columns cs + columns ds := by
  induction cs with
  | nil => simp
  | cons c cs ih => simp [ih, Nat.add_assoc]

theorem columns_le_length (cs : List Char) : columns cs ≤ cs.length := by
  induction cs with
  | nil => simp
  | cons c cs ih =>
    have := charColumns_le_one c
    simp only [columns_cons, List.length_cons]
    omega

/-- How many characters are before a column: the fewest that take `n` columns, or all. -/
def columnIndex : List Char → Nat → Nat
  | _, 0 => 0
  | [], _ + 1 => 0
  | c :: cs, n + 1 => columnIndex cs (n + 1 - charColumns c) + 1

theorem columns_take_columnIndex {cs : List Char} {n : Nat} (h : n ≤ columns cs) :
    columns (cs.take (columnIndex cs n)) = n := by
  induction cs generalizing n with
  | nil => simp_all
  | cons c cs ih =>
    cases n with
    | zero => simp [columnIndex]
    | succ n =>
      have hc := charColumns_le_one c
      rw [columns_cons] at h
      have : n + 1 - charColumns c ≤ columns cs := by omega
      have := ih this
      simp only [columnIndex, List.take_succ_cons, columns_cons]
      omega

/-- As many of the first characters as `n` columns have room for. -/
def takeColumns : List Char → Nat → List Char
  | [], _ => []
  | c :: cs, n => if charColumns c ≤ n then c :: takeColumns cs (n - charColumns c) else []

theorem columns_takeColumns_le (cs : List Char) (n : Nat) : columns (takeColumns cs n) ≤ n := by
  induction cs generalizing n with
  | nil => simp [takeColumns]
  | cons c cs ih =>
    rw [takeColumns]
    split
    · have := ih (n - charColumns c)
      simp only [columns_cons]
      omega
    · simp

end LuaTree

/-!
# Text/Bytes — offsets in bytes over lists of characters

Offsets count the bytes of the UTF-8 form, while texts are cut between characters. A cut at a byte
offset therefore exists only where a character begins: `dropBytes?` and `takeBytes?` answer `none`
inside a character and past the end.
-/

namespace LuaTree

/-- The number of bytes of the UTF-8 form. -/
def byteLength : List Char → Nat
  | [] => 0
  | c :: cs => c.utf8Size + byteLength cs

@[simp] theorem byteLength_nil : byteLength [] = 0 := rfl

@[simp] theorem byteLength_cons (c : Char) (cs : List Char) :
    byteLength (c :: cs) = c.utf8Size + byteLength cs := rfl

@[simp] theorem byteLength_append (cs ds : List Char) :
    byteLength (cs ++ ds) = byteLength cs + byteLength ds := by
  induction cs with
  | nil => simp
  | cons c cs ih => simp [ih, Nat.add_assoc]

theorem length_le_byteLength (cs : List Char) : cs.length ≤ byteLength cs := by
  induction cs with
  | nil => simp
  | cons c cs ih =>
    have := c.utf8Size_pos
    simp only [List.length_cons, byteLength_cons]
    omega

/-- What follows the first `n` bytes. -/
def dropBytes? : List Char → Nat → Option (List Char)
  | cs, 0 => some cs
  | [], _ + 1 => none
  | c :: cs, n + 1 => if c.utf8Size ≤ n + 1 then dropBytes? cs (n + 1 - c.utf8Size) else none

/-- The first `n` bytes. -/
def takeBytes? : List Char → Nat → Option (List Char)
  | _, 0 => some []
  | [], _ + 1 => none
  | c :: cs, n + 1 =>
    if c.utf8Size ≤ n + 1 then (takeBytes? cs (n + 1 - c.utf8Size)).map (c :: ·) else none

/-- The first characters that reach `n` bytes, and the rest. -/
def cutBytes : List Char → Nat → List Char × List Char
  | cs, 0 => ([], cs)
  | [], _ + 1 => ([], [])
  | c :: cs, n + 1 =>
    let (before, after) := cutBytes cs (n + 1 - c.utf8Size)
    (c :: before, after)

theorem dropBytes?_append (cs ds : List Char) :
    dropBytes? (cs ++ ds) (byteLength cs) = some ds := by
  induction cs with
  | nil => simp [dropBytes?]
  | cons c cs ih =>
    obtain ⟨k, hk⟩ : ∃ k, c.utf8Size + byteLength cs = k + 1 :=
      ⟨c.utf8Size + byteLength cs - 1, by have := c.utf8Size_pos; omega⟩
    rw [byteLength_cons, hk, List.cons_append, dropBytes?, if_pos (by omega)]
    rwa [show k + 1 - c.utf8Size = byteLength cs by omega]

theorem takeBytes?_append (cs ds : List Char) :
    takeBytes? (cs ++ ds) (byteLength cs) = some cs := by
  induction cs with
  | nil => simp [takeBytes?]
  | cons c cs ih =>
    obtain ⟨k, hk⟩ : ∃ k, c.utf8Size + byteLength cs = k + 1 :=
      ⟨c.utf8Size + byteLength cs - 1, by have := c.utf8Size_pos; omega⟩
    rw [byteLength_cons, hk, List.cons_append, takeBytes?, if_pos (by omega),
      show k + 1 - c.utf8Size = byteLength cs by omega, ih, Option.map_some]

theorem cutBytes_append (cs ds : List Char) : cutBytes (cs ++ ds) (byteLength cs) = (cs, ds) := by
  induction cs with
  | nil => simp [cutBytes]
  | cons c cs ih =>
    obtain ⟨k, hk⟩ : ∃ k, c.utf8Size + byteLength cs = k + 1 :=
      ⟨c.utf8Size + byteLength cs - 1, by have := c.utf8Size_pos; omega⟩
    rw [byteLength_cons, hk, List.cons_append, cutBytes,
      show k + 1 - c.utf8Size = byteLength cs by omega, ih]

/-- The characters from byte `start` to byte `stop`. -/
def sliceBytes? (cs : List Char) (start stop : Nat) : Option (List Char) := do
  if stop < start then none
  takeBytes? (← dropBytes? cs start) (stop - start)

end LuaTree

/-!
# Text/Span — ranges of byte offsets

A span runs from a first offset to a last one that is not before it; an empty span marks a place.
-/

namespace LuaTree

/-- The offsets from `start` up to, not including, `stop`. -/
structure Span where
  start : Nat
  stop : Nat
  start_le_stop : start ≤ stop
  deriving DecidableEq

namespace Span

/-- The empty span at an offset. -/
def place (n : Nat) : Span := ⟨n, n, Nat.le_refl n⟩

/-- The span of `length` bytes at `start`. -/
def ofLength (start length : Nat) : Span := ⟨start, start + length, Nat.le_add_right ..⟩

/-- The span between two offsets, when they are in order. -/
def between? (start stop : Nat) : Option Span :=
  if h : start ≤ stop then some ⟨start, stop, h⟩ else none

def isEmpty (s : Span) : Bool := s.start == s.stop

/-- Written as `start..stop`. -/
def describe (s : Span) : String := s.start.repr ++ ".." ++ s.stop.repr

theorem between?_eq_none_iff {start stop : Nat} : between? start stop = none ↔ stop < start := by
  simp [between?]

end Span

end LuaTree

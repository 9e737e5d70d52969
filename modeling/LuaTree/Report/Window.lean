import LuaTree.Text.Width

/-!
# Report/Window — the part of long lines that is shown

Lines that are wider than a report are cut on the left, on the right, or on both sides. The window
is chosen so that the marks and their labels can be seen, the blanks before the text being given up
first.
-/

namespace LuaTree

/-- The columns that are shown of every line, for a report with room for `width` of them. -/
structure Window where
  left : Nat
  right : Nat
  width : Nat

/-- What a window is chosen by: columns of the lines that have marks. The texts of labels and the
longest line are measured in bytes, which are never fewer than columns. -/
structure Extent where
  /-- The blanks that all lines begin with, before the first mark. -/
  blanks : Nat
  /-- Where the first mark begins. -/
  first : Nat
  /-- Where the last mark ends. -/
  last : Nat
  /-- Where the last label ends, if all of them follow their marks. -/
  labels : Nat
  /-- The bytes of the longest line. -/
  longest : Nat

namespace Window

/-- The window of a width around a start, with `room` columns before it. -/
def around (start room width : Nat) : Window := ⟨start - room, start - room + width, width⟩

/-- The window for an extent. Six columns are kept free on both sides. -/
def fit (e : Extent) (width : Nat) : Window :=
  let blanks := e.blanks - 6
  let first := e.first - 6
  let last := e.last + 6
  let labels := e.labels + 6
  let left := if 20 < blanks then blanks - 16 else 0
  if e.longest - left ≤ width then ⟨left, max e.longest left, width⟩
  else if labels - blanks ≤ width then around blanks 0 width
  else if labels - first ≤ width then around first ((width - (labels - first)) / 2) width
  else if last - first ≤ width then around first ((width - (last - first)) / 5 * 2) width
  else ⟨first, last, width⟩

/-- The first column that is shown of a line of a length. -/
def leftOf (w : Window) (length : Nat) : Nat := min w.left length

/-- The column after the last one that is shown of a line of a length. -/
def rightOf (w : Window) (length : Nat) : Nat :=
  if length - w.left ≤ w.width then length else min length w.right

/-- Whether the lines are cut on the left. -/
def cutsLeft (w : Window) : Bool := w.left != 0

/-- Whether a line of a length is cut on the right. -/
def cutsRight (w : Window) (length : Nat) : Bool := w.rightOf length < length

/-- What is shown of a line. -/
def view (w : Window) (text : List Char) : List Char :=
  let left := w.leftOf (columns text)
  takeColumns (text.drop (columnIndex text left)) (w.rightOf (columns text) - left)

end Window

end LuaTree

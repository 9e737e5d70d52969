import LuaTree.Report.Ink
import LuaTree.Text.Bytes

/-!
# Report/Mark — the marks under a line and their labels

The marks of one line share one row. A label follows its mark in this row if nothing to the right of
it is in the way; otherwise it hangs below its mark on a line of its own. Marks are therefore placed
from right to left, each at a level: level zero is the row of the marks, and the deeper a level the
lower its label hangs. A mark that is very long has dots in its middle.
-/

namespace LuaTree

/-- A mark under the columns of a line. -/
structure Mark where
  /-- The number of the line. -/
  line : Nat
  first : Nat
  /-- The column after its last one. -/
  stop : Nat
  label : List Char
  isPrimary : Bool

namespace Mark

def width (m : Mark) : Nat := m.stop - m.first

def hasLabel (m : Mark) : Bool := !m.label.isEmpty

def ink (m : Mark) : Ink := if m.isPrimary then .alert else .aside

def sign (m : Mark) : Char := if m.isPrimary then '^' else '-'

/-- Whether two marks have columns in common, the first one being `more` columns wider. -/
def meets (more : Nat) (m n : Mark) : Bool :=
  (n.first ≤ m.first && m.first < n.stop) || (m.first ≤ n.first && n.first < m.stop + more)

/-- The columns that a label takes behind its mark, with the blanks around it. -/
def labelRoom (m : Mark) : Nat := byteLength m.label + 2

/-- Whether a mark further left keeps the label of `m` out of the row of the marks. -/
def isCovered (m left : Mark) : Bool :=
  left.meets 0 m && m.hasLabel && !(left.first == m.first && left.stop == m.stop && !left.hasLabel)

/-- Whether the label of a mark further left would run into `m`, which stands at a level. -/
def isInTheWay (level : Nat) (m left : Mark) : Bool :=
  left.meets left.labelRoom m && left.hasLabel && (m.hasLabel || (left.stop ≤ m.stop && level == 0))

/-- The levels of marks that are sorted from right to left, from a level on. -/
def levelsFrom (level : Nat) : List Mark → List (Nat × Mark)
  | [] => []
  | m :: ms =>
    let own := if level == 0 && ms.any m.isCovered then 1 else level
    (own, m) :: levelsFrom (if ms.any (isInTheWay own m) then own + 1 else own) ms

/-- The marks of a line from right to left, with their levels. -/
def levels (ms : List Mark) : List (Nat × Mark) :=
  levelsFrom 0 (ms.mergeSort fun m n => n.first ≤ m.first)

/-- The number of rows under a line whose deepest label is at a level. -/
def height : Nat → Nat
  | 0 => 1
  | level + 1 => level + 3

/-- A stroke in one of the rows under a line. -/
abbrev Placed := Nat × Stroke

/-- The bar from a mark down to its label. -/
def bar (column : Nat → Nat) (level : Nat) (m : Mark) : List Placed :=
  if level == 0 || !m.hasLabel then []
  else (List.range (level + 1)).map fun row => (row, ⟨column m.first, m.ink, ['|']⟩)

/-- The label of a mark at a level. -/
def labelStroke (column : Nat → Nat) (level : Nat) (m : Mark) : Placed :=
  match level with
  | 0 => (0, ⟨column (m.stop + 1), m.ink, m.label⟩)
  | n + 1 => (n + 2, ⟨column m.first, m.ink, m.label⟩)

/-- The mark itself. -/
def underline (column : Nat → Nat) (m : Mark) : Placed :=
  (0, ⟨column m.first, m.ink, List.replicate m.width m.sign⟩)

/-- Longer marks are written first, and of two of the same length the primary one last. -/
def isWrittenBefore (m n : Mark) : Bool :=
  n.width < m.width || (n.width == m.width && (!m.isPrimary || n.isPrimary))

/-- The marks of a line in the order in which they are written. -/
def written (ms : List Mark) : List Mark := ((levels ms).map Prod.snd).mergeSort isWrittenBefore

/-- The strokes of the marks of a line, row by row from the row of the marks on. `column` tells
where a column of the line is shown. -/
def rows (column : Nat → Nat) (ms : List Mark) : List (List Stroke) :=
  let placed := levels ms
  let deepest := (placed.map Prod.fst).foldl max 0
  let strokes :=
    placed.flatMap (fun (level, m) => bar column level m) ++
    placed.map (fun (level, m) => labelStroke column level m) ++
    (written ms).map (underline column)
  (List.range (height deepest)).map fun row =>
    (strokes.filter (·.1 == row)).map Prod.snd

/-! ## The middle of long marks -/

/-- For marks from right to left, which of them are crowded: all from the third on, and of the first
two those that have columns in common with one from the third on. The first mark is not crowded if
the second one keeps its label out of the row of the marks. -/
def crowded : List Mark → List Bool
  | [] => []
  | [_] => [false]
  | m :: n :: ms =>
    (!m.isCovered n && ms.any (m.meets 0)) :: ms.any (n.meets 0) :: ms.map fun _ => true

/-- What is left out of a mark that is more than twice as long as a line may be wide: all but a
third of that width at both ends. -/
def middle? (column : Nat → Nat) (width : Nat) (m : Mark) : Option (Nat × Nat) :=
  if 2 * width < m.width then some (column (m.first + width / 3), column (m.stop - width / 3))
  else none

/-- What is left out under a line. The longest mark loses its middle unless the first
mark from the right is crowded, the next one unless the second is, and so on. -/
def middles (column : Nat → Nat) (width : Nat) (ms : List Mark) : List (Nat × Nat) :=
  ((written ms).zip (crowded ((levels ms).map Prod.snd))).filterMap fun (m, isCrowded) =>
    if isCrowded then none else m.middle? column width

end Mark

end LuaTree

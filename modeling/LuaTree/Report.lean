import LuaTree.Diagnostic
import LuaTree.Report.Mark
import LuaTree.Report.Window
import LuaTree.Text.Blank
import LuaTree.Text.Line
import LuaTree.Text.Visible

/-!
# Report — diagnostics shown in the lines of their source

The report of a diagnostic has a headline, the place if the source has a name, and the lines that
have marks: under the span of the diagnostic, and under the spans of its notes. Of lines without
marks between them one is shown, and more are left out as three dots.
-/

namespace LuaTree

/-- How reports are written. -/
structure Report where
  source : String
  /-- What the source is called. -/
  path : Option String
  /-- Whether the text is for a terminal that shows colors. -/
  colored : Bool

namespace Report

/-! ## From spans to marks -/

/-- A span that is not empty itself, or else the character that begins at it. At the end of the
source it stays empty. -/
def widen? (source : List Char) (s : Span) : Option Span :=
  if s.isEmpty then
    match dropBytes? source s.start with
    | none => none
    | some [] => some s
    | some (c :: _) => some (Span.ofLength s.start c.utf8Size)
  else some s

/-- The mark of a span. It covers what the span has of its first line, and at least one column.
There is none if the span reaches further than one byte behind the source, or begins or ends inside
of a character. -/
def mark? (source : List Char) (s : Span) (label : String) (isPrimary : Bool) : Option Mark := do
  let s ← widen? source s
  if byteLength source + 1 < s.stop then none
  let (l, ls) := Line.split source
  let line := Line.find s.start l ls
  let first := columns (visible (← line.before? s.start))
  let stop := columns (visible (← line.before? s.stop))
  return ⟨line.number, first, max stop (first + 1), visible label.toList, isPrimary⟩

/-- The mark of a diagnostic and those of its notes. -/
def marks? (source : List Char) (d : Diagnostic) : Option (List Mark) := do
  let primary ← mark? source d.span d.message true
  let notes ← d.notes.mapM fun n => mark? source n.span n.message false
  return primary :: notes

/-- The line and the column of an offset, both counted from one. The line break is one column after
the line, whatever it consists of. -/
def place? (source : List Char) (offset : Nat) : Option (Nat × Nat) := do
  let (l, ls) := Line.split source
  let line := Line.find offset l ls
  let before ← line.before? offset
  let beyond := if line.start + byteLength line.text < offset then 1 else 0
  return (line.number, before.length + beyond + 1)

/-! ## Rows -/

/-- How wide a report may be. -/
def width : Nat := 140

/-- The measures of the rows of a report. -/
structure Sheet where
  /-- The digits of the largest line number. -/
  gutter : Nat
  window : Window

namespace Sheet

/-- The column where the text of a line begins. -/
def textColumn (s : Sheet) : Nat := s.gutter + 3

/-- The bar between the line numbers and the text. -/
def separator (s : Sheet) : Stroke := ⟨s.gutter + 1, .aside, ['|']⟩

def dots : List Char := ['.', '.', '.']

/-- The number of a line, to the right. -/
def number (s : Sheet) (l : Line) : Stroke :=
  let digits := l.number.repr.toList
  ⟨0, .aside, List.replicate (s.gutter - digits.length) ' ' ++ digits⟩

/-- The row of a line: what the window shows of it, with dots where it is cut. -/
def lineRow (s : Sheet) (l : Line) : List Cell :=
  let text := visible l.text
  let seen := s.window.view text
  let hidden := if s.window.cutsLeft then columnIndex seen dots.length else 0
  let start := s.textColumn + columns (seen.take hidden)
  let rest := seen.drop hidden
  Stroke.row <|
    (if s.window.cutsLeft then [⟨s.textColumn, .aside, dots⟩] else []) ++
    [⟨start, .plain, rest⟩] ++
    (if s.window.cutsRight (columns text) then
      [⟨start + rest.length - columnIndex seen.reverse dots.length, .aside, dots⟩] else []) ++
    [s.number l, s.separator]

/-- A row with dots in place of parts of it, each given by its columns. -/
def shorten (parts : List (Nat × Nat)) (row : List Cell) : List Cell :=
  parts.foldl (fun row (start, stop) => Stroke.inPlaceOf ⟨start, .aside, dots⟩ stop row) row

/-- The rows of a line and of the marks under it. Where a mark has dots, the line has them too. -/
def markedRows (s : Sheet) (l : Line) (ms : List Mark) : List (List Cell) :=
  let left := s.window.leftOf (columns (visible l.text))
  let column := fun c => s.textColumn + c - left
  let rows := s.lineRow l ::
    (Mark.rows column ms).map fun strokes => Stroke.row (s.separator :: strokes)
  (rows.take 2).map (shorten (Mark.middles column s.window.width ms)) ++ rows.drop 2

/-- The rows between two lines that have marks, given the lines between them. -/
def between (s : Sheet) : List Line → List (List Cell)
  | [] => []
  | [l] => [s.lineRow l]
  | _ => [Stroke.row [⟨0, .aside, dots⟩]]

/-- The rows of all lines. `skipped` are the lines without marks since the last line with marks. -/
def body (s : Sheet) (ms : List Mark) (skipped : List Line) : List Line → List (List Cell)
  | [] => []
  | l :: ls =>
    match ms.filter (·.line == l.number) with
    | [] => s.body ms (skipped ++ [l]) ls
    | own => s.between skipped ++ s.markedRows l own ++ s.body ms [] ls

end Sheet

/-- The columns of the blanks that a line begins with. -/
def indentation (l : Line) : Nat := columns (visible (l.text.takeWhile isBlank))

/-- What the window is chosen by. -/
def extent (lines : List Line) (ms : List Mark) : Extent :=
  let first := (ms.map Mark.first).min?.getD 0
  { blanks := min first ((lines.map indentation).min?.getD 0)
    first
    last := (ms.map Mark.stop).foldl max 0
    labels := (ms.map fun m => m.stop + byteLength m.label + 1).foldl max 0
    longest := (lines.map fun l => byteLength l.text).foldl max 0 }

/-- The headline of a diagnostic. -/
def headline (d : Diagnostic) : List Cell :=
  let label := d.severity.label.toList
  Stroke.row [⟨0, .alert, label⟩,
    ⟨label.length, .strong, visible (": " ++ d.message).toList⟩]

/-- The rows of the report of a diagnostic. -/
def rows? (r : Report) (d : Diagnostic) : Option (List (List Cell)) := do
  let source := r.source.toList
  let ms ← marks? source d
  let (line, column) ← place? source ((← widen? source d.span).start)
  let (l, ls) := Line.split source
  -- Lines before the first mark are not shown.
  let first := (ms.map Mark.line).min?.getD 1
  let shown := (l :: ls).filter fun l => first ≤ l.number
  let marked := shown.filter fun l => ms.any (·.line == l.number)
  let gutter := ((ms.map Mark.line).foldl max 0).repr.length
  let sheet : Sheet := ⟨gutter, Window.fit (extent marked ms) (width - (gutter + 3))⟩
  let place := match r.path with
    | none => []
    | some path => [Stroke.row [⟨gutter, .aside, "--> ".toList⟩,
        ⟨gutter + 4, .plain, (path ++ ":" ++ line.repr ++ ":" ++ column.repr).toList⟩]]
  return headline d :: place ++ [Stroke.row [sheet.separator]] ++ sheet.body ms [] shown

/-- The report of a diagnostic. -/
def one? (r : Report) (d : Diagnostic) : Option String := do
  return "\n".intercalate ((← r.rows? d).map (Cell.write r.colored))

/-- **The reports of diagnostics, in the order in which they are given.** There are none if one of
the spans has no mark. -/
def write? (r : Report) (ds : List Diagnostic) : Option String := do
  return "\n".intercalate (← ds.mapM r.one?)

end Report

end LuaTree

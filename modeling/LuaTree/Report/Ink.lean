/-!
# Report/Ink — rows of colored characters

A row is written by strokes, texts of one ink that begin at a column. A later stroke covers what
stands there, and columns that no stroke has reached are blank.
-/

namespace LuaTree

/-- How a character is highlighted on a terminal. -/
inductive Ink where
  | plain
  /-- Bold. -/
  | strong
  /-- Bold and bright red. -/
  | alert
  /-- Bold and bright blue. -/
  | aside
  deriving DecidableEq

/-- The escape character, which begins each control sequence of a terminal. -/
def Ink.escape : Char := '\x1b'

/-- Switches the ink on. -/
def Ink.on : Ink → String
  | plain => ""
  | strong => escape.toString ++ "[1m"
  | alert => escape.toString ++ "[1m" ++ escape.toString ++ "[91m"
  | aside => escape.toString ++ "[1m" ++ escape.toString ++ "[94m"

/-- Switches the ink off. -/
def Ink.off : Ink → String
  | plain => ""
  | _ => escape.toString ++ "[0m"

/-- A character and its ink. -/
structure Cell where
  char : Char
  ink : Ink

/-- A text of one ink that begins at a column. -/
structure Stroke where
  column : Nat
  ink : Ink
  text : List Char

/-- The row after a stroke. An empty stroke leaves no trace. -/
def Stroke.over (s : Stroke) (row : List Cell) : List Cell :=
  if s.text.isEmpty then row
  else
    let wide := row ++ List.replicate (s.column - row.length) ⟨' ', .plain⟩
    wide.take s.column ++ s.text.map (⟨·, s.ink⟩) ++ wide.drop (s.column + s.text.length)

/-- The row with a stroke in place of the cells from its column on to before `stop`, so that what
follows moves up to it. A row that ends before `stop` stays as it is. -/
def Stroke.inPlaceOf (s : Stroke) (stop : Nat) (row : List Cell) : List Cell :=
  if row.length < stop then row
  else row.take s.column ++ s.text.map (⟨·, s.ink⟩) ++ row.drop stop

/-- The row that strokes leave, the first one lowest. -/
def Stroke.row (strokes : List Stroke) : List Cell := strokes.foldl (fun row s => s.over row) []

/-- The row cut into texts of one ink. -/
def Cell.runs : List Cell → List (Ink × List Char)
  | [] => []
  | c :: cells =>
    match runs cells with
    | [] => [(c.ink, [c.char])]
    | (ink, text) :: rest =>
      if c.ink = ink then (ink, c.char :: text) :: rest
      else (c.ink, [c.char]) :: (ink, text) :: rest

theorem Cell.flatMap_runs (row : List Cell) : (runs row).flatMap Prod.snd = row.map Cell.char := by
  induction row with
  | nil => rfl
  | cons c cells ih =>
    rw [runs]
    split
    · simp_all
    · split <;> simp_all

/-- The text of a row, with or without its inks. -/
def Cell.write (colored : Bool) (row : List Cell) : String :=
  if colored then
    String.join ((runs row).map fun (ink, text) => ink.on ++ String.ofList text ++ ink.off)
  else String.ofList (row.map Cell.char)

end LuaTree

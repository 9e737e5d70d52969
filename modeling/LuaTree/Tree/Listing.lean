import LuaTree.Text.Quoted
import LuaTree.Tree

/-!
# Tree/Listing — a tree as rows, and as indented lines

The rows of a tree are its nodes and leaves in preorder with their depth. The listing writes one row
a line: two spaces for each level, the label of the kind, the span if it is asked for, and the text
of a leaf between quotes. Trivia is left out unless it is asked for.
-/

namespace LuaTree

/-- A node, or a leaf with its text, at its depth. -/
structure Row where
  depth : Nat
  kind : Kind
  span : Span
  text : Option String

namespace Tree

mutual

/-- The rows of a tree at a depth and an offset. -/
def rowsFrom (depth start : Nat) : Tree → List Row
  | leaf k s => [⟨depth, k, Span.ofLength start s.utf8ByteSize, some s⟩]
  | node k cs =>
    ⟨depth, k, Span.ofLength start (sizeOfList cs), none⟩ :: rowsOfList (depth + 1) start cs

/-- The rows of trees that stand one after the other. -/
def rowsOfList (depth start : Nat) : List Tree → List Row
  | [] => []
  | t :: ts => rowsFrom depth start t ++ rowsOfList depth (start + t.size) ts

end

/-- The nodes and leaves of a tree in preorder. -/
def rows (t : Tree) : List Row := rowsFrom 0 0 t

end Tree

namespace Row

/-- Whether a row is shown: nodes and significant tokens always, trivia where it is asked for. -/
def isShown (trivia : Bool) (r : Row) : Bool := trivia || r.text.isNone || !r.kind.isTrivia

/-- A span in brackets, where it is asked for. -/
def spanColumn (spans : Bool) (s : Span) : String :=
  if spans then " [" ++ s.describe ++ "]" else ""

/-- The line of a row. -/
def line (spans : Bool) (r : Row) : String :=
  String.ofList (List.replicate (2 * r.depth) ' ') ++ r.kind.label ++ spanColumn spans r.span ++
    (match r.text with
      | some s => " " ++ Quoted.write s
      | none => "") ++ "\n"

end Row

/-- **The listing of a tree.** -/
def Tree.listing (trivia spans : Bool) (t : Tree) : String :=
  String.join ((t.rows.filter (Row.isShown trivia)).map (Row.line spans))

end LuaTree

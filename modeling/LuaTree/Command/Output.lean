import LuaTree.Highlight
import LuaTree.Json
import LuaTree.Parse
import LuaTree.Report
import LuaTree.Tree.Listing

/-!
# Command/Output — what the commands write about a source
-/

namespace LuaTree

/-! ## Tokens -/

/-- A token as a row of a listing. -/
def Token.row (t : Token) : Row := ⟨0, t.kind, t.span, some t.text⟩

/-- The tokens of a source, one a line. -/
def tokensText (spans : Bool) (source : String) : String :=
  String.join ((lex source).map fun t => t.row.line spans)

def Token.toJson (t : Token) : Json :=
  .object [("kind", .text t.kind.label), ("start", .number t.start), ("end", .number t.stop),
    ("text", .text t.text)]

/-- The tokens of a source for machines. -/
def tokensJson (source : String) : Json := .list ((lex source).map Token.toJson)

/-! ## Highlights -/

/-- A highlighted piece in one line. -/
def Highlight.line (h : Highlight) : String :=
  h.start.repr ++ ".." ++ h.stop.repr ++ " " ++ h.category.label ++ " " ++
    Quoted.write (String.ofList h.text) ++ "\n"

/-- The highlighted pieces of a source, one a line. -/
def highlightText (source : String) : String :=
  String.join ((highlight source).map Highlight.line)

def Highlight.toJson (h : Highlight) : Json :=
  .object [("range", .object [("start", .number h.start), ("end", .number h.stop)]),
    ("category", .text h.category.label)]

/-- The highlighted pieces of a source for machines. -/
def highlightJson (source : String) : Json := .list ((highlight source).map Highlight.toJson)

/-! ## The tree and the diagnostics -/

/-- The listing of the tree of a source. -/
def treeText (trivia spans : Bool) (source : String) : Except Fault String := do
  return (← parse source .standard).tree.listing trivia spans

/-- The report of the diagnostics of a parse, in the order of the source. -/
def Parse.report (p : Parse) (r : Report) : Except Fault String :=
  match r.write? (Diagnostic.sorted p.diagnostics) with
  | some text => return text
  | none => throw .offSource

/-- The diagnostics of a parse for machines, in the order of the source. -/
def Parse.reportJson (p : Parse) : Json := Diagnostic.listToJson (Diagnostic.sorted p.diagnostics)

end LuaTree

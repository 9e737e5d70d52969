import LuaTree.Json
import LuaTree.Text.Span

/-!
# Diagnostic — what was found wrong, where, and in which words

A diagnostic names a kind of problem and the span it concerns, perhaps a detail and notes that point
at related places. Its words follow from the kind and the detail. A collection keeps the order in
which problems were found; `sorted` puts them in the order of the source.
-/

namespace LuaTree

inductive Severity where
  | error | warning
  deriving DecidableEq

def Severity.label : Severity → String
  | .error => "error"
  | .warning => "warning"

/-- The kinds of problems: in the text of a token, something left out, something that does not
belong, and nesting beyond the limit. -/
inductive Problem where
  | unexpectedCharacter | unfinishedString | unfinishedComment
  | expectedToken | expectedExpression | expectedStatement
  | bareExpression | invalidAssignmentTarget
  | recursionLimitExceeded
  deriving DecidableEq

namespace Problem

def all : List Problem :=
  [unexpectedCharacter, unfinishedString, unfinishedComment, expectedToken, expectedExpression,
    expectedStatement, bareExpression, invalidAssignmentTarget, recursionLimitExceeded]

def label : Problem → String
  | unexpectedCharacter => "UnexpectedCharacter"
  | unfinishedString => "UnfinishedString"
  | unfinishedComment => "UnfinishedComment"
  | expectedToken => "ExpectedToken"
  | expectedExpression => "ExpectedExpression"
  | expectedStatement => "ExpectedStatement"
  | bareExpression => "BareExpression"
  | invalidAssignmentTarget => "InvalidAssignmentTarget"
  | recursionLimitExceeded => "RecursionLimitExceeded"

/-- The problem that a label names. -/
def ofLabel? (s : String) : Option Problem := all.find? (·.label == s)

/-- Every problem is an error. -/
def severity (_ : Problem) : Severity := .error

/-- The words without a detail. -/
def fallback : Problem → String
  | unexpectedCharacter => "unexpected character"
  | unfinishedString => "unfinished string"
  | unfinishedComment => "unfinished long comment"
  | expectedToken => "token expected"
  | expectedExpression => "expression expected"
  | expectedStatement => "statement expected"
  | bareExpression => "expression is not a statement"
  | invalidAssignmentTarget => "cannot assign to a function call"
  | recursionLimitExceeded => "nesting too deep"

/-- The words around a detail. -/
def frame (p : Problem) : String × String :=
  match p with
  | expectedToken => ("", " expected")
  | recursionLimitExceeded => ("nesting too deep: limit is ", "")
  | _ => (p.fallback ++ ": ", "")

/-- The words around a detail, with a pair of braces in its place. -/
def template (p : Problem) : String := p.frame.1 ++ "\x7b\x7d" ++ p.frame.2

def message (p : Problem) : Option String → String
  | none => p.fallback
  | some detail => p.frame.1 ++ detail ++ p.frame.2

end Problem

/-- A place that a diagnostic refers to. -/
structure Note where
  span : Span
  message : String
  deriving DecidableEq

/-- A problem found at a span. -/
structure Diagnostic where
  problem : Problem
  span : Span
  detail : Option String
  notes : List Note
  deriving DecidableEq

namespace Diagnostic

def message (d : Diagnostic) : String := d.problem.message d.detail

def severity (d : Diagnostic) : Severity := d.problem.severity

def isError (d : Diagnostic) : Bool := d.severity == .error

def isWarning (d : Diagnostic) : Bool := d.severity == .warning

/-- The diagnostic in one line, its notes in parentheses behind it. -/
def describe (d : Diagnostic) : String :=
  d.severity.label ++ " at " ++ d.span.describe ++ ": " ++ d.message ++
    String.join (d.notes.map fun n =>
      " (related: " ++ n.message ++ " at " ++ n.span.describe ++ ")")

/-- In the order of the source: by the start of the span, then by its end. -/
def before (d e : Diagnostic) : Bool :=
  d.span.start < e.span.start || (d.span.start == e.span.start && d.span.stop ≤ e.span.stop)

/-- The diagnostics in the order of the source; those with the same span keep their order. -/
def sorted (ds : List Diagnostic) : List Diagnostic := ds.mergeSort before

theorem sorted_perm (ds : List Diagnostic) : (sorted ds).Perm ds := List.mergeSort_perm ..

def spanToJson (s : Span) : Json := .object [("start", .number s.start), ("end", .number s.stop)]

def noteToJson (n : Note) : Json :=
  .object [("range", spanToJson n.span), ("message", .text n.message)]

/-- The field of notes is left out when there are none. -/
def toJson (d : Diagnostic) : Json :=
  .object <|
    [("severity", .text d.severity.label), ("range", spanToJson d.span),
      ("message", .text d.message)] ++
    if d.notes.isEmpty then [] else [("related", .list (d.notes.map noteToJson))]

def listToJson (ds : List Diagnostic) : Json := .list (ds.map toJson)

def errors (ds : List Diagnostic) : Nat := ds.countP isError

def warnings (ds : List Diagnostic) : Nat := ds.countP isWarning

end Diagnostic

end LuaTree

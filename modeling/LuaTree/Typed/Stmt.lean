import LuaTree.Typed.Expr

/-!
# Typed/Stmt — statements, blocks, functions, and what they are made of
-/

namespace LuaTree

/-- A node that is a statement. -/
inductive Stmt where
  | assignment (n : Node .assignmentStatement)
  | call (n : Node .callStatement)
  | expression (n : Node .expressionStatement)
  | doBlock (n : Node .doStatement)
  | whileLoop (n : Node .whileStatement)
  | repeatLoop (n : Node .repeatStatement)
  | ifBranch (n : Node .ifStatement)
  | simpleFor (n : Node .simpleForStatement)
  | rangeFor (n : Node .rangeForStatement)
  | functionDefinition (n : Node .functionDefinitionStatement)
  | localFunction (n : Node .localFunctionStatement)
  | localName (n : Node .localNameStatement)
  | returning (n : Node .returnStatement)
  | breaking (n : Node .breakStatement)
  | jump (n : Node .gotoStatement)
  | label (n : Node .labelStatement)

namespace Stmt

/-- The part as a statement, if it is one. -/
def ofLocated? (l : Located) : Option Stmt :=
  match l.tree with
  | .leaf .. => none
  | .node k children =>
    match k with
    | .assignmentStatement => some (assignment ⟨l.start, children⟩)
    | .callStatement => some (call ⟨l.start, children⟩)
    | .expressionStatement => some (expression ⟨l.start, children⟩)
    | .doStatement => some (doBlock ⟨l.start, children⟩)
    | .whileStatement => some (whileLoop ⟨l.start, children⟩)
    | .repeatStatement => some (repeatLoop ⟨l.start, children⟩)
    | .ifStatement => some (ifBranch ⟨l.start, children⟩)
    | .simpleForStatement => some (simpleFor ⟨l.start, children⟩)
    | .rangeForStatement => some (rangeFor ⟨l.start, children⟩)
    | .functionDefinitionStatement => some (functionDefinition ⟨l.start, children⟩)
    | .localFunctionStatement => some (localFunction ⟨l.start, children⟩)
    | .localNameStatement => some (localName ⟨l.start, children⟩)
    | .returnStatement => some (returning ⟨l.start, children⟩)
    | .breakStatement => some (breaking ⟨l.start, children⟩)
    | .gotoStatement => some (jump ⟨l.start, children⟩)
    | .labelStatement => some (label ⟨l.start, children⟩)
    | _ => none

def located : Stmt → Located
  | assignment n => n.located
  | call n => n.located
  | expression n => n.located
  | doBlock n => n.located
  | whileLoop n => n.located
  | repeatLoop n => n.located
  | ifBranch n => n.located
  | simpleFor n => n.located
  | rangeFor n => n.located
  | functionDefinition n => n.located
  | localFunction n => n.located
  | localName n => n.located
  | returning n => n.located
  | breaking n => n.located
  | jump n => n.located
  | label n => n.located

@[simp] theorem ofLocated?_located (s : Stmt) : ofLocated? s.located = some s := by
  cases s <;> rfl

def tag : Stmt → String
  | assignment _ => "Assignment"
  | call _ => "Call"
  | expression _ => "Expression"
  | doBlock _ => "Do"
  | whileLoop _ => "While"
  | repeatLoop _ => "Repeat"
  | ifBranch _ => "If"
  | simpleFor _ => "SimpleFor"
  | rangeFor _ => "RangeFor"
  | functionDefinition _ => "FunctionDefinition"
  | localFunction _ => "LocalFunction"
  | localName _ => "LocalName"
  | returning _ => "Return"
  | breaking _ => "Break"
  | jump _ => "Goto"
  | label _ => "Label"

end Stmt

namespace Node

/-- The statements among the children. -/
def stmts {k : Kind} (n : Node k) : List Stmt := n.parts.filterMap Stmt.ofLocated?

/-- The block among the children. -/
def block? {k : Kind} (n : Node k) : Option (Node .block) := n.childAs? .block

/-- The list of expressions among the children. -/
def expressionList? {k : Kind} (n : Node k) : Option (Node .expressionList) :=
  n.childAs? .expressionList

/-- The declared name among the children. -/
def name? {k : Kind} (n : Node k) : Option (Node .name) := n.childAs? .name

/-- The list of declared names among the children. -/
def nameList? {k : Kind} (n : Node k) : Option (Node .nameList) := n.childAs? .nameList

/-- The body of a function among the children. -/
def functionBody? {k : Kind} (n : Node k) : Option (Node .functionBody) := n.childAs? .functionBody

end Node

/-! ## Chunks and blocks -/

/-- What the block of a chunk has left over. -/
def Node.garbage? (n : Node .chunk) : Option (Node .garbage) := n.childAs? .garbage

def Node.statements (n : Node .block) : List Stmt :=
  match n.childAs? .statementList with
  | some list => list.stmts
  | none => []

/-- The statements that were found in what was left over. -/
def Node.salvaged (n : Node .garbage) : List Stmt := n.stmts

/-! ## Assignments and calls -/

def Node.targets? (n : Node .assignmentStatement) : Option (Node .variableList) :=
  n.childAs? .variableList

def Node.variables (n : Node .variableList) : List (Node .var) := n.childrenAs .var

/-- What is assigned to. -/
def Node.target? (n : Node .var) : Option Expr := n.expr?

def Node.call? (n : Node .callStatement) : Option (Node .callExpression) :=
  n.childAs? .callExpression

/-! ## Branches and loops -/

/-- The condition of a loop or a branch. -/
def Node.condition? {k : Kind} (n : Node k) : Option Expr := n.expr?

def Node.thenBranch? (n : Node .ifStatement) : Option (Node .thenBranch) := n.childAs? .thenBranch

def Node.elseifBranches (n : Node .ifStatement) : List (Node .elseifBranch) :=
  n.childrenAs .elseifBranch

def Node.elseBranch? (n : Node .ifStatement) : Option (Node .elseBranch) := n.childAs? .elseBranch

/-- The start, the end and perhaps the step of a numeric loop. -/
def Node.bounds (n : Node .simpleForStatement) : List Expr := n.exprs

/-- The label of a jump or a label statement. -/
def Node.labelToken? {k : Kind} (n : Node k) : Option Token := n.token? .ident

/-! ## Functions -/

def Node.functionName? (n : Node .functionDefinitionStatement) : Option (Node .functionName) :=
  n.childAs? .functionName

/-- The table that a path such as `a.b.c` or `a:m` leads into. -/
def Node.path? (n : Node .functionName) : Option (Node .nameRef) := n.childAs? .nameRef

/-- Whether the name ends with a method. -/
def Node.namesMethod (n : Node .functionName) : Bool := n.hasToken .colon

def Node.parameters? (n : Node .functionBody) : Option (Node .parameterList) :=
  n.childAs? .parameterList

def Node.parameterNames (n : Node .parameterList) : List (Node .name) := n.childrenAs .name

/-- Whether more arguments are taken than there are names. -/
def Node.isVararg (n : Node .parameterList) : Bool := n.hasToken .ellipsis

end LuaTree

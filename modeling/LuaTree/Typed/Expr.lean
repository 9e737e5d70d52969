import LuaTree.KindSet
import LuaTree.Typed.Node

/-!
# Typed/Expr — expressions, names, and what they are made of

An expression is a node of one of thirteen kinds. Its operands are the expressions among its
children: the first is the left operand, the callee or the base, the second the right operand or
the key.
-/

namespace LuaTree

/-- A node that is an expression. -/
inductive Expr where
  | nil (n : Node .nilLiteral)
  | boolean (n : Node .booleanLiteral)
  | number (n : Node .numberLiteral)
  | string (n : Node .stringLiteral)
  | vararg (n : Node .varargLiteral)
  | binary (n : Node .binaryExpression)
  | unary (n : Node .unaryExpression)
  | paren (n : Node .parenExpression)
  | index (n : Node .indexExpression)
  | call (n : Node .callExpression)
  | nameRef (n : Node .nameRef)
  | table (n : Node .tableExpression)
  | function (n : Node .functionExpression)

namespace Expr

/-- The part as an expression, if it is one. -/
def ofLocated? (l : Located) : Option Expr :=
  match l.tree with
  | .leaf .. => none
  | .node k children =>
    match k with
    | .nilLiteral => some (nil ⟨l.start, children⟩)
    | .booleanLiteral => some (boolean ⟨l.start, children⟩)
    | .numberLiteral => some (number ⟨l.start, children⟩)
    | .stringLiteral => some (string ⟨l.start, children⟩)
    | .varargLiteral => some (vararg ⟨l.start, children⟩)
    | .binaryExpression => some (binary ⟨l.start, children⟩)
    | .unaryExpression => some (unary ⟨l.start, children⟩)
    | .parenExpression => some (paren ⟨l.start, children⟩)
    | .indexExpression => some (index ⟨l.start, children⟩)
    | .callExpression => some (call ⟨l.start, children⟩)
    | .nameRef => some (nameRef ⟨l.start, children⟩)
    | .tableExpression => some (table ⟨l.start, children⟩)
    | .functionExpression => some (function ⟨l.start, children⟩)
    | _ => none

def located : Expr → Located
  | nil n => n.located
  | boolean n => n.located
  | number n => n.located
  | string n => n.located
  | vararg n => n.located
  | binary n => n.located
  | unary n => n.located
  | paren n => n.located
  | index n => n.located
  | call n => n.located
  | nameRef n => n.located
  | table n => n.located
  | function n => n.located

@[simp] theorem ofLocated?_located (e : Expr) : ofLocated? e.located = some e := by
  cases e <;> rfl

def label : Expr → String
  | nil _ => "Nil"
  | boolean _ => "Boolean"
  | number _ => "Number"
  | string _ => "String"
  | vararg _ => "Vararg"
  | binary _ => "Binary"
  | unary _ => "Unary"
  | paren _ => "Paren"
  | index _ => "Index"
  | call _ => "Call"
  | nameRef _ => "NameRef"
  | table _ => "Table"
  | function _ => "Function"

end Expr

namespace Node

/-- The expressions among the children. -/
def exprs {k : Kind} (n : Node k) : List Expr := n.parts.filterMap Expr.ofLocated?

/-- The first expression among the children. -/
def expr? {k : Kind} (n : Node k) : Option Expr := n.exprs.head?

/-- The second expression among the children. -/
def secondExpr? {k : Kind} (n : Node k) : Option Expr := n.exprs[1]?

end Node

/-! ## Names -/

/-- The name itself, in a declaration. -/
def Node.declared? (n : Node .name) : Option Token := n.token? .ident

/-- The text of a declared name; empty where the name is missing. -/
def Node.declaredText (n : Node .name) : String := n.declared?.elim "" Token.text

/-- The name itself, in a use. -/
def Node.used? (n : Node .nameRef) : Option Token := n.token? .ident

/-- The text of a used name; empty where the name is missing. -/
def Node.usedText (n : Node .nameRef) : String := n.used?.elim "" Token.text

def Node.names (n : Node .nameList) : List (Node .name) := n.childrenAs .name

/-! ## Literals and operations -/

/-- Whether the literal is `true`. -/
def Node.value (n : Node .booleanLiteral) : Bool := n.hasToken .kwTrue

def Node.numberToken? (n : Node .numberLiteral) : Option Token :=
  n.firstToken?.filter (KindSet.numbers.contains ·.kind)

def Node.stringToken? (n : Node .stringLiteral) : Option Token :=
  n.firstToken?.filter (KindSet.strings.contains ·.kind)

def Node.lhs? (n : Node .binaryExpression) : Option Expr := n.expr?

def Node.rhs? (n : Node .binaryExpression) : Option Expr := n.secondExpr?

def Node.binaryOperator? (n : Node .binaryExpression) : Option Token :=
  (n.childAs? .binaryOperator).bind Node.firstToken?

def Node.unaryOperator? (n : Node .unaryExpression) : Option Token :=
  (n.childAs? .unaryOperator).bind Node.firstToken?

def Node.operand? (n : Node .unaryExpression) : Option Expr := n.expr?

/-! ## Chains -/

def Node.inner? (n : Node .parenExpression) : Option Expr := n.expr?

def Node.base? (n : Node .indexExpression) : Option Expr := n.expr?

/-- The name of the field in `a.name` and `a:name`. -/
def Node.fieldName? (n : Node .indexExpression) : Option Token := n.token? .ident

/-- The key in `a[key]`. -/
def Node.indexKey? (n : Node .indexExpression) : Option Expr := n.secondExpr?

/-- Whether a method is selected, as in `a:name`. -/
def Node.selectsMethod (n : Node .indexExpression) : Bool := n.hasToken .colon

def Node.callee? (n : Node .callExpression) : Option Expr := n.expr?

def Node.arguments? (n : Node .callExpression) : Option (Node .argumentList) :=
  n.childAs? .argumentList

/-- The arguments in parentheses, or the table or string that stands alone. -/
def Node.args (n : Node .argumentList) : List Expr :=
  match n.childAs? .expressionList with
  | some list => list.exprs
  | none => n.exprs

/-! ## Tables -/

def Node.fields (n : Node .tableExpression) : List (Node .tableField) := n.childrenAs .tableField

/-- The key of `name = value`. -/
def Node.namedKey? (n : Node .tableField) : Option Token :=
  if n.hasToken .equals then n.token? .ident else none

/-- The key of `[key] = value`. -/
def Node.bracketKey? (n : Node .tableField) : Option Expr :=
  if n.hasToken .bracketOpen then n.expr? else none

def Node.fieldValue? (n : Node .tableField) : Option Expr :=
  if n.hasToken .bracketOpen then n.secondExpr? else n.expr?

end LuaTree

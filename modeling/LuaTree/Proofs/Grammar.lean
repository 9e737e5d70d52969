import LuaTree.Production.Entry
import LuaTree.Proofs.Tree
import Mathlib.Computability.Language
import Mathlib.Order.CompletePartialOrder

/-!
# Proofs/Grammar — the children that a node of each kind may have

`production gaps k` is the language of the rows of children of a node of kind `k`, without trivia and
without the nodes for unreadable pieces.  With `gaps` a piece may be missing, as in the tree of a
source with mistakes; without, the productions are those of the language.  `Tree.Conforms` asks for the
production at every node.

Operators are ranked: `tightness` is the rank of the outermost operator of an expression, and an
operand has to be tight enough for its side of the operator.
-/

namespace LuaTree.Grammar

open Computability

/-! ## Single trees -/

/-- A token of a kind. -/
def token (k : Kind) : Language Tree := {ts | ∃ s, ts = [.leaf k s]}

/-- A token of one of some kinds. -/
def tokenOf (set : KindSet) : Language Tree := {ts | ∃ k ∈ set, ∃ s, ts = [.leaf k s]}

/-- A token of any kind but some. -/
def tokenOutside (set : KindSet) : Language Tree := {ts | ∃ k ∉ set, ∃ s, ts = [.leaf k s]}

/-- A node of a kind. -/
def node (k : Kind) : Language Tree := {ts | ∃ cs, ts = [.node k cs]}

/-- A node of one of some kinds. -/
def nodeOf (ks : List Kind) : Language Tree := {ts | ∃ k ∈ ks, ∃ cs, ts = [.node k cs]}

/-- Whether a tree is a node for what could not be read. -/
def isError : Tree → Bool
  | .node .error _ => true
  | _ => false

/-- The row without the nodes for what could not be read. -/
def clear (ts : List Tree) : List Tree := ts.filter (!isError ·)

/-- A node of a kind around a row of a language. -/
def around (k : Kind) (L : Language Tree) : Language Tree :=
  {ts | ∃ cs, ts = [.node k cs] ∧ clear cs ∈ L}

/-! ## Operators -/

/-- The place of a binary operator in the table of precedence, the loosest first; unary operators
come in at 10 and atoms at 12. -/
def rank (k : Kind) : Nat :=
  if k ∈ KindSet.power then 11 else Level.all.findIdx (·.operators.contains k)

/-- How tight the left operand of an operator has to be. -/
def leftBound (k : Kind) : Nat :=
  match Level.all[rank k]? with
  | some ⟨_, .left⟩ => rank k
  | some ⟨_, .right⟩ => rank k + 1
  | none => 12

/-- How tight the right operand of an operator has to be. -/
def rightBound (k : Kind) : Nat :=
  match Level.all[rank k]? with
  | some ⟨_, .left⟩ => rank k + 1
  | some ⟨_, .right⟩ => rank k
  | none => 10

/-- The kind of a leaf. -/
def leafKind? : Tree → Option Kind
  | .leaf k _ => some k
  | .node .. => none

/-- The operator among the children of a binary expression. -/
def operator? (cs : List Tree) : Option Kind :=
  cs.findSome? fun
    | .node .binaryOperator ds => ds.findSome? leafKind?
    | _ => none

/-- How tightly the outermost operator of an expression binds. -/
def tightness : Tree → Nat
  | .node .binaryExpression cs => (operator? cs).elim 0 rank
  | .node .unaryExpression _ => 10
  | _ => 12

/-! ## Classes of nodes -/

/-- What a suffix may be appended to, and suffixes themselves. -/
def chainKinds : List Kind := [.nameRef, .parenExpression, .indexExpression, .callExpression]

def expressionKinds : List Kind :=
  chainKinds ++ [.nilLiteral, .booleanLiteral, .numberLiteral, .stringLiteral, .varargLiteral,
    .binaryExpression, .unaryExpression, .tableExpression, .functionExpression]

/-- The statements that need not come last in a block. -/
def statementKinds (gaps : Bool) : List Kind :=
  [.doStatement, .whileStatement, .repeatStatement, .ifStatement, .simpleForStatement,
    .rangeForStatement, .functionDefinitionStatement, .localFunctionStatement, .localNameStatement,
    .breakStatement, .gotoStatement, .labelStatement, .callStatement, .assignmentStatement] ++
  if gaps then [.expressionStatement] else []

/-- Whether a tree names a method, as in `a:b`. -/
def isMethod : Tree → Bool
  | .node .indexExpression cs => cs.any (·.kind == .colon)
  | _ => false

/-- `name (',' name)*` -/
def someNames : Language Tree := node .name * (token .comma * node .name)∗

section Productions

variable (gaps : Bool)

/-- A piece that is missing only where gaps are allowed. -/
def hole (L : Language Tree) : Language Tree := if gaps then 1 + L else L

/-- A piece that is there only where gaps are allowed. -/
def extra (L : Language Tree) : Language Tree := if gaps then 1 + L else 1

/-- A chain of suffixes; a method is called at once. -/
def chain : Language Tree :=
  {ts | ∃ k ∈ chainKinds, ∃ cs, ts = [.node k cs] ∧ (isMethod (.node k cs) → gaps)}

/-- A chain that can be assigned to: not a call. -/
def target : Language Tree :=
  {ts | ts ∈ chain gaps ∧ ∀ t ∈ ts, t.kind = .callExpression → gaps}

/-- An expression whose outermost operator has at least a rank. -/
def operand (rank : Nat) : Language Tree :=
  {ts | ∃ k ∈ expressionKinds, ∃ cs, ts = [.node k cs] ∧ (isMethod (.node k cs) → gaps) ∧
    rank ≤ tightness (.node k cs)}

def expression : Language Tree := operand gaps 0

def statement : Language Tree := nodeOf (statementKinds gaps)

/-- `expression (',' expression)*`, after the first one. -/
def moreExpressions : Language Tree := (token .comma * hole gaps (expression gaps))∗

/-- Names, with a comma at the end only where gaps are allowed. -/
def names : Language Tree := someNames * extra gaps (token .comma)

/-- The operator of a binary expression. -/
def operatorOf (k : Kind) : Language Tree :=
  {ts | ∃ cs, ts = [.node .binaryOperator cs] ∧ cs.findSome? leafKind? = some k}

/-- What stands in a binary expression with a given operator. -/
def binaryOf (k : Kind) : Language Tree :=
  operand gaps (leftBound k) * operatorOf k * hole gaps (operand gaps (rightBound k))

/-- An operator between operands that are tight enough. -/
def binary : Language Tree := {ts | ∃ k ∈ KindSet.binaryOperators, ts ∈ binaryOf gaps k}

/-- `'.' name`, `':' name` or `'[' expression ']'` -/
def selector : Language Tree :=
  token .dot * hole gaps (token .ident) + token .colon * hole gaps (token .ident) +
    token .bracketOpen * hole gaps (expression gaps) * hole gaps (token .bracketClose)

/-- `name '=' expression`, `'[' expression ']' '=' expression`, or `expression`. -/
def field : Language Tree :=
  token .ident * token .equals * hole gaps (expression gaps) +
    token .bracketOpen * hole gaps (expression gaps) * hole gaps (token .bracketClose) *
      hole gaps (token .equals) * hole gaps (expression gaps) +
    expression gaps

/-- `(name (',' name)* (',' '...')? | '...')?` -/
def parameters : Language Tree :=
  1 + token .ellipsis +
    someNames * (token .comma * token .ellipsis + extra gaps (token .comma))

/-- `('.' name)* (':' name)?`, at least one of them. -/
def path : Language Tree :=
  token .dot * hole gaps (token .ident) * (token .dot * hole gaps (token .ident))∗ *
      (1 + token .colon * hole gaps (token .ident)) +
    token .colon * hole gaps (token .ident)

/-- **The children of a node of each kind.** -/
def production : Kind → Language Tree
  | .chunk => node .block * extra gaps (node .garbage)
  | .block => node .statementList
  | .statementList => (statement gaps + token .semicolon)∗ * (1 + node .returnStatement)
  | .doStatement => token .kwDo * node .block * hole gaps (token .kwEnd)
  | .whileStatement =>
    token .kwWhile * hole gaps (expression gaps) * hole gaps (token .kwDo) * node .block *
      hole gaps (token .kwEnd)
  | .repeatStatement =>
    token .kwRepeat * node .block * hole gaps (token .kwUntil * hole gaps (expression gaps))
  | .ifStatement =>
    token .kwIf * hole gaps (expression gaps) * hole gaps (token .kwThen) * node .thenBranch *
      (node .elseifBranch)∗ * (1 + node .elseBranch) * hole gaps (token .kwEnd)
  | .thenBranch => node .block
  | .elseifBranch =>
    token .kwElseif * hole gaps (expression gaps) * hole gaps (token .kwThen) * node .block
  | .elseBranch => token .kwElse * node .block
  | .simpleForStatement =>
    token .kwFor * hole gaps (node .name * extra gaps (token .comma)) * hole gaps (token .equals) *
      hole gaps (expression gaps) * hole gaps (token .comma) * hole gaps (expression gaps) *
      (1 + token .comma * hole gaps (expression gaps)) * hole gaps (token .kwDo) * node .block *
      hole gaps (token .kwEnd)
  | .rangeForStatement =>
    token .kwFor * node .nameList * hole gaps (token .kwIn) * hole gaps (node .expressionList) *
      hole gaps (token .kwDo) * node .block * hole gaps (token .kwEnd)
  | .nameList => hole gaps (names gaps)
  | .functionDefinitionStatement => token .kwFunction * node .functionName * node .functionBody
  | .functionName => hole gaps (node .name + node .nameRef * path gaps)
  | .localFunctionStatement =>
    token .kwLocal * token .kwFunction * hole gaps (node .name) * node .functionBody
  | .localNameStatement =>
    token .kwLocal * node .nameList * (1 + token .equals * hole gaps (node .expressionList))
  | .returnStatement => token .kwReturn * (1 + node .expressionList) * (1 + token .semicolon)
  | .breakStatement => token .kwBreak
  | .gotoStatement => token .kwGoto * hole gaps (token .ident)
  | .labelStatement =>
    token .doubleColon * hole gaps (token .ident) * hole gaps (token .doubleColon)
  | .callStatement => node .callExpression
  | .assignmentStatement =>
    node .variableList * hole gaps (token .equals) * hole gaps (node .expressionList)
  | .variableList =>
    node .var * (token .comma * node .var)∗ * extra gaps (token .comma)
  | .var => target gaps
  | .expressionStatement => if gaps then node .expressionList else 0
  | .expressionList => hole gaps (expression gaps) * moreExpressions gaps
  | .name | .nameRef => token .ident
  | .parenExpression =>
    token .parenOpen * hole gaps (expression gaps) * hole gaps (token .parenClose)
  | .indexExpression => chain gaps * selector gaps
  | .callExpression => nodeOf chainKinds * node .argumentList
  | .argumentList =>
    node .tableExpression + node .stringLiteral +
      token .parenOpen * (1 + node .expressionList) * hole gaps (token .parenClose)
  | .nilLiteral => token .kwNil
  | .booleanLiteral => token .kwTrue + token .kwFalse
  | .numberLiteral => tokenOf .numbers
  | .stringLiteral => tokenOf .strings
  | .varargLiteral => token .ellipsis
  | .binaryExpression => binary gaps
  | .binaryOperator => tokenOf .binaryOperators
  | .unaryExpression => node .unaryOperator * hole gaps (operand gaps 10)
  | .unaryOperator => tokenOf .unaryOperators
  | .tableExpression =>
    token .braceOpen * (hole gaps (node .tableField) * node .tableFieldSeparator)∗ *
      (1 + node .tableField) * hole gaps (token .braceClose)
  | .tableField => field gaps
  | .tableFieldSeparator => tokenOf .fieldSeparators
  | .functionExpression => token .kwFunction * node .functionBody
  | .functionBody => node .parameterList * node .block * hole gaps (token .kwEnd)
  | .parameterList =>
    hole gaps (token .parenOpen * parameters gaps * hole gaps (token .parenClose))
  | .garbage => if gaps then (statement gaps + tokenOutside .salvageFirst)∗ else 0
  | .error => if gaps then (tokenOutside .empty)∗ else 0
  | _ => 0

end Productions

end Grammar

/-- **Every node has the children that its kind asks for.** -/
def Tree.Conforms (gaps : Bool) (t : Tree) : Prop :=
  t.Everywhere fun k cs => Grammar.clear cs ∈ Grammar.production gaps k

end LuaTree

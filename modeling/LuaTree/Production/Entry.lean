import LuaTree.Parser.Basic

/-!
# Production/Entry — the productions that count as nesting, and what is read through them

Three productions may contain themselves: operations, operands of a unary operator and lists of
statements. The others reach them through a function `enter`, which counts the nesting, so each
production is defined on its own and the recursion is tied once, in `Production/Chunk`. Everything
that is read between two entries consumes a token, so the nesting is bounded by the number of
tokens.
-/

namespace LuaTree

/-- On which side a chain of operators of one level is grouped. -/
inductive Assoc where
  | left | right
  deriving DecidableEq

/-- The binary operators of one precedence. -/
structure Level where
  operators : KindSet
  assoc : Assoc

/-- The levels of binary operators below the unary ones, the loosest first. -/
def Level.all : List Level :=
  [⟨.disjunction, .left⟩, ⟨.conjunction, .left⟩, ⟨.relational, .left⟩, ⟨.bitOr, .left⟩,
    ⟨.bitXor, .left⟩, ⟨.bitAnd, .left⟩, ⟨.shifts, .left⟩, ⟨.concatenation, .right⟩,
    ⟨.additive, .left⟩, ⟨.multiplicative, .left⟩]

/-- A production that counts as nesting. -/
inductive Entry where
  /-- An operation of the given levels, whose leftmost operand may have been read already. -/
  | operation (levels : List Level) (operand : Option Closed)
  /-- The operand of a unary operator or of a power. -/
  | unary
  /-- The statements of a block. -/
  | statements

/-- How a counted production is entered. -/
abbrev Enter := Entry → Parser (Option Closed)

namespace Production

open LuaTree.Parser

/-- Closes a node that nothing will wrap. -/
def finish (o : Opening) (kind : Kind) : Parser Unit := do
  let _ ← complete o kind

/-- A node around the next token. -/
def single (kind : Kind) : Parser Closed := do
  let o ← start
  bump
  complete o kind

/-- The declaration of a name. -/
def name : Parser Unit := do
  require .ident
  let _ ← single .name

/-- The use of a name. -/
def nameRef : Parser Closed := do
  require .ident
  single .nameRef

/-- One expression; `none` if none begins here. -/
def expression (enter : Enter) (operand : Option Closed) : Parser (Option Closed) :=
  enter (.operation Level.all operand)

/-- One expression, which is reported if it is missing. -/
def expectExpression (enter : Enter) : Parser Unit := do
  if (← expression enter none).isNone then problem .expectedExpression none

/-- `(',' expression)*` -/
def moreExpressions (enter : Enter) : Parser Unit :=
  loop () fun _ => do
    if ← eat .comma then
      expectExpression enter
      return .again ()
    else return .done ()

/-- `expression (',' expression)*`; false if no expression begins here. -/
def expressionList (enter : Enter) : Parser Bool := do
  let o ← start
  if (← expression enter none).isNone then
    abandon o
    return false
  moreExpressions enter
  finish o .expressionList
  return true

/-- A list of expressions, which is reported if it is missing. -/
def expectExpressionList (enter : Enter) : Parser Unit := do
  if !(← expressionList enter) then problem .expectedExpression none

/-- The statements of a block. -/
def block (enter : Enter) : Parser Unit := do
  let outer ← start
  let list ← start
  let _ ← enter .statements
  finish list .statementList
  finish outer .block

end Production

end LuaTree

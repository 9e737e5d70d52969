import LuaTree.Production.Chain
import LuaTree.Production.Function

/-!
# Production/Operation — operators and their operands

From loose to tight: `or`, `and`, comparisons, `|`, `~`, `&`, shifts, `..`, sums, products, unary
operators, `^`, atoms. Operators of one level group to the left, but `..` and `^` to the right. A
power binds tighter than a unary operator on its left and takes one on its right.
-/

namespace LuaTree.Production

open LuaTree.Parser

/-- A literal, a table, a function or a chain. -/
def atom (enter : Enter) : Parser (Option Closed) := do
  match ← peek with
  | .kwNil => return some (← single .nilLiteral)
  | .kwTrue | .kwFalse => return some (← single .booleanLiteral)
  | .ellipsis => return some (← single .varargLiteral)
  | .braceOpen => return some (← table enter)
  | .kwFunction => return some (← functionExpression enter)
  | k =>
    if k ∈ KindSet.numbers then return some (← single .numberLiteral)
    else if k ∈ KindSet.strings then return some (← single .stringLiteral)
    else chain enter

/-- What follows an operator, which is reported if it is missing. -/
def operandOf (enter : Enter) (e : Entry) : Parser Unit := do
  if (← enter e).isNone then problem .expectedExpression none

/-- `atom ('^' unary)?`, where the atom may have been read already. -/
def power (enter : Enter) (operand : Option Closed) : Parser (Option Closed) := do
  let base ← match operand with
    | some c => pure (some c)
    | none => atom enter
  match base with
  | none => return none
  | some lhs =>
    if !(← isAtOneOf .power) then return some lhs
    let o ← precede lhs
    let _ ← single .binaryOperator
    operandOf enter .unary
    return some (← complete o .binaryExpression)

/-- `operator unary | power`, where the atom of the power may have been read already. -/
def unary (enter : Enter) (operand : Option Closed) : Parser (Option Closed) := do
  if operand.isSome then power enter operand
  else if !(← isAtOneOf .unaryOperators) then power enter none
  else
    let o ← start
    let _ ← single .unaryOperator
    operandOf enter .unary
    return some (← complete o .unaryExpression)

/-- An operation of the given levels, where the leftmost atom may have been read already. -/
def operation (enter : Enter) : List Level → Option Closed → Parser (Option Closed)
  | [], operand => unary enter operand
  | level :: tighter, operand => do
    match ← operation enter tighter operand with
    | none => return none
    | some lhs =>
      let whole ← loop lhs fun lhs => do
        if !(← isAtOneOf level.operators) then return .done lhs
        let o ← precede lhs
        let _ ← single .binaryOperator
        let rhs ← match level.assoc with
          | .left => operation enter tighter none
          | .right => enter (.operation (level :: tighter) none)
        if rhs.isNone then problem .expectedExpression none
        let whole ← complete o .binaryExpression
        if rhs.isNone || level.assoc = .right then return .done whole
        return .again whole
      return some whole

end LuaTree.Production

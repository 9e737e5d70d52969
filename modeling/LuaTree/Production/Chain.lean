import LuaTree.Production.Table

/-!
# Production/Chain — names and parentheses with what is appended to them

A chain begins with a name or an expression in parentheses and goes on with fields, methods, indices
and arguments. Each suffix wraps what was read before it, so the outermost node is that of the last.
-/

namespace LuaTree.Production

open LuaTree.Parser

/-- Whether the arguments of a call begin here. -/
def atArguments : Parser Bool := do
  match ← peek with
  | .parenOpen | .braceOpen => return true
  | k => return KindSet.strings.contains k

/-- `'(' expressions? ')'`, a table, or a string. -/
def arguments (enter : Enter) : Parser Unit := do
  let o ← start
  let k ← peek
  if k = .braceOpen then
    let _ ← table enter
  else if k ∈ KindSet.strings then
    let _ ← single .stringLiteral
  else
    let opened ← currentSpan
    let _ ← expect .parenOpen
    if !(← isAt .parenClose) then
      let _ ← expressionList enter
    let _ ← expectClosing .parenClose "argument list opened here" opened
  finish o .argumentList

/-- `'(' expression ')'` -/
def paren (enter : Enter) : Parser Closed := do
  let o ← start
  let opened ← currentSpan
  bump
  expectExpression enter
  let _ ← expectClosing .parenClose "'(' opened here" opened
  complete o .parenExpression

/-- One suffix. A method has to be called at once. -/
def suffixRound (enter : Enter) (chain : Closed) : Parser (Round Closed Closed) := do
  match ← peek with
  | .dot =>
    let o ← precede chain
    bump
    let _ ← expect .ident
    return .again (← complete o .indexExpression)
  | .colon =>
    let o ← precede chain
    bump
    let named ← expect .ident
    let method ← complete o .indexExpression
    if named then
      if !(← atArguments) then problem .expectedToken (some "arguments")
    return .again method
  | .bracketOpen =>
    let o ← precede chain
    let opened ← currentSpan
    bump
    expectExpression enter
    let _ ← expectClosing .bracketClose "index opened here" opened
    return .again (← complete o .indexExpression)
  | _ =>
    if ← atArguments then
      let o ← precede chain
      arguments enter
      return .again (← complete o .callExpression)
    else return .done chain

/-- A chain; `none` if none begins here. -/
def chain (enter : Enter) : Parser (Option Closed) := do
  match ← peek with
  | .ident => return some (← loop (← nameRef) (suffixRound enter))
  | .parenOpen => return some (← loop (← paren enter) (suffixRound enter))
  | _ => return none

end LuaTree.Production

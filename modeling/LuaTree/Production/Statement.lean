import LuaTree.Production.Chain
import LuaTree.Production.Function

/-!
# Production/Statement — statements

The first token of a statement decides what it is, except that a name or a parenthesis may begin a
call, an assignment or a bare expression; for these the leading chain is read once and what follows
it decides.
-/

namespace LuaTree.Production

open LuaTree.Parser

def isAtEither (a b : Kind) : Parser Bool := do
  if ← isAt a then return true
  isAt b

/-- `'do' block 'end'` -/
def doStatement (enter : Enter) : Parser Unit := do
  let o ← start
  let keyword ← currentSpan
  bump
  block enter
  let _ ← expectClosing .kwEnd "'do' block started here" keyword
  finish o .doStatement

/-- `'while' expression 'do' block 'end'` -/
def whileStatement (enter : Enter) : Parser Unit := do
  let o ← start
  let keyword ← currentSpan
  bump
  expectExpression enter
  let _ ← expect .kwDo
  block enter
  let _ ← expectClosing .kwEnd "'while' loop started here" keyword
  finish o .whileStatement

/-- `'repeat' block 'until' expression` -/
def repeatStatement (enter : Enter) : Parser Unit := do
  let o ← start
  let keyword ← currentSpan
  bump
  block enter
  if ← expectClosing .kwUntil "'repeat' loop started here" keyword then expectExpression enter
  finish o .repeatStatement

/-- `('elseif' expression 'then' block)*` -/
def elseifBranches (enter : Enter) : Parser Unit :=
  loop () fun _ => do
    if !(← isAt .kwElseif) then return .done ()
    let o ← start
    bump
    expectExpression enter
    let _ ← expect .kwThen
    block enter
    finish o .elseifBranch
    return .again ()

/-- `'if' expression 'then' block elseifs ('else' block)? 'end'` -/
def ifStatement (enter : Enter) : Parser Unit := do
  let o ← start
  let keyword ← currentSpan
  bump
  expectExpression enter
  let _ ← expect .kwThen
  let thenBranch ← start
  block enter
  finish thenBranch .thenBranch
  elseifBranches enter
  if ← isAt .kwElse then
    let elseBranch ← start
    bump
    block enter
    finish elseBranch .elseBranch
  let _ ← expectClosing .kwEnd "'if' statement started here" keyword
  finish o .ifStatement

/-- `name (',' name)*`; the answer is the number of names. -/
def names : Parser Nat := do
  if !(← isAt .ident) then
    let _ ← expect .ident
    return 0
  name
  loop 1 fun count => do
    if !(← eat .comma) then return .done count
    if !(← isAt .ident) then
      let _ ← expect .ident
      return .done count
    name
    return .again (count + 1)

/-- `'for' names 'in' expressions 'do' block 'end'` if there is more than one name or `in` follows,
else `'for' name '=' expression ',' expression (',' expression)? 'do' block 'end'`. -/
def forStatement (enter : Enter) : Parser Unit := do
  let o ← start
  let keyword ← currentSpan
  bump
  let list ← start
  let count ← names
  let ranges ← if 1 < count then pure true else isAt .kwIn
  if ranges then
    finish list .nameList
    let _ ← expect .kwIn
    expectExpressionList enter
  else
    abandon list
    let _ ← expect .equals
    expectExpression enter
    let _ ← expect .comma
    expectExpression enter
    if ← eat .comma then expectExpression enter
  let _ ← expect .kwDo
  block enter
  let _ ← expectClosing .kwEnd "'for' loop started here" keyword
  finish o (if ranges then .rangeForStatement else .simpleForStatement)

/-- `name`, or `name ('.' name)* (':' name)?` as a path into an existing table. -/
def functionName : Parser Unit := do
  let o ← start
  if !(← isAt .ident) then
    let _ ← expect .ident
  else
    match ← peekAt 1 with
    | .dot | .colon =>
      let _ ← nameRef
    | _ => name
    loop () fun _ => do
      if !(← eat .dot) then return .done ()
      let _ ← expect .ident
      return .again ()
    if ← eat .colon then
      let _ ← expect .ident
  finish o .functionName

/-- `'function' functionName functionBody` -/
def functionStatement (enter : Enter) : Parser Unit := do
  let o ← start
  let keyword ← currentSpan
  bump
  functionName
  functionBody enter keyword
  finish o .functionDefinitionStatement

/-- `'local' 'function' name functionBody`, or `'local' names ('=' expressions)?`. -/
def localStatement (enter : Enter) : Parser Unit := do
  let o ← start
  let keyword ← currentSpan
  bump
  if ← eat .kwFunction then
    if ← isAt .ident then name
    else
      let _ ← expect .ident
    functionBody enter keyword
    finish o .localFunctionStatement
  else
    let list ← start
    let _ ← names
    finish list .nameList
    if ← eat .equals then expectExpressionList enter
    finish o .localNameStatement

/-- `'return' expressions? ';'?` -/
def returnStatement (enter : Enter) : Parser Unit := do
  let o ← start
  bump
  let _ ← expressionList enter
  let _ ← eat .semicolon
  finish o .returnStatement

/-- `'break'` -/
def breakStatement : Parser Unit := do
  let o ← start
  bump
  finish o .breakStatement

/-- `'goto' name` -/
def gotoStatement : Parser Unit := do
  let o ← start
  bump
  let _ ← expect .ident
  finish o .gotoStatement

/-- `'::' name '::'` -/
def labelStatement : Parser Unit := do
  let o ← start
  bump
  let _ ← expect .ident
  let _ ← expect .doubleColon
  finish o .labelStatement

/-- Wraps a chain as the target of an assignment; a call cannot be one. -/
def assignee (c : Closed) : Parser Unit := do
  if c.kind = .callExpression then
    report ⟨.invalidAssignmentTarget, ← spanSince c.snapshot, none, []⟩
  finish (← precede c) .var

/-- `(',' chain)*` -/
def moreVariables (enter : Enter) : Parser Unit :=
  loop () fun _ => do
    if !(← eat .comma) then return .done ()
    match ← chain enter with
    | some c =>
      assignee c
      return .again ()
    | none =>
      let _ ← expect .ident
      return .done ()

/-- `chain moreVariables '=' expressions`, where the first chain has been read. -/
def assignment (enter : Enter) (whole list : Opening) (first : Closed) : Parser Unit := do
  assignee first
  moreVariables enter
  finish list .variableList
  let _ ← expect .equals
  expectExpressionList enter
  finish whole .assignmentStatement

/-- Expressions that form no statement, where a first chain may have been read. -/
def bareExpression (enter : Enter) (whole list : Opening) (first : Option Closed) :
    Parser Unit := do
  if (← expression enter first).isNone then problem .expectedExpression none
  moreExpressions enter
  let list ← complete list .expressionList
  report ⟨.bareExpression, ← spanSince list.snapshot, none, []⟩
  finish whole .expressionStatement

/-- A call, an assignment or a bare expression. A chain that ends in a call is a statement unless
`=` or `,` follows; `=` and `,` make any chain the first target of an assignment. -/
def chainStatement (enter : Enter) : Parser Unit := do
  let whole ← start
  let list ← start
  let first ← chain enter
  match first with
  | none => bareExpression enter whole list none
  | some c =>
    if c.kind = .callExpression then
      if !(← isAtEither .equals .comma) then
        abandon list
        finish whole .callStatement
        return
    if ← isAtEither .equals .comma then assignment enter whole list c
    else if (← read).settings.bare = .requireAssignment then assignment enter whole list c
    else bareExpression enter whole list first

/-- One statement; false if none begins here. -/
def statement (enter : Enter) : Parser Bool := do
  match ← peek with
  | .kwDo => doStatement enter
  | .kwWhile => whileStatement enter
  | .kwRepeat => repeatStatement enter
  | .kwIf => ifStatement enter
  | .kwFor => forStatement enter
  | .kwFunction => functionStatement enter
  | .kwLocal => localStatement enter
  | .kwBreak => breakStatement
  | .kwReturn => returnStatement enter
  | .kwGoto => gotoStatement
  | .doubleColon => labelStatement
  | .ident | .parenOpen => chainStatement enter
  | _ => return false
  return true

/-- Statements and semicolons, up to what begins no statement or just after a `return`. -/
def statements (enter : Enter) : Parser Unit :=
  loop () fun _ => do
    if ← eat .semicolon then return .again ()
    let last ← isAt .kwReturn
    if !(← statement enter) || last then return .done ()
    return .again ()

end LuaTree.Production

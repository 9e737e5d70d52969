import LuaTree.Production.Chunk

/-!
# Proofs/Parts — parts of productions that are spoken of by themselves

A round of a loop, or what several ways through a production end with: a loop over names goes on in one
of two ways, and both end with the same block; the path in the name of a function begins behind either
of two kinds of names.  What is proved of such a part is proved once.
-/

namespace LuaTree.Production

open LuaTree.Parser

/-! ## Tables and operations -/

/-- The separator behind a field, or behind one that is missing. -/
def fieldSeparator : Parser (Round Unit Unit) := do
  if !(← isAtOneOf .fieldSeparators) then return .done ()
  let _ ← single .tableFieldSeparator
  return .again ()

/-- One operator of a level, and the operand on its right. -/
def levelRound (enter : Enter) (level : Level) (tighter : List Level) (lhs : Closed) :
    Parser (Round Closed Closed) := do
  if !(← isAtOneOf level.operators) then return .done lhs
  let o ← precede lhs
  let _ ← single .binaryOperator
  let rhs ← match level.assoc with
    | .left => operation enter tighter none
    | .right => enter (.operation (level :: tighter) none)
  if rhs.isNone then problem .expectedExpression none
  let whole ← complete o .binaryExpression
  if rhs.isNone || level.assoc = .right then return .done whole
  return .again whole

theorem operation_cons {enter : Enter} {level : Level} {tighter : List Level} {operand : Option Closed} :
    operation enter (level :: tighter) operand = (do
      match ← operation enter tighter operand with
      | none => return none
      | some lhs => return some (← loop lhs (levelRound enter level tighter))) :=
  rfl

/-- Where operators are grouped to the left, an operand on the right is of the tighter levels; else it is an
operation of the same level, which is entered. -/
def rightOperand (enter : Enter) (level : Level) (tighter : List Level) : Parser (Option Closed) :=
  match level.assoc with
  | .left => operation enter tighter none
  | .right => enter (.operation (level :: tighter) none)

/-- What an operation ends with, behind its operand on the right or where that is missing. -/
def levelEnd (level : Level) (o : Opening) (rhs : Option Closed) : Parser (Round Closed Closed) := do
  if rhs.isNone then problem .expectedExpression none
  let whole ← complete o .binaryExpression
  if rhs.isNone || level.assoc = .right then return .done whole
  return .again whole

theorem levelRound_eq (enter : Enter) (level : Level) (tighter : List Level) (lhs : Closed) :
    levelRound enter level tighter lhs = (do
      if !(← isAtOneOf level.operators) then return .done lhs
      let o ← precede lhs
      let _ ← single .binaryOperator
      let rhs ← rightOperand enter level tighter
      levelEnd level o rhs) := by
  unfold levelRound rightOperand levelEnd
  cases level.assoc <;> rfl

/-! ## Loops over names -/

/-- The block of a loop and what closes it. -/
def loopBody (enter : Enter) (o : Opening) (keyword : Span) (kind : Kind) : Parser Unit := do
  let _ ← expect .kwDo
  block enter
  let _ ← expectClosing .kwEnd "'for' loop started here" keyword
  finish o kind

/-- A loop over the values of expressions, behind its names. -/
def rangeFor (enter : Enter) (o list : Opening) (keyword : Span) : Parser Unit := do
  finish list .nameList
  let _ ← expect .kwIn
  expectExpressionList enter
  loopBody enter o keyword .rangeForStatement

/-- A loop over numbers, behind its name. -/
def simpleFor (enter : Enter) (o list : Opening) (keyword : Span) : Parser Unit := do
  abandon list
  let _ ← expect .equals
  expectExpression enter
  let _ ← expect .comma
  expectExpression enter
  if ← eat .comma then expectExpression enter
  loopBody enter o keyword .simpleForStatement

theorem forStatement_eq (enter : Enter) : forStatement enter = (do
    let o ← start
    let keyword ← currentSpan
    bump
    let list ← start
    let count ← names
    let ranges ← if 1 < count then pure true else isAt .kwIn
    if ranges then rangeFor enter o list keyword else simpleFor enter o list keyword) := by
  rw [forStatement]
  refine bind_congr fun o => bind_congr fun keyword => bind_congr fun _ => bind_congr fun list =>
    bind_congr fun count => ?_
  have hranges (ranges : Bool) : (do
      if ranges then
        finish list .nameList
        let _ ← expect .kwIn
        expectExpressionList enter
      else
        abandon list
        let _ ← expect .equals
        expectExpression enter
        let _ ← expect .comma
        expectExpression enter
        if ← eat .comma then expectExpression enter
      loopBody enter o keyword (if ranges then .rangeForStatement else .simpleForStatement)) =
      if ranges then rangeFor enter o list keyword else simpleFor enter o list keyword := by
    cases ranges with
    | true => rw [if_pos rfl, rangeFor]; rfl
    | false => rw [if_neg Bool.false_ne_true, simpleFor]; rfl
  split
  · exact hranges true
  · exact bind_congr hranges

/-! ## Names of functions -/

/-- The names behind the first one in the name of a function, of which only the last may name a method. -/
def pathEnd (o : Opening) : Parser Unit := do
  loop () fun _ => do
    if !(← eat .dot) then return .done ()
    let _ ← expect .ident
    return .again ()
  if ← eat .colon then
    let _ ← expect .ident
  finish o .functionName

/-! ## Calls, assignments and bare expressions -/

/-- What ends a row of expressions that form no statement, behind the first of them. -/
def bareEnd (enter : Enter) (whole list : Opening) : Parser Unit := do
  moreExpressions enter
  let list ← complete list .expressionList
  report ⟨.bareExpression, ← spanSince list.snapshot, none, []⟩
  finish whole .expressionStatement

/-- What a leading chain turns into where it is no call by itself. -/
def afterChain (enter : Enter) (whole list : Opening) (c : Closed) : Parser Unit := do
  if ← isAtEither .equals .comma then assignment enter whole list c
  else if (← read).settings.bare = .requireAssignment then assignment enter whole list c
  else bareExpression enter whole list (some c)

/-! ## Lists of statements and whole sources -/

/-- One round of a list of statements: a semicolon, a statement, or a `return` that comes last. -/
def statementRound (enter : Enter) : Parser (Round Unit Unit) := do
  if ← eat .semicolon then return .again ()
  let last ← isAt .kwReturn
  if !(← statement enter) || last then return .done ()
  return .again ()

theorem statements_eq (enter : Enter) : statements enter = loop () fun _ => statementRound enter := rfl

/-- A round of what the block has left over: a statement or a token that begins none. -/
def garbageRound (enter : Enter) : Parser (Round Unit Unit) := do
  if ← isAtEnd then return .done ()
  if ← isAtOneOf .salvageFirst then
    if ← statement enter then return .again ()
  bump
  return .again ()

/-- What the block has left over, if anything. -/
def leftovers (enter : Enter) : Parser Unit := do
  if !(← isAtEnd) then garbage enter

theorem chunk_eq : chunk = (do
    let enter := Production.enter (← read).bound
    let o ← start
    wrapUnknown
    block enter
    leftovers enter
    finish o .chunk) := by
  refine bind_congr fun i => bind_congr fun o => bind_congr fun _ => bind_congr fun _ => ?_
  rw [leftovers, bind_assoc]
  refine bind_congr fun b => ?_
  cases b with
  | true => exact (pure_bind () fun _ => finish o .chunk).symm
  | false => rfl

end LuaTree.Production

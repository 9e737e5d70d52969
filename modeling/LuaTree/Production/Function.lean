import LuaTree.Production.Entry

/-!
# Production/Function — parameters and bodies of functions
-/

namespace LuaTree.Production

open LuaTree.Parser

/-- A parameter and the comma behind it; `...` is the last one. -/
def parameterRound : Parser (Round Unit Unit) := do
  match ← peek with
  | .ident => name
  | .ellipsis =>
    bump
    return .done ()
  | _ => return .done ()
  if !(← isAt .comma) then return .done ()
  bump
  match ← peek with
  | .ident | .ellipsis => return .again ()
  | _ =>
    let _ ← expect .ident
    return .done ()

/-- `'(' (name (',' name)* (',' '...')? | '...')? ')'` -/
def parameterList : Parser Unit := do
  let o ← start
  let opened ← currentSpan
  if ← expect .parenOpen then
    loop () fun _ => parameterRound
    let _ ← expectClosing .parenClose "parameter list opened here" opened
  finish o .parameterList

/-- `parameters block 'end'`, of a function that began at `keyword`. -/
def functionBody (enter : Enter) (keyword : Span) : Parser Unit := do
  let o ← start
  parameterList
  block enter
  let _ ← expectClosing .kwEnd "function started here" keyword
  finish o .functionBody

/-- `'function' body` -/
def functionExpression (enter : Enter) : Parser Closed := do
  require .kwFunction
  let o ← start
  let keyword ← currentSpan
  bump
  functionBody enter keyword
  complete o .functionExpression

end LuaTree.Production

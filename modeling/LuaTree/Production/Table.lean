import LuaTree.Production.Entry

/-!
# Production/Table — table constructors

A name begins a named field only if `=` follows it. To find out, the name is consumed, and given
back if it turns out to begin an expression.
-/

namespace LuaTree.Production

open LuaTree.Parser

/-- `expression` as a field; false if no expression begins here. -/
def positionalField (enter : Enter) : Parser Bool := do
  let o ← start
  if (← expression enter none).isNone then
    abandon o
    return false
  finish o .tableField
  return true

/-- `name '=' expression`, `'[' expression ']' '=' expression`, or `expression`; false if none of
them begins here. -/
def field (enter : Enter) : Parser Bool := do
  let o ← start
  match ← peek with
  | .ident =>
    bump
    if ← eat .equals then
      expectExpression enter
      finish o .tableField
      return true
    rollback o
    positionalField enter
  | .bracketOpen =>
    let opened ← currentSpan
    bump
    expectExpression enter
    let _ ← expectClosing .bracketClose "key opened here" opened
    let _ ← expect .equals
    expectExpression enter
    finish o .tableField
    return true
  | _ =>
    abandon o
    positionalField enter

/-- A field and the separator behind it. A separator without a field is reported and consumed. -/
def fieldRound (enter : Enter) : Parser (Round Unit Unit) := do
  if ← isAt .braceClose then return .done ()
  if ← isAtEnd then return .done ()
  if !(← field enter) then
    if !(← isAtOneOf .fieldSeparators) then return .done ()
    problem .expectedExpression none
  if !(← isAtOneOf .fieldSeparators) then return .done ()
  let _ ← single .tableFieldSeparator
  return .again ()

/-- `'\x7b' (field separator)* field? '\x7d'` -/
def table (enter : Enter) : Parser Closed := do
  require .braceOpen
  let o ← start
  let opened ← currentSpan
  bump
  loop () fun _ => fieldRound enter
  let _ ← expectClosing .braceClose "table opened here" opened
  complete o .tableExpression

end LuaTree.Production

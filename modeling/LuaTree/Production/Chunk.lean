import LuaTree.Production.Operation
import LuaTree.Production.Statement

/-!
# Production/Chunk — whole sources

A chunk is a block and, if that leaves something over, one node with the rest, in which whatever
looks like a statement is read as one. Here the recursion of the counted productions is tied.
-/

namespace LuaTree.Production

open LuaTree.Parser

/-- Enters a counted production, at most `n` levels deep. -/
def enter : Nat → Enter
  | 0, _ => throw .exhausted
  | n + 1, e =>
    nested <|
      match e with
      | .operation levels operand => operation (enter n) levels operand
      | .unary => unary (enter n) none
      | .statements => do
        statements (enter n)
        return none

/-- What the block has left over: at least one token. -/
def garbage (enter : Enter) : Parser Unit := do
  let o ← start
  problem .expectedStatement none
  loop () fun _ => do
    if ← isAtEnd then return .done ()
    if ← isAtOneOf .salvageFirst then
      if ← statement enter then return .again ()
    bump
    return .again ()
  finish o .garbage

/-- `block garbage?` -/
def chunk : Parser Unit := do
  let enter := enter (← read).bound
  let o ← start
  wrapUnknown
  block enter
  if !(← isAtEnd) then garbage enter
  finish o .chunk

end LuaTree.Production

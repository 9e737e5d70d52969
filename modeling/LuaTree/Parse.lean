import LuaTree.Production.Chunk
import LuaTree.Token.Lex

/-!
# Parse — from a source to its tree and its diagnostics

Every source has a tree that covers all of its bytes; whatever is wrong with it is told by the
diagnostics, in the order in which it was found.
-/

namespace LuaTree

/-- The tree of a source, and what is wrong with it. -/
structure Parse where
  tree : Tree
  /-- In the order in which they were found. -/
  diagnostics : List Diagnostic

namespace Parse

/-- Whether there are no errors. -/
def isValid (p : Parse) : Bool := !p.diagnostics.any Diagnostic.isError

end Parse

namespace Parser

/-- Reports the block comments that have no closing mark. -/
def reportUnfinishedComments : List Token → Parser Unit
  | [] => return
  | t :: ts => do
    match Token.closesComment? t.kind t.text.toList with
    | some true => pure ()
    | some false => emit ⟨.unfinishedComment, t.span, none, []⟩
    | none => throw (.unreadable t.kind)
    reportUnfinishedComments ts

/-- Reads all tokens and records the events of the tree. -/
def whole : Parser Unit := do
  reportUnfinishedComments (← read).tokens
  Production.chunk

end Parser

/-- The parse of the tokens of a source of `size` bytes. -/
def parseTokens (tokens : List Token) (size : Nat) (settings : Settings) : Except Fault Parse := do
  let (_, final) ← (Parser.whole.run (.ofTokens tokens size settings)).run (.initial tokens)
  let tree ← Tree.ofEvents tokens final.events
  if tree.size ≠ size then throw (.lostText tree.size size)
  return ⟨tree, final.diagnostics.toList⟩

/-- **The parse of a source.** -/
def parse (source : String) (settings : Settings) : Except Fault Parse :=
  parseTokens (lex source) source.utf8ByteSize settings

end LuaTree

import LuaTree.Kind

/-!
# Fault — what can only go wrong inside the parser

Whatever a source holds, reading it ends with a tree and diagnostics. A fault says that the parser
has broken one of its own rules, or was given tokens that are no pieces of the source.
-/

namespace LuaTree

inductive Fault where
  /-- Too many looks at the coming tokens without consuming one. -/
  | stuck
  /-- More rounds or more nesting than there are tokens. -/
  | exhausted
  /-- A token was to be consumed at the end of the input. -/
  | pastEnd
  /-- A production was entered at another kind of token than its own. -/
  | unexpected (expected found : Kind)
  /-- The event is not the opening of a node. -/
  | notAnOpening (event : Nat)
  /-- The closings do not match the openings, or there is not exactly one root. -/
  | unbalanced
  /-- An event names a token that does not exist. -/
  | missingToken
  /-- A span would end before it starts. -/
  | inverted (start stop : Nat)
  /-- A string or comment is too short for its opening mark. -/
  | unreadable (kind : Kind)
  /-- The tree has more or fewer bytes than the source. -/
  | lostText (found expected : Nat)
  /-- A diagnostic concerns no piece of the source. -/
  | offSource
  deriving DecidableEq

end LuaTree

import LuaTree.Diagnostic
import LuaTree.Event
import LuaTree.KindSet

/-!
# Parser/State — what the parser knows while it reads

The parser reads the significant tokens of `rest` and records events and diagnostics. It never looks
at the tree: an opening is remembered by the number of its event, together with a snapshot of all
that has to be restored when everything since then is given up.
-/

namespace LuaTree

/-- What becomes of a statement that is only an expression. -/
inductive BareExpressions where
  /-- It is kept as a statement of its own kind, and reported. -/
  | keep
  /-- It is read as an assignment whose `=` is missing. -/
  | requireAssignment
  deriving DecidableEq

/-- What the caller of the parser may choose. -/
structure Settings where
  /-- How deep the input may nest. -/
  limit : Option Nat
  bare : BareExpressions
  deriving DecidableEq

/-- Nesting up to 128, and bare expressions kept. -/
def Settings.standard : Settings := ⟨some 128, .keep⟩

/-- What stays the same during one parse. -/
structure Input where
  tokens : List Token
  /-- The number of bytes of the source. -/
  size : Nat
  settings : Settings
  /-- More than the rounds of any loop and the levels of any nesting. -/
  bound : Nat

def Input.ofTokens (tokens : List Token) (size : Nat) (settings : Settings) : Input :=
  ⟨tokens, size, settings, tokens.length + 1⟩

/-- What changes during one parse. -/
structure State where
  /-- The number of tokens in front of `rest`. -/
  position : Nat
  /-- The tokens that have not been consumed; trivia may come first. -/
  rest : List Token
  events : Array Event
  diagnostics : Array Diagnostic
  /-- The number of counted productions that the parser is in. -/
  depth : Nat
  /-- How often the parser may look at the coming tokens before it has to make progress. -/
  looks : Nat
  /-- The offset of the last diagnostic. -/
  lastReported : Option Nat
  /-- Whether the nesting limit has put an end to the reading. -/
  limitReached : Bool

/-- The looks that progress allows. -/
def State.maxLooks : Nat := 256

def State.initial (tokens : List Token) : State :=
  { position := 0, rest := tokens, events := #[], diagnostics := #[], depth := 0,
    looks := maxLooks, lastReported := none, limitReached := false }

/-- What is restored when everything since a moment is given up. -/
structure Snapshot where
  position : Nat
  rest : List Token
  /-- The number of events. -/
  events : Nat
  /-- The number of diagnostics. -/
  diagnostics : Nat
  lastReported : Option Nat
  limitReached : Bool

def State.snapshot (s : State) : Snapshot :=
  ⟨s.position, s.rest, s.events.size, s.diagnostics.size, s.lastReported, s.limitReached⟩

/-- The state as it was, except for the depth, and with all looks allowed again. -/
def State.restore (s : State) (old : Snapshot) : State :=
  { s with
    position := old.position
    rest := old.rest
    events := s.events.take old.events
    diagnostics := s.diagnostics.take old.diagnostics
    looks := maxLooks
    lastReported := old.lastReported
    limitReached := old.limitReached }

/-- A node that has been opened. -/
structure Opening where
  event : Nat
  snapshot : Snapshot

/-- A node that has been closed. -/
structure Closed where
  event : Nat
  kind : Kind
  snapshot : Snapshot

/-- A computation that reads tokens and records events. -/
abbrev Parser := ReaderT Input (StateT State (Except Fault))

end LuaTree

import LuaTree.Fault
import LuaTree.Tree

/-!
# Event — a tree as the record of how it was read

The parser records when a node opens, which token is read and when a node closes. A node may be
wrapped after it has closed: its opening then holds the distance to a later opening, that of the
node around it. `Tree.ofEvents` replays the record into a tree. Wrapping nodes are opened together
with the node they wrap, outermost first; trivia is placed in front of the node or token that
follows it, outside of a node that opens there, and what is left goes to the root.
-/

namespace LuaTree

/-- One step in the reading of a tree. -/
inductive Event where
  /-- A node opens; `wrapper` is the distance to the opening of the node around it. -/
  | opening (kind : Kind) (wrapper : Option Nat)
  /-- The token with this number is read. -/
  | token (index : Nat)
  /-- The innermost open node closes. -/
  | closing
  deriving DecidableEq

/-- The opening of no node: one whose kind is not known yet, or that was given up. -/
def Event.blank : Event := .opening .tombstone none

/-- A tree under construction. -/
structure Builder where
  /-- The record, with blanks for the openings that have been used already. -/
  events : Array Event
  /-- The tokens that are not in the tree yet. -/
  pending : List Token
  /-- The number of tokens that are in the tree. -/
  placed : Nat
  /-- The open nodes, innermost first, each with its children, last first. -/
  unclosed : List (Kind × List Tree)
  /-- The trees that stand in no node, last first. -/
  roots : List Tree

namespace Builder

/-- Adds a child to the innermost open node. -/
def add (t : Tree) (b : Builder) : Builder :=
  match b.unclosed with
  | [] => { b with roots := t :: b.roots }
  | (k, ts) :: outer => { b with unclosed := (k, t :: ts) :: outer }

/-- Places the next tokens. -/
def place : Nat → Builder → Except Fault Builder
  | 0, b => pure b
  | n + 1, b =>
    match b.pending with
    | [] => throw .missingToken
    | t :: ts =>
      place n (add (.leaf t.kind t.text) { b with pending := ts, placed := b.placed + 1 })

/-- Opens nodes, the outermost first. -/
def openAll (kinds : List Kind) (b : Builder) : Builder :=
  { b with unclosed := kinds.foldl (fun outer k => (k, []) :: outer) b.unclosed }

/-- Closes the innermost open node. -/
def close (b : Builder) : Except Fault Builder :=
  match b.unclosed with
  | [] => throw .unbalanced
  | (k, ts) :: outer => pure (add (.node k ts.reverse) { b with unclosed := outer })

/-- The kinds of the nodes that wrap the node opened at `origin`, outermost first and in front of
`found`, and the record without their openings. -/
def wrappers : Nat → Array Event → Nat → Option Nat → List Kind →
    Except Fault (List Kind × Array Event)
  | _, events, _, none, found => pure (found, events)
  | 0, _, _, some _, _ => throw .exhausted
  | n + 1, events, origin, some distance, found =>
    match events[origin + distance]? with
    | some (.opening kind wrapper) =>
      wrappers n (events.setIfInBounds (origin + distance) .blank) (origin + distance) wrapper
        (if kind = .tombstone then found else kind :: found)
    | _ => throw (.notAnOpening (origin + distance))

/-- Replays the event with a number. -/
def step (b : Builder) (i : Nat) : Except Fault Builder :=
  match b.events[i]? with
  | none => pure b
  | some (.opening .tombstone _) => pure b
  | some (.opening kind wrapper) => do
    let (kinds, events) ←
      wrappers b.events.size (b.events.setIfInBounds i .blank) i wrapper [kind]
    let trivia := if b.unclosed.isEmpty then 0
      else (b.pending.takeWhile (·.kind.isTrivia)).length
    return openAll kinds (← place trivia { b with events })
  | some (.token index) => place (index + 1 - b.placed) b
  | some .closing =>
    match b.unclosed with
    | [_] => do close (← place b.pending.length b)
    | _ => close b

end Builder

/-- **The tree that a record of events describes.** -/
def Tree.ofEvents (tokens : List Token) (events : Array Event) : Except Fault Tree := do
  let start : Builder := ⟨events, tokens, 0, [], []⟩
  let b ← (List.range events.size).foldlM Builder.step start
  match b.unclosed, b.roots with
  | [], [.node k cs] => return .node k cs
  | _, _ => throw .unbalanced

end LuaTree

import LuaTree.Tree

/-!
# Typed/Node — nodes whose kind is known

`Node k` is a node of kind `k` of a tree that may have been recovered from broken input. What such a
node is made of is found among its children by their kind, so every answer is optional: recovery may
have left the piece out.
-/

namespace LuaTree

/-- A node of kind `k`, by the offset where it starts and its children. -/
structure Node (k : Kind) where
  start : Nat
  children : List Tree

/-- The part as a node of a kind, if it is one. -/
def Located.as? (l : Located) (k : Kind) : Option (Node k) :=
  match l.tree with
  | .leaf .. => none
  | .node kind children => if kind = k then some ⟨l.start, children⟩ else none

namespace Node

variable {k : Kind}

def located (n : Node k) : Located := ⟨n.start, .node k n.children⟩

def span (n : Node k) : Span := Span.ofLength n.start (Tree.sizeOfList n.children)

@[simp] theorem as?_located (n : Node k) : n.located.as? k = some n := by
  simp [located, Located.as?]

/-- The children with their offsets. -/
def parts (n : Node k) : List Located := Located.row n.start n.children

/-- The children of a kind. -/
def childrenAs (n : Node k) (kind : Kind) : List (Node kind) := n.parts.filterMap (·.as? kind)

/-- The first child of a kind. -/
def childAs? (n : Node k) (kind : Kind) : Option (Node kind) := n.parts.findSome? (·.as? kind)

/-- The leaves among the children. -/
def tokens (n : Node k) : List Token := n.parts.filterMap Located.token?

/-- The first leaf of a kind among the children. -/
def token? (n : Node k) (kind : Kind) : Option Token := n.tokens.find? (·.kind == kind)

/-- Whether there is a leaf of a kind among the children. -/
def hasToken (n : Node k) (kind : Kind) : Bool := (n.token? kind).isSome

/-- The first leaf among the children that is no trivia. -/
def firstToken? (n : Node k) : Option Token := n.tokens.find? fun t => !t.kind.isTrivia

end Node

end LuaTree

import LuaTree.Kind
import LuaTree.Text.Span
import LuaTree.Token

/-!
# Tree — lossless trees over the tokens of a source

Every byte of a source is in exactly one leaf, so the text of a tree is the source again and offsets
need not be stored: a part of a tree starts where the parts before it end. `Located` pairs a part
with the offset where it starts.
-/

namespace LuaTree

/-- A tree whose leaves are tokens. -/
inductive Tree where
  | leaf (kind : Kind) (text : String)
  | node (kind : Kind) (children : List Tree)

namespace Tree

def kind : Tree → Kind
  | leaf k _ => k
  | node k _ => k

def isLeaf : Tree → Bool
  | leaf .. => true
  | node .. => false

mutual

/-- The texts of the leaves, joined. -/
def text : Tree → String
  | leaf _ s => s
  | node _ cs => textOfList cs

/-- The texts of trees that stand one after the other. -/
def textOfList : List Tree → String
  | [] => ""
  | t :: ts => t.text ++ textOfList ts

end

mutual

/-- The number of bytes of the text. -/
def size : Tree → Nat
  | leaf _ s => s.utf8ByteSize
  | node _ cs => sizeOfList cs

/-- The number of bytes of trees that stand one after the other. -/
def sizeOfList : List Tree → Nat
  | [] => 0
  | t :: ts => t.size + sizeOfList ts

end

mutual

/-- The leaves from left to right. -/
def leaves : Tree → List (Kind × String)
  | leaf k s => [(k, s)]
  | node _ cs => leavesOfList cs

/-- The leaves of trees that stand one after the other. -/
def leavesOfList : List Tree → List (Kind × String)
  | [] => []
  | t :: ts => t.leaves ++ leavesOfList ts

end

mutual

theorem utf8ByteSize_text : ∀ t : Tree, t.text.utf8ByteSize = t.size
  | leaf _ _ => rfl
  | node _ cs => utf8ByteSize_textOfList cs

theorem utf8ByteSize_textOfList : ∀ ts : List Tree, (textOfList ts).utf8ByteSize = sizeOfList ts
  | [] => rfl
  | t :: ts => by
    rw [textOfList, sizeOfList, String.utf8ByteSize_append, utf8ByteSize_text t,
      utf8ByteSize_textOfList ts]

end

end Tree

/-- A part of a tree, with the byte offset where it starts. -/
structure Located where
  start : Nat
  tree : Tree

namespace Located

def kind (l : Located) : Kind := l.tree.kind

def stop (l : Located) : Nat := l.start + l.tree.size

/-- The leaf as a token. -/
def token? (l : Located) : Option Token :=
  match l.tree with
  | .leaf k s => some ⟨k, l.start, s⟩
  | .node .. => none

/-- Trees that stand one after the other, located. -/
def row (start : Nat) : List Tree → List Located
  | [] => []
  | t :: ts => ⟨start, t⟩ :: row (start + t.size) ts

mutual

/-- The nodes of a tree in preorder, located. -/
def nodesFrom (start : Nat) : Tree → List Located
  | .leaf .. => []
  | .node k cs => ⟨start, .node k cs⟩ :: nodesOfRow start cs

/-- The nodes of trees that stand one after the other. -/
def nodesOfRow (start : Nat) : List Tree → List Located
  | [] => []
  | t :: ts => nodesFrom start t ++ nodesOfRow (start + t.size) ts

end

/-- The nodes of a part, itself first, in preorder. -/
def nodes (l : Located) : List Located := nodesFrom l.start l.tree

end Located

/-- The nodes of a tree in preorder. -/
def Tree.nodes (t : Tree) : List Located := Located.nodesFrom 0 t

end LuaTree

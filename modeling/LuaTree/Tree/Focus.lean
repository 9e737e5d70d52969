import LuaTree.Tree

/-!
# Tree/Focus — a node together with everything around it

A focus is a node with the frames that enclose it, innermost first. Going up fills the innermost
frame with the node, so the ancestors of a node, and the whole tree after a change at it, can be
read off the focus alone.
-/

namespace LuaTree

/-- A node with one child taken out. -/
structure Frame where
  kind : Kind
  start : Nat
  /-- The children before the one taken out, nearest first. -/
  left : List Tree
  right : List Tree

/-- The node with the missing child put in. -/
def Frame.fill (f : Frame) (t : Tree) : Tree := .node f.kind (f.left.reverse ++ t :: f.right)

/-- A part of a tree, and the frames around it, innermost first. -/
structure Focus where
  start : Nat
  tree : Tree
  above : List Frame

namespace Focus

def located (f : Focus) : Located := ⟨f.start, f.tree⟩

def kind (f : Focus) : Kind := f.tree.kind

/-- The part and the nodes around it, innermost first. -/
def ancestorsFrom (start : Nat) (t : Tree) : List Frame → List Focus
  | [] => [⟨start, t, []⟩]
  | f :: fs => ⟨start, t, f :: fs⟩ :: ancestorsFrom f.start (f.fill t) fs

/-- The part itself and the nodes around it, innermost first. -/
def ancestors (f : Focus) : List Focus := ancestorsFrom f.start f.tree f.above

/-- The kind of the node just around the part. -/
def parentKind? (f : Focus) : Option Kind := f.above.head?.map Frame.kind

/-- The whole tree with another tree at this place. -/
def replace (f : Focus) (t : Tree) : Tree := f.above.foldl (fun t frame => frame.fill t) t

mutual

/-- The nodes of a tree in preorder, each with what is around it. -/
def allFrom (above : List Frame) (start : Nat) : Tree → List Focus
  | .leaf .. => []
  | .node k cs => ⟨start, .node k cs, above⟩ :: allOfRow above k start [] start cs

/-- The nodes of the children that begin at `offset` and have `left` before them. -/
def allOfRow (above : List Frame) (k : Kind) (start : Nat) (left : List Tree) (offset : Nat) :
    List Tree → List Focus
  | [] => []
  | t :: ts =>
    allFrom (⟨k, start, left, ts⟩ :: above) offset t ++
      allOfRow above k start (t :: left) (offset + t.size) ts

end

end Focus

/-- The nodes of a tree in preorder, each with what is around it. -/
def Tree.foci (t : Tree) : List Focus := Focus.allFrom [] 0 t

end LuaTree

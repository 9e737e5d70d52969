import LuaTree.Tree.Focus
import LuaTree.Typed.Expr

/-!
# Scope — which declaration a name refers to

Resolution is by text alone: of the nodes that open a scope around the use of a name, from the
inside out, the first one that holds a declaration of the same text decides, and the first
declaration in it is meant.
-/

namespace LuaTree

/-- The kinds of nodes that open a scope. -/
def Kind.isScope : Kind → Bool
  | .chunk | .block | .functionDefinitionStatement | .localFunctionStatement | .functionBody
  | .simpleForStatement | .rangeForStatement => true
  | _ => false

/-- The declarations in a part of a tree, in preorder. -/
def Located.declarations (l : Located) : List (Node .name) := l.nodes.filterMap (·.as? .name)

/-- The first declaration of a text in a part of a tree. -/
def Located.declarationOf? (text : String) (l : Located) : Option (Node .name) :=
  l.declarations.find? (·.declaredText == text)

/-- The declaration that the use of a name refers to. A name that an index is applied to is not
resolved. -/
def Focus.resolve? (f : Focus) : Option (Node .name) := do
  if f.parentKind? = some .indexExpression then none
  let text ← (← f.located.as? .nameRef).used?.map Token.text
  (f.ancestors.filter (·.kind.isScope)).findSome? fun scope => scope.located.declarationOf? text

end LuaTree

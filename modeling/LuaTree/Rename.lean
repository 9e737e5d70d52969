import LuaTree.Parse
import LuaTree.Tree.Focus
import LuaTree.Typed.Stmt

/-!
# Rename — giving a declaration another name

A new name is accepted if it could stand alone on the left of an assignment, so whatever is more or
less than one identifier is refused. Renaming changes one leaf and keeps all other parts of the
tree.
-/

namespace LuaTree

/-- Why a node cannot be renamed. -/
inductive RenameError where
  | invalidName (name : String)
  | notADeclaration
  deriving DecidableEq

def RenameError.message : RenameError → String
  | invalidName name => "'" ++ name ++ "' is not a valid name"
  | notADeclaration => "node is not a name declaration"

/-- The tree of a parse as a chunk. -/
def Parse.chunk? (p : Parse) : Option (Node .chunk) := (Located.mk 0 p.tree).as? .chunk

/-- The single target of the single assignment that a source consists of, if it is a name. -/
def onlyTarget? (p : Parse) : Option Token := do
  match (← (← p.chunk?).block?).statements with
  | [.assignment a] =>
    match (← a.targets?).variables with
    | [v] =>
      match v.target? with
      | some (.nameRef n) => n.used?
      | _ => none
    | _ => none
  | _ => none

/-- Whether a text is one identifier. -/
def isIdentifier (name : String) : Bool :=
  match parse (name ++ " = nil") .standard with
  | .ok p => p.isValid && (onlyTarget? p).any (·.text == name)
  | .error _ => false

namespace Tree

/-- The trees with another text in the first identifier that is a leaf. -/
def renameFirst (name : String) : List Tree → List Tree
  | [] => []
  | leaf .ident _ :: ts => leaf .ident name :: ts
  | t :: ts => t :: renameFirst name ts

end Tree

/-- The whole tree after another name has been given to a declaration. -/
def Focus.rename (f : Focus) (name : String) : Except RenameError Tree :=
  match f.located.as? .name with
  | none => throw .notADeclaration
  | some declaration =>
    if declaration.declared?.isNone then throw .notADeclaration
    else if !isIdentifier name then throw (.invalidName name)
    else return f.replace (.node .name (Tree.renameFirst name declaration.children))

end LuaTree

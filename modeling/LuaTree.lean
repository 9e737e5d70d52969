import LuaTree.Main
import LuaTree.Scope
import LuaTree.Proofs.Printing
import LuaTree.Proofs.Spacing
import LuaTree.Proofs.Grouping
import LuaTree.Proofs.Skeleton
import LuaTree.Proofs.Layout
import LuaTree.Proofs.BailOut
import LuaTree.Proofs.Need
import LuaTree.Proofs.Nesting
import LuaTree.Proofs.Nesting.Expression
import LuaTree.Proofs.Extent
import LuaTree.Proofs.Nesting.Parse
import LuaTree.Proofs.Policy
import LuaTree.Proofs.Renaming
import LuaTree.Proofs.Splitting
import LuaTree.Proofs.Accessors
import LuaTree.Proofs.Faults
import LuaTree.Proofs.Reporting
import LuaTree.Proofs.Concatenation
import LuaTree.Proofs.Leftovers
import LuaTree.Proofs.Literals
import LuaTree.Proofs.Quoting
import LuaTree.Proofs.Highlighting
import LuaTree.Proofs.Fields
import LuaTree.Proofs.Redirection
import LuaTree.Proofs.Speculation
import LuaTree.Proofs.Legibility
import LuaTree.Proofs.Bracketing
import LuaTree.Proofs.Onset
import LuaTree.Proofs.Emission

import ScriptAnalysis.Ast.Conversion
import ScriptAnalysis.Semantics.Check

/-!
# Services

Questions about the meaning of the nodes of a common tree. They are answered by the program that the
tree was made with, whatever has happened to the files since.
-/

namespace ScriptAnalysis.Session

open Semantics (Program View Symbol)

/-- What answers questions about the nodes of one common tree. -/
structure Services where
  /-- The program. -/
  program : Program
  /-- The file's own tree. -/
  tree : Syntax.Tree
  /-- The maps between the file's own tree and the common tree. -/
  maps : Ast.NodeMaps

namespace Services

/-- The file as it is seen from the program. -/
def view (s : Services) : View := .ofProgram s.program s.tree

/-- The symbol that a node names. -/
def symbolAt? (s : Services) (node : Ast.NodeId) : Option Symbol :=
  (s.maps.origin? node).bind fun origin => s.view.symbolAt? origin

/-- The type of a node. -/
def typeAt? (s : Services) (node : Ast.NodeId) : Option Ty :=
  (s.maps.origin? node).map fun origin => s.view.typeAt origin

end Services

end ScriptAnalysis.Session

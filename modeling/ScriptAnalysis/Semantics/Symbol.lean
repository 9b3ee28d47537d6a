import ScriptAnalysis.Syntax.Tree

/-!
# Symbols

A symbol is what a name stands for: something declared in a file, a name of the environment, or a
member of an object of the environment. Symbols of a file know the nodes that declare them.
-/

namespace ScriptAnalysis.Semantics

open Syntax (NodeId VariableKind)

/-- What a symbol is. -/
inductive SymbolKind where
  /-- A variable of a function: a parameter, or declared with `var`. -/
  | functionVariable
  /-- A variable of a block. -/
  | blockVariable
  /-- A constant of a block. -/
  | constant
  /-- A function. -/
  | function
  /-- A name for a type. -/
  | typeAlias
  /-- A member of an object. -/
  | property
  /-- A member of an object that is a function. -/
  | method
  deriving DecidableEq, Repr

namespace SymbolKind

/-- Whether the symbol names a type. -/
def isType : SymbolKind → Bool
  | typeAlias => true
  | _ => false

/-- Whether the symbol names a value. -/
def isValue (k : SymbolKind) : Bool := !k.isType

/-- Whether the symbol is a variable or constant of a block. -/
def isBlockScoped : SymbolKind → Bool
  | blockVariable | constant => true
  | _ => false

/-- The kind of the variables that a word declares. -/
def ofVariableKind : VariableKind → SymbolKind
  | .var => functionVariable
  | .letKind => blockVariable
  | .const => constant

end SymbolKind

/-- Which symbol it is. -/
inductive SymbolId where
  /-- A symbol of the file. -/
  | localSymbol (index : Nat)
  /-- A name of the environment. -/
  | ambient (index : Nat)
  /-- A member of an object of the environment. -/
  | member (object index : Nat)
  deriving DecidableEq, Repr

/-- What a name stands for. -/
structure Symbol where
  /-- Which symbol it is. -/
  id : SymbolId
  /-- Its name. -/
  name : String
  /-- What it is. -/
  kind : SymbolKind
  /-- The nodes that declare it, none for a symbol of the environment. -/
  declarations : List NodeId
  deriving DecidableEq, Repr

namespace Symbol

/-- The node that declares the symbol first. -/
def firstDeclaration? (s : Symbol) : Option NodeId := s.declarations.head?

end Symbol

end ScriptAnalysis.Semantics

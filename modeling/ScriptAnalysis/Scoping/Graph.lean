import ScriptAnalysis.Scoping.Options

/-!
# Scope graphs

The scopes of a program, the variables declared in them, and the references to variables. Everything
has a number, in the order of creation. Variables of one scope have different names: what declares a
name again adds a definition to its variable. A variable may stand for a value, for a type, or, by
several definitions, for both.

`ScopeGraph.chain` lists a scope and the scopes around it, and `ScopeGraph.lookup?` is the first
variable of a name along it.
-/

namespace ScriptAnalysis.Scoping

open Ast (NodeId)

/-- The number of a scope. -/
abbrev ScopeId := Nat

/-- The number of a variable. -/
abbrev VariableId := Nat

/-- The number of a reference. -/
abbrev ReferenceId := Nat

/-- What opens a scope. -/
inductive ScopeType where
  /-- The outermost scope. -/
  | global
  /-- A module. -/
  | module
  /-- A function, or a program that is the body of one. -/
  | function
  /-- A block. -/
  | block
  /-- What a type is declared as. -/
  | typeAlias
  deriving DecidableEq, Repr

namespace ScopeType

/-- The word for what opens a scope. -/
def name : ScopeType → String
  | global => "global"
  | module => "module"
  | function => "function"
  | block => "block"
  | typeAlias => "type"

/-- Whether the variables declared with `var` inside belong to the scope. -/
def isVariableScope : ScopeType → Bool
  | global | module | function => true
  | block | typeAlias => false

end ScopeType

/-- A scope. -/
structure Scope where
  /-- What opens it. -/
  type : ScopeType
  /-- The node that opens it. -/
  block : NodeId
  /-- The scope around it. -/
  upper? : Option ScopeId
  /-- The scopes directly inside it. -/
  children : List ScopeId
  /-- The scope that variables declared with `var` in it belong to. -/
  variableScope : ScopeId
  /-- Whether it is run under the strict rules. -/
  isStrict : Bool
  /-- Its variables, in the order of their first declaration. -/
  vars : List VariableId
  /-- The references that stand directly in it. -/
  references : List ReferenceId
  /-- The references from it and from inside it that none of its variables answers. -/
  through : List ReferenceId
  deriving DecidableEq, Repr

/-- As what a name is declared. -/
inductive DefinitionKind where
  /-- As a variable, by a declaration. -/
  | variableOf (declaration : NodeId)
  /-- As a parameter. -/
  | parameter
  /-- As the name of a function. -/
  | functionName
  /-- As the name of a type. -/
  | typeName
  deriving DecidableEq, Repr

/-- A place where a variable is declared. -/
structure Definition where
  /-- As what the name is declared. -/
  kind : DefinitionKind
  /-- The declared name. -/
  name : NodeId
  /-- The declarator, the function, or the declaration of the type. -/
  node : NodeId
  deriving DecidableEq, Repr

namespace Definition

/-- The declaration around a declarator. -/
def parent? (d : Definition) : Option NodeId :=
  match d.kind with
  | .variableOf declaration => some declaration
  | _ => none

/-- Whether a type is declared. -/
def isType (d : Definition) : Bool := d.kind == .typeName

/-- Whether a node, or the declaration around it, declares the variable here. -/
def isBy (d : Definition) (node : NodeId) : Bool := d.node == node || d.parent? == some node

end Definition

/-- A variable. -/
structure Variable where
  /-- Its name. -/
  name : String
  /-- The scope it belongs to. -/
  scope : ScopeId
  /-- The places where it is declared, in source order. -/
  definitions : List Definition
  /-- The references to it. -/
  references : List ReferenceId
  deriving DecidableEq, Repr

namespace Variable

/-- The declared names, one for each definition. -/
def identifiers (v : Variable) : List NodeId := v.definitions.map (·.name)

/-- Whether the variable stands for a type. -/
def isType (v : Variable) : Bool := v.definitions.any (·.isType)

/-- Whether the variable stands for a value. -/
def isValue (v : Variable) : Bool := v.definitions.any (!·.isType)

end Variable

/-- What a reference does; where it gives the variable a value it has the expression for it. -/
inductive Use where
  /-- It reads the value. -/
  | read
  /-- It names the type. -/
  | readType
  /-- It gives the variable its first value. -/
  | firstWrite (value : NodeId)
  /-- It gives the variable a new value. -/
  | write (value : NodeId)
  /-- It computes a new value from the old one. -/
  | update (value : NodeId)
  deriving DecidableEq, Repr

namespace Use

/-- Whether the old value matters. -/
def isRead : Use → Bool
  | read | readType | update _ => true
  | firstWrite _ | write _ => false

/-- Whether the variable gets a value. -/
def isWrite : Use → Bool
  | firstWrite _ | write _ | update _ => true
  | read | readType => false

/-- Whether the reference only reads. -/
def isReadOnly (u : Use) : Bool := u.isRead && !u.isWrite

/-- Whether the reference only gives a value. -/
def isWriteOnly (u : Use) : Bool := u.isWrite && !u.isRead

/-- Whether the reference reads and gives a value. -/
def isReadWrite (u : Use) : Bool := u.isRead && u.isWrite

/-- The expression for the value that the variable gets. -/
def value? : Use → Option NodeId
  | firstWrite value | write value | update value => some value
  | read | readType => none

/-- Whether the variable gets its first value. -/
def isInitialization : Use → Bool
  | firstWrite _ => true
  | _ => false

/-- Whether a type is named. -/
def isType : Use → Bool
  | readType => true
  | _ => false

end Use

/-- A reference to a variable. -/
structure Reference where
  /-- The referring name. -/
  identifier : NodeId
  /-- Its text. -/
  name : String
  /-- The scope it stands in. -/
  scope : ScopeId
  /-- What it does. -/
  use : Use
  /-- The variable it refers to. -/
  target? : Option VariableId
  deriving DecidableEq, Repr

/-- Whether a variable can answer a reference of its name: a type answers the name of a type, a value
everything else. -/
def Variable.answers (v : Variable) (use : Use) : Bool := if use.isType then v.isType else v.isValue

/-- The scopes, variables and references of a program. -/
structure ScopeGraph where
  /-- How the program is analysed. -/
  options : Options := {}
  /-- The scopes; the outermost is the first. -/
  scopes : Array Scope := #[]
  /-- The variables. -/
  vars : Array Variable := #[]
  /-- The references. -/
  references : Array Reference := #[]
  /-- All definitions with the variables they declare, in the order in which they were met. -/
  definitions : Array (VariableId × Definition) := #[]
  deriving DecidableEq, Repr

namespace ScopeGraph

/-- Whether the program is run as a module. -/
def isModule (g : ScopeGraph) : Bool := g.options.sourceType == .module

/-- The variable of a scope that has a name. -/
def variableIn? (g : ScopeGraph) (scope : ScopeId) (name : String) : Option VariableId :=
  g.scopes[scope]?.bind fun s =>
    s.vars.find? fun v => (g.vars[v]?.map (·.name)) == some name

/-- A scope and the scopes around it, at most `n` of them; the scope around another has a smaller
number, so as many as there are scopes are all. -/
def chainWithin (g : ScopeGraph) : Nat → ScopeId → List ScopeId
  | 0, _ => []
  | n + 1, scope =>
    scope :: match g.scopes[scope]?.bind (·.upper?) with
      | none => []
      | some upper => g.chainWithin n upper

/-- A scope and the scopes around it, innermost first. -/
def chain (g : ScopeGraph) (scope : ScopeId) : List ScopeId := g.chainWithin g.scopes.size scope

/-- The innermost variable of a name around a scope. -/
def lookup? (g : ScopeGraph) (scope : ScopeId) (name : String) : Option VariableId :=
  (g.chain scope).findSome? fun s => g.variableIn? s name

/-- The scopes that a node opens, outermost first. -/
def scopesOf (g : ScopeGraph) (node : NodeId) : List ScopeId :=
  (List.range g.scopes.size).filter fun s => (g.scopes[s]?.map (·.block)) == some node

/-- The scope that a node opens; of several the innermost or the outermost one. -/
def scopeOf? (g : ScopeGraph) (node : NodeId) (innermost : Bool) : Option ScopeId :=
  if innermost then (g.scopesOf node).getLast? else (g.scopesOf node).head?

/-- The variables that a node declares: a declaration, a declarator, a function with its name and its
parameters, or the declaration of a type. -/
def declaredBy (g : ScopeGraph) (node : NodeId) : List VariableId :=
  ((g.definitions.toList.filter (·.2.isBy node)).map (·.1)).eraseDups

end ScopeGraph

end ScriptAnalysis.Scoping

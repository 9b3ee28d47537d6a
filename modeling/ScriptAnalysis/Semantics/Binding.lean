import ScriptAnalysis.Semantics.Diagnostic
import ScriptAnalysis.Semantics.Symbol

/-!
# Binding names

Which symbol each name of a file declares or refers to. Names of values and names of types are apart.
A variable declared with `var` and a parameter belong to the function around them, or to the file;
everything else that is declared belongs to the nearest block. The declarations of a scope are entered
before its statements are looked at, so that a reference may stand before the declaration: these
declarations are `hoistedVariables` and `blockDeclarations`. A declaration that stands where no block
collects it, such as right under a condition, is entered when it is reached.
-/

namespace ScriptAnalysis.Semantics

open Syntax

/-- The binding of a file. -/
structure Binding where
  /-- The symbols by number. -/
  symbols : Array Symbol
  /-- The symbol that each declared name declares, later entries first. -/
  declared : List (NodeId × Nat)
  /-- The symbol that each reference refers to, later entries first. -/
  resolved : List (NodeId × Nat)
  /-- The references to values that refer to nothing in the file, in source order. -/
  unresolved : List NodeId
  /-- The references to types that refer to nothing in the file, in source order. -/
  unresolvedTypes : List NodeId
  /-- The names that are declared again, in the order in which this is found. -/
  conflicts : List Diagnostic

namespace Binding

/-- The symbol that a name declares. -/
def declaredSymbol? (b : Binding) (name : NodeId) : Option Symbol :=
  (b.declared.lookup name).bind fun index => b.symbols[index]?

/-- The symbol that a reference refers to. -/
def resolvedSymbol? (b : Binding) (reference : NodeId) : Option Symbol :=
  (b.resolved.lookup reference).bind fun index => b.symbols[index]?

/-- The symbol that an identifier declares or refers to. -/
def symbol? (b : Binding) (identifier : NodeId) : Option Symbol :=
  (b.declaredSymbol? identifier).or (b.resolvedSymbol? identifier)

/-- Whether an identifier is a reference to a value that refers to nothing in the file. -/
def isUnresolved (b : Binding) (identifier : NodeId) : Bool := b.unresolved.contains identifier

end Binding

/-! ### The declarations of a scope -/

/-- A declared name with the node that declares it. -/
structure Declaration where
  /-- The declared name. -/
  name : Ident Place
  /-- The node that declares it. -/
  node : NodeId
  /-- What it is declared as. -/
  kind : SymbolKind

/-- The declarations of the variables of a statement. -/
def variableDeclarations (kind : SymbolKind) (nodes : List (Node Place)) : List Declaration :=
  nodes.filterMap fun node =>
    match node.kind with
    | .variableDeclaration name _ _ => some ⟨name, node.id, kind⟩
    | _ => none

mutual

/-- The variables of a function that a statement declares, inner blocks included and inner functions
not. -/
def hoistedVariables : Node Place → List Declaration
  | .mk _ (.variableStatement .var nodes) => variableDeclarations .functionVariable nodes
  | .mk _ (.block body) => hoistedVariablesOfList body
  | .mk _ (.ifStatement _ thenBranch elseBranch?) =>
    hoistedVariables thenBranch ++ hoistedVariablesOfOption elseBranch?
  | .mk _ (.whileStatement _ body) => hoistedVariables body
  | _ => []

/-- The variables of a function that statements declare. -/
def hoistedVariablesOfList : List (Node Place) → List Declaration
  | [] => []
  | node :: nodes => hoistedVariables node ++ hoistedVariablesOfList nodes

/-- The variables of a function that a statement declares, if there is one. -/
def hoistedVariablesOfOption : Option (Node Place) → List Declaration
  | none => []
  | some node => hoistedVariables node

end

/-- What statements declare in the block they make up. -/
def blockDeclarations (body : List (Node Place)) : List Declaration :=
  body.flatMap fun node =>
    match node.kind with
    | .functionDeclaration name _ _ _ => [⟨name, node.id, .function⟩]
    | .variableStatement keyword nodes =>
      if keyword.isBlockScoped then variableDeclarations (.ofVariableKind keyword) nodes else []
    | .typeAlias name _ => [⟨name, node.id, .typeAlias⟩]
    | _ => []

/-- What parameters declare. -/
def parameterDeclarations (params : List (Node Place)) : List Declaration :=
  params.filterMap fun node =>
    match node.kind with
    | .parameter name _ _ => some ⟨name, node.id, .functionVariable⟩
    | _ => none

/-! ### Scopes -/

namespace Binding

/-- The names of a scope, each with the number of its symbol. -/
structure Frame where
  /-- The names of values. -/
  values : List (String × Nat) := []
  /-- The names of types. -/
  types : List (String × Nat) := []

/-- The number of the symbol of a name of a value or of a type. -/
def Frame.lookup? (frame : Frame) (isType : Bool) (name : String) : Option Nat :=
  if isType then frame.types.lookup name else frame.values.lookup name

/-- The scope with one more name. -/
def Frame.add (frame : Frame) (isType : Bool) (name : String) (index : Nat) : Frame :=
  if isType then { frame with types := (name, index) :: frame.types }
  else { frame with values := (name, index) :: frame.values }

/-- How far binding has got: the binding so far, with its lists last first, and the open scopes, the
innermost first. -/
structure State where
  /-- The binding so far. -/
  binding : Binding
  /-- The open scopes. -/
  frames : List Frame

/-- A step of binding. -/
abbrev Bind := StateM State

/-- What is reported when a name that is declared as `old` is declared again as `new` in the same
scope; variables of a function may be declared again. -/
def conflict? (name : String) (old new : SymbolKind) : Option Cause :=
  if old = .functionVariable ∧ new = .functionVariable then none
  else if old = .function ∧ new = .function then some .duplicateFunction
  else if old.isBlockScoped || new.isBlockScoped then some (.redeclaredBlockVariable name)
  else some (.duplicateIdentifier name)

/-- The state after a declaration in the innermost scope. A name that is declared there already keeps
its symbol, which gets one more declaration; a missing name declares nothing. -/
def State.declare (s : State) (d : Declaration) : State :=
  match s.frames with
  | [] => s
  | frame :: frames =>
    if d.name.text = "" then s
    else
      let b := s.binding
      match frame.lookup? d.kind.isType d.name.text with
      | some index =>
        let old := (b.symbols[index]?.map (·.kind)).getD d.kind
        let conflicts := match conflict? d.name.text old d.kind with
          | some cause => { cause, span := d.name.span } :: b.conflicts
          | none => b.conflicts
        { s with binding := { b with
            symbols := b.symbols.modify index fun symbol =>
              { symbol with declarations := symbol.declarations ++ [d.node] }
            declared := (d.name.id, index) :: b.declared
            conflicts } }
      | none =>
        let index := b.symbols.size
        { binding := { b with
            symbols := b.symbols.push ⟨.localSymbol index, d.name.text, d.kind, [d.node]⟩
            declared := (d.name.id, index) :: b.declared }
          frames := frame.add d.kind.isType d.name.text index :: frames }

/-- The state after a reference to a value or to a type; a missing name refers to nothing. -/
def State.refer (s : State) (isType : Bool) (name : Ident Place) : State :=
  if name.text = "" then s
  else
    let b := s.binding
    match s.frames.findSome? (·.lookup? isType name.text) with
    | some index =>
      { s with binding := { b with resolved := (name.id, index) :: b.resolved } }
    | none =>
      if isType then
        { s with binding := { b with unresolvedTypes := name.id :: b.unresolvedTypes } }
      else
        { s with binding := { b with unresolved := name.id :: b.unresolved } }

/-- Whether a name has been declared. -/
def State.isDeclared (s : State) (name : Ident Place) : Bool :=
  (s.binding.declared.lookup name.id).isSome

/-- Declares names in the innermost scope. -/
def declareAll (ds : List Declaration) : Bind Unit := modify fun s => ds.foldl State.declare s

/-- Declares a name in the innermost scope unless it has been declared before. -/
def declareLate (d : Declaration) : Bind Unit :=
  modify fun s => if s.isDeclared d.name then s else s.declare d

/-- Refers to a value. -/
def referToValue (name : Ident Place) : Bind Unit := modify (·.refer false name)

/-- Refers to a type. -/
def referToType (name : Ident Place) : Bind Unit := modify (·.refer true name)

/-- Opens a scope. -/
def openScope : Bind Unit := modify fun s => { s with frames := {} :: s.frames }

/-- Closes the innermost scope. -/
def closeScope : Bind Unit := modify fun s => { s with frames := s.frames.tail }

/-! ### Walking the tree -/

mutual

/-- Binds what stands in a node. -/
def bindNode : Node Place → Bind Unit
  | .mk _ (.sourceFile body) => do
    openScope
    declareAll (hoistedVariablesOfList body)
    declareAll (blockDeclarations body)
    bindList body
    closeScope
  | .mk _ (.variableStatement keyword nodes) => bindVariables keyword nodes
  | .mk _ (.variableDeclaration _ type? init?) | .mk _ (.parameter _ type? init?) => do
    bindOption type?
    bindOption init?
  | .mk l (.functionDeclaration name params returnType? body) => do
    declareLate ⟨name, l.id, .function⟩
    openScope
    declareAll (parameterDeclarations params)
    bindList params
    bindOption returnType?
    match body with
    | .mk _ (.block statements) =>
      declareAll (hoistedVariablesOfList statements)
      declareAll (blockDeclarations statements)
      bindList statements
    | .mk l k => bindNode (.mk l k)
    closeScope
  | .mk l (.typeAlias name type) => do
    declareLate ⟨name, l.id, .typeAlias⟩
    bindNode type
  | .mk _ (.block body) => do
    openScope
    declareAll (blockDeclarations body)
    bindList body
    closeScope
  | .mk _ (.expressionStatement expr) | .mk _ (.parenthesized expr)
  | .mk _ (.prefixUnary _ expr) | .mk _ (.arrayType expr) | .mk _ (.propertyAccess expr _) =>
    bindNode expr
  | .mk _ (.returnStatement expr?) => bindOption expr?
  | .mk _ (.ifStatement cond thenBranch elseBranch?) => do
    bindNode cond
    bindNode thenBranch
    bindOption elseBranch?
  | .mk _ (.whileStatement cond body) => do
    bindNode cond
    bindNode body
  | .mk l (.identifier text) => referToValue ⟨l, text⟩
  | .mk _ (.arrayLiteral nodes) | .mk _ (.unionType nodes) => bindList nodes
  | .mk _ (.arrowFunction params returnType? body) => do
    openScope
    declareAll (parameterDeclarations params)
    bindList params
    bindOption returnType?
    match body with
    | .mk _ (.block statements) =>
      declareAll (hoistedVariablesOfList statements)
      declareAll (blockDeclarations statements)
      bindList statements
    | .mk l k => bindNode (.mk l k)
    closeScope
  | .mk _ (.call callee args) => do
    bindNode callee
    bindList args
  | .mk _ (.binary _ left right) => do
    bindNode left
    bindNode right
  | .mk _ (.typeReference name) => referToType name
  | .mk _ .emptyStatement | .mk _ (.numericLiteral _) | .mk _ (.stringLiteral _)
  | .mk _ .trueLiteral | .mk _ .falseLiteral | .mk _ .nullLiteral | .mk _ (.keywordType _) => pure ()

/-- Binds what stands in nodes. -/
def bindList : List (Node Place) → Bind Unit
  | [] => pure ()
  | node :: nodes => do
    bindNode node
    bindList nodes

/-- Binds what stands in a node, if there is one. -/
def bindOption : Option (Node Place) → Bind Unit
  | none => pure ()
  | some node => bindNode node

/-- Binds the variables of a statement. -/
def bindVariables (keyword : VariableKind) : List (Node Place) → Bind Unit
  | [] => pure ()
  | .mk l (.variableDeclaration name type? init?) :: nodes => do
    declareLate ⟨name, l.id, .ofVariableKind keyword⟩
    bindOption type?
    bindOption init?
    bindVariables keyword nodes
  | _ :: nodes => bindVariables keyword nodes

end

/-- The binding of a file. -/
def ofTree (tree : Tree) : Binding :=
  let (_, s) := (bindNode tree.root).run ⟨⟨#[], [], [], [], [], []⟩, []⟩
  { s.binding with
    unresolved := s.binding.unresolved.reverse
    unresolvedTypes := s.binding.unresolvedTypes.reverse
    conflicts := s.binding.conflicts.reverse }

end Binding

end ScriptAnalysis.Semantics

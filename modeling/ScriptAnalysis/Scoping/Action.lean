import ScriptAnalysis.Scoping.Graph

/-!
# What a program does to scopes

The walk over a common tree, written down as the list of its actions: a scope is opened or closed, a
name is declared, a name is referred to. `Action.ofProgram` depends on the tree alone; which scope is
the current one, and which variable a reference means, is left to whoever follows the list.

A declared name stands in one definition, and a name with a first value also in the reference that
gives it; the name of a member stands in none.
-/

namespace ScriptAnalysis.Scoping

open Ast

/-- One step of the walk. -/
inductive Action where
  /-- A node opens a scope inside the current one; `startsStrict` says that the strict rules begin
  here. -/
  | openScope (type : ScopeType) (block : NodeId) (startsStrict : Bool)
  /-- The current scope is closed. -/
  | closeScope
  /-- A name is declared, in the current scope or, when `isHoisted`, where variables declared with
  `var` in it belong. -/
  | define (isHoisted : Bool) (name : String) (definition : Definition)
  /-- A name is referred to. -/
  | refer (name : String) (identifier : NodeId) (use : Use)
  deriving DecidableEq, Repr

namespace Action

/-- A definition; a missing name defines nothing. -/
def ofDefinition (isHoisted : Bool) (name : String) (definition : Definition) : List Action :=
  if name = "" then [] else [define isHoisted name definition]

/-- A reference; a missing name refers to nothing. -/
def ofReference (name : String) (identifier : NodeId) (use : Use) : List Action :=
  if name = "" then [] else [refer name identifier use]

/-- Whether statements begin with strings one of which asks for the strict rules, written without
escapes. -/
def startsStrict : List (Node Place) → Bool
  | .mk _ (.expressionStatement (.mk _ (.literal (.string _) raw))) :: rest =>
    raw == "\"use strict\"" || raw == "'use strict'" || startsStrict rest
  | _ => false

/-- Whether the body of a function asks for the strict rules. -/
def bodyStartsStrict (body : Node Place) : Bool :=
  match body.kind with
  | .blockStatement statements => startsStrict statements
  | _ => false

mutual

/-- The actions of a type. -/
def ofType : Node Place → List Action
  | .mk _ (.typeReference name) => ofReference name.text name.id .readType
  | .mk _ (.ascription type) | .mk _ (.arrayType type) => ofType type
  | .mk _ (.unionType members) => ofTypes members
  | _ => []

/-- The actions of several types. -/
def ofTypes : List (Node Place) → List Action
  | [] => []
  | type :: types => ofType type ++ ofTypes types

end

/-- The actions of a type, if there is one. -/
def ofType? : Option (Node Place) → List Action
  | none => []
  | some type => ofType type

mutual

/-- The actions of a statement or an expression. -/
def ofNode : Node Place → List Action
  | .mk _ (.program body) => ofNodes body
  | .mk l (.variableDeclaration keyword declarators) =>
    ofDeclarators (!keyword.isBlockScoped) l.id declarators
  | .mk _ (.variableDeclarator _ init?) => ofNode? init?
  | .mk l (.functionDeclaration name params returnType? body) =>
    ofDefinition false name.text ⟨.functionName, name.id, l.id⟩ ++
      (openScope .function l.id (bodyStartsStrict body) ::
        (ofParams l.id params ++ (ofType? returnType? ++ (ofBody body ++ [closeScope]))))
  | .mk l (.arrowFunction params returnType? body _) =>
    openScope .function l.id (bodyStartsStrict body) ::
      (ofParams l.id params ++ (ofType? returnType? ++ (ofBody body ++ [closeScope])))
  | .mk l (.typeAlias name type) =>
    ofDefinition false name.text ⟨.typeName, name.id, l.id⟩ ++
      (openScope .typeAlias l.id false :: (ofType type ++ [closeScope]))
  | .mk l (.blockStatement body) => openScope .block l.id false :: (ofNodes body ++ [closeScope])
  | .mk _ (.expressionStatement expr) | .mk _ (.unaryExpression _ expr)
  | .mk _ (.memberExpression expr _) | .mk _ (.assignmentPattern _ expr) => ofNode expr
  | .mk _ (.returnStatement argument?) => ofNode? argument?
  | .mk _ (.ifStatement test consequent alternate?) =>
    ofNode test ++ (ofNode consequent ++ ofNode? alternate?)
  | .mk _ (.whileStatement test body) => ofNode test ++ ofNode body
  | .mk l (.identifier name _) => ofReference name l.id .read
  | .mk _ (.arrayExpression elements) => ofNodes elements
  | .mk _ (.callExpression callee arguments) => ofNode callee ++ ofNodes arguments
  | .mk _ (.binaryExpression op (.mk l (.identifier name type?)) right) =>
    (if op.isAssignment then
      ofReference name l.id (if op = .assign then .write right.id else .update right.id)
    else ofNode (.mk l (.identifier name type?))) ++ ofNode right
  | .mk _ (.binaryExpression _ left right) => ofNode left ++ ofNode right
  | .mk _ (.ascription type) | .mk _ (.arrayType type) => ofType type
  | .mk _ (.typeReference name) => ofReference name.text name.id .readType
  | .mk _ (.unionType members) => ofTypes members
  | .mk _ .emptyStatement | .mk _ (.literal ..) | .mk _ (.keywordType _) => []
termination_by n => 2 * sizeOf n

/-- The actions of several statements or expressions. -/
def ofNodes : List (Node Place) → List Action
  | [] => []
  | node :: nodes => ofNode node ++ ofNodes nodes
termination_by ns => 2 * sizeOf ns

/-- The actions of a statement or an expression, if there is one. -/
def ofNode? : Option (Node Place) → List Action
  | none => []
  | some node => ofNode node
termination_by n? => 2 * sizeOf n?

/-- The actions of the body of a function, whose block has no scope of its own. -/
def ofBody : Node Place → List Action
  | .mk _ (.blockStatement body) => ofNodes body
  | .mk l k => ofNode (.mk l k)
termination_by n => 2 * sizeOf n + 1

/-- The actions of the declarators of a declaration. -/
def ofDeclarators (isHoisted : Bool) (declaration : NodeId) : List (Node Place) → List Action
  | [] => []
  | .mk l (.variableDeclarator name none) :: nodes =>
    ofDefinition isHoisted name.text ⟨.variableOf declaration, name.id, l.id⟩ ++
      (ofType? name.ascription? ++ ofDeclarators isHoisted declaration nodes)
  | .mk l (.variableDeclarator name (some init)) :: nodes =>
    ofDefinition isHoisted name.text ⟨.variableOf declaration, name.id, l.id⟩ ++
      (ofType? name.ascription? ++ (ofReference name.text name.id (.firstWrite init.id) ++
        (ofNode init ++ ofDeclarators isHoisted declaration nodes)))
  | _ :: nodes => ofDeclarators isHoisted declaration nodes
termination_by ns => 2 * sizeOf ns

/-- The actions of the parameters of a function. -/
def ofParams (function : NodeId) : List (Node Place) → List Action
  | [] => []
  | .mk _ (.assignmentPattern name value) :: nodes =>
    ofDefinition false name.text ⟨.parameter, name.id, function⟩ ++
      (ofType? name.ascription? ++ (ofReference name.text name.id (.firstWrite value.id) ++
        (ofNode value ++ ofParams function nodes)))
  | .mk l (.identifier name type?) :: nodes =>
    ofDefinition false name ⟨.parameter, l.id, function⟩ ++
      (ofType? type? ++ ofParams function nodes)
  | _ :: nodes => ofParams function nodes
termination_by ns => 2 * sizeOf ns

end

/-- The scopes that a program opens, outermost first, before its first statement. -/
def ofHeader (options : Options) (program : NodeId) (body : List (Node Place)) : List Action :=
  openScope .global program (startsStrict body) ::
    ((if options.globalReturn then [openScope .function program (startsStrict body)] else []) ++
      (if options.sourceType = .module then [openScope .module program true] else []))

/-- The actions of a whole program; every scope is closed in the end. -/
def ofProgram (options : Options) (t : Tree) : List Action :=
  let header := ofHeader options t.root.id t.body
  header ++ (ofNodes t.body ++ header.map fun _ => closeScope)

end Action

end ScriptAnalysis.Scoping

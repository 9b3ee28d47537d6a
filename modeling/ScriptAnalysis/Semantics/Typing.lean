import ScriptAnalysis.Semantics.IdSet
import ScriptAnalysis.Semantics.Program
import ScriptAnalysis.Types.Assignable
import ScriptAnalysis.Types.Union

/-!
# Types and symbols of nodes

What type a node of a file has and what symbol it names. The type of a node is computed from the types
of other nodes: its children, the declaration of a name, the parent of a declared name. A node whose
type is being asked for while it is being computed has type `any`, so declarations may refer to
themselves and to each other. `typeWithin` carries the set of the nodes being computed; every nested
question adds a node to it, so there are at most as many of them as the file has nodes.
-/

namespace ScriptAnalysis.Semantics

open Syntax

/-- A file as it is seen from a program: the program decides what the names of the file stand for, and
a file that it does not hold has no names. -/
structure View where
  /-- The options. -/
  options : Config.Options
  /-- The names of the environment. -/
  globals : Globals
  /-- The file. -/
  tree : Tree
  /-- The binding that the program holds for the path of the file. -/
  binding? : Option Binding

namespace View

/-- A file as it is seen from a program. -/
def ofProgram (p : Program) (tree : Tree) : View :=
  { options := p.options
    globals := p.globals
    tree
    binding? := (p.file? tree.fileName).map (·.binding) }

/-- Whether null and undefined are types of their own. -/
def strict (v : View) : Bool := v.options.strictNullChecks

/-! ### Written types -/

/-- The type that a word names. -/
def keywordType : KeywordType → Ty
  | .number => .number
  | .string => .string
  | .boolean => .boolean
  | .void => .void
  | .any => .any
  | .unknown => .unknown
  | .never => .never
  | .null => .null
  | .undefined => .undefined

/-- The declaration of the type that a name refers to. -/
def aliasDeclaration? (v : View) (name : NodeId) : Option NodeId := do
  let symbol ← (← v.binding?).resolvedSymbol? name
  if symbol.kind = .typeAlias then symbol.firstDeclaration? else none

mutual

/-- The type that a node writes; `ask` answers what type a declaration has. -/
def writtenType (v : View) (ask : NodeId → Ty) : Node Place → Ty
  | .mk _ (.keywordType keyword) => keywordType keyword
  | .mk _ (.typeReference name) => ((v.aliasDeclaration? name.id).map ask).getD .any
  | .mk _ (.arrayType element) => .array (writtenType v ask element)
  | .mk _ (.unionType members) => Ty.unionOf v.strict (writtenTypes v ask members)
  | .mk _ _ => .any

/-- The types that nodes write. -/
def writtenTypes (v : View) (ask : NodeId → Ty) : List (Node Place) → List Ty
  | [] => []
  | n :: ns => writtenType v ask n :: writtenTypes v ask ns

end

/-! ### Returns -/

mutual

/-- The values returned by a statement of a function, inner functions not included; a return without a
value counts as none. -/
def returnsOf : Node Place → List (Option (Node Place))
  | .mk _ (.returnStatement expr?) => [expr?]
  | .mk _ (.block body) => returnsOfList body
  | .mk _ (.ifStatement _ thenBranch elseBranch?) =>
    returnsOf thenBranch ++ returnsOfOption elseBranch?
  | .mk _ (.whileStatement _ body) => returnsOf body
  | .mk _ _ => []

/-- The values returned by statements. -/
def returnsOfList : List (Node Place) → List (Option (Node Place))
  | [] => []
  | n :: ns => returnsOf n ++ returnsOfList ns

/-- The values returned by a statement, if there is one. -/
def returnsOfOption : Option (Node Place) → List (Option (Node Place))
  | none => []
  | some n => returnsOf n

end

/-! ### Types of nodes -/

/-- The type of a member of a value. -/
def memberType (object : Ty) (name : String) : Ty :=
  match object with
  | .object _ _ members => ((Ty.member? members name).map (·.2)).getD .any
  | .array _ | .string | .stringLiteral _ => if name = "length" then .number else .any
  | _ => .any

/-- The type of a sum. -/
def sumType (left right : Ty) : Ty :=
  if left.isStringLike || right.isStringLike then .string
  else if left.isNumberLike && right.isNumberLike then .number
  else .any

/-- The type of an operator's result. -/
def binaryType (v : View) (ask : NodeId → Ty) (op : BinaryOperator) (left right : NodeId) : Ty :=
  match op with
  | .assign | .and => ask right
  | .or => Ty.unionOf v.strict [ask left, ask right]
  | .plus | .plusAssign => sumType (ask left) (ask right)
  | op => if op.isComparison then .boolean else .number

/-- The type of a function. Without a written type it returns what its return statements return, or
what its body is. -/
def functionType (v : View) (ask : NodeId → Ty) (params : List (Node Place))
    (returnType? : Option (Node Place)) (body : Node Place) : Ty :=
  let params := params.filterMap fun p =>
    match p.kind with
    | .parameter name _ init? =>
      some { name := name.text, type := ask p.id, optional := init?.isSome : Param Ty }
    | _ => none
  let ret := match returnType?, body.kind with
    | some type, _ => v.writtenType ask type
    | none, .block _ =>
      let returns := returnsOf body
      if returns.all (·.isNone) then .void
      else Ty.unionOf v.strict (returns.map fun
        | some expr => (ask expr.id).widen v.strict
        | none => .undefined)
    | none, _ => (ask body.id).widen v.strict
  .function params ret

/-- The type of an identifier: that of the declaration it names or refers to, that of the member
access whose name it is, or that of a name of the environment. -/
def identifierType (v : View) (ask : NodeId → Ty) (id : NodeId) (text : String) : Ty :=
  match v.binding? with
  | none => .any
  | some binding =>
    if (binding.declaredSymbol? id).isSome then ((v.tree.parent? id).map ask).getD .any
    else
      match binding.resolvedSymbol? id with
      | some symbol => (symbol.firstDeclaration?.map ask).getD .any
      | none =>
        let ambient := ((v.globals.get? text).map (·.2.type)).getD .any
        match v.tree.parentNode? id with
        | none => ambient
        | some parent =>
          match parent.kind with
          | .propertyAccess _ name => if name.id = id then ask parent.id else ambient
          | .typeReference _ => .any
          | _ => ambient

/-- The word that declares the variable of a node. -/
def variableKind? (v : View) (id : NodeId) : Option VariableKind := do
  match (← v.tree.parentNode? id).kind with
  | .variableStatement keyword _ => some keyword
  | _ => none

/-- The type of a node; `ask` answers what type another node has. -/
def computeType (v : View) (ask : NodeId → Ty) (n : Node Place) : Ty :=
  match n.kind with
  | .numericLiteral text => .ofNumeral text
  | .stringLiteral value => .stringLiteral value
  | .trueLiteral => .booleanLiteral true
  | .falseLiteral => .booleanLiteral false
  | .nullLiteral => .null
  | .arrayLiteral [] => .array (if v.strict then .never else .any)
  | .arrayLiteral elements =>
    .array (Ty.unionOf v.strict (elements.map fun e => (ask e.id).widen v.strict))
  | .parenthesized expr => ask expr.id
  | .identifier text => v.identifierType ask n.id text
  | .variableDeclaration _ (some type) _ | .parameter _ (some type) _ => v.writtenType ask type
  | .variableDeclaration _ none (some init) =>
    if v.variableKind? n.id = some .const then (ask init.id).widenNullish v.strict
    else (ask init.id).widen v.strict
  | .parameter _ none (some init) => (ask init.id).widen v.strict
  | .variableDeclaration _ none none | .parameter _ none none => .any
  | .functionDeclaration _ params returnType? body | .arrowFunction params returnType? body =>
    v.functionType ask params returnType? body
  | .typeAlias _ type => v.writtenType ask type
  | .call callee _ =>
    match ask callee.id with
    | .function _ ret => ret
    | _ => .any
  | .propertyAccess object name => memberType (ask object.id) name.text
  | .prefixUnary op _ =>
    match op with
    | .not => .boolean
    | .minus | .plus => .number
    | .typeof => .string
  | .binary op left right => v.binaryType ask op left.id right.id
  | .keywordType _ | .typeReference _ | .arrayType _ | .unionType _ => v.writtenType ask n
  | _ => .any

/-- The type of a node while the types of the nodes in `path` are being computed, with at most so many
nested questions. -/
def typeWithin (v : View) : Nat → IdSet → NodeId → Ty
  | 0, _, _ => .any
  | n + 1, path, id =>
    match v.tree.node? id with
    | none => .any
    | some node =>
      if path.contains id then .any else v.computeType (v.typeWithin n (path.insert id)) node

/-- The type of a node. -/
def typeAt (v : View) (id : NodeId) : Ty := v.typeWithin (v.tree.size + 1) .empty id

/-! ### Symbols of nodes -/

/-- The object whose member an identifier names. -/
def accessedObject? (v : View) (id : NodeId) : Option (Node Place) := do
  match (← v.tree.parentNode? id).kind with
  | .propertyAccess object name => if name.id = id then some object else none
  | _ => none

/-- The symbol that an identifier names. -/
def identifierSymbol? (v : View) (id : NodeId) (text : String) : Option Symbol := do
  let binding ← v.binding?
  match binding.symbol? id with
  | some symbol => some symbol
  | none =>
    match v.accessedObject? id with
    | some object =>
      match v.typeAt object.id with
      | .object number _ members => Globals.memberSymbol? number members text
      | _ => none
    | none => if binding.isUnresolved id then v.globals.symbol? text else none

/-- The symbol that a node names: a declaration names the symbol of its name. -/
def symbolAt? (v : View) (id : NodeId) : Option Symbol := do
  match (← v.tree.node? id).kind with
  | .variableDeclaration name _ _ | .parameter name _ _ | .functionDeclaration name _ _ _
  | .typeAlias name _ => v.identifierSymbol? name.id name.text
  | .identifier text => v.identifierSymbol? id text
  | _ => none

end View

end ScriptAnalysis.Semantics

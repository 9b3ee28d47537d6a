import ScriptAnalysis.Semantics.Check

/-!
# A checker that is asked questions

A checker answers questions about the files of one program, one after the other. It keeps one set for all
of them: the nodes whose types are being computed. The type of a node that is in the set is `any`; any other
node is put into the set while its type is computed and taken out afterwards. Every function here goes
through the nodes in the order in which the checker does.
-/

namespace ScriptAnalysis.Semantics

open Syntax

/-- Something computed while the set of the nodes being computed is kept. -/
abbrev Asking := StateM IdSet

namespace View

/-! ### Types -/

/-- The type that a node has, `any` if there is no node. -/
def askOption (ask : NodeId → Asking Ty) : Option NodeId → Asking Ty
  | none => pure .any
  | some id => ask id

mutual

/-- The type that a node writes. -/
def askWritten (v : View) (ask : NodeId → Asking Ty) : Node Place → Asking Ty
  | .mk _ (.keywordType keyword) => pure (keywordType keyword)
  | .mk _ (.typeReference name) => askOption ask (v.aliasDeclaration? name.id)
  | .mk _ (.arrayType element) => return .array (← askWritten v ask element)
  | .mk _ (.unionType members) => return Ty.unionOf v.strict (← askWrittenList v ask members)
  | .mk _ _ => pure .any

/-- The types that nodes write. -/
def askWrittenList (v : View) (ask : NodeId → Asking Ty) : List (Node Place) → Asking (List Ty)
  | [] => pure []
  | n :: ns => return (← askWritten v ask n) :: (← askWrittenList v ask ns)

end

/-- The type of an operator's result. -/
def askBinary (v : View) (ask : NodeId → Asking Ty) (op : BinaryOperator) (left right : NodeId) :
    Asking Ty :=
  match op with
  | .assign | .and => ask right
  | .or => return Ty.unionOf v.strict [← ask left, ← ask right]
  | .plus | .plusAssign => return sumType (← ask left) (← ask right)
  | op => if op.isComparison then pure .boolean else pure .number

/-- The widened type of a node. -/
def askWidened (v : View) (ask : NodeId → Asking Ty) (id : NodeId) : Asking Ty :=
  return (← ask id).widen v.strict

/-- The type of a returned value. -/
def askReturned (v : View) (ask : NodeId → Asking Ty) : Option (Node Place) → Asking Ty
  | none => pure .undefined
  | some expr => v.askWidened ask expr.id

/-- The parameters of a function. -/
def askParams (ask : NodeId → Asking Ty) : List (Node Place) → Asking (List (Param Ty))
  | [] => pure []
  | p :: ps =>
    match p.kind with
    | .parameter name _ init? => do
      let type ← ask p.id
      return { name := name.text, type, optional := init?.isSome } :: (← askParams ask ps)
    | _ => askParams ask ps

/-- What a function returns. -/
def askResult (v : View) (ask : NodeId → Asking Ty) (returnType? : Option (Node Place))
    (body : Node Place) : Asking Ty :=
  match returnType?, body.kind with
  | some type, _ => v.askWritten ask type
  | none, .block _ =>
    let returns := returnsOf body
    if returns.all (·.isNone) then pure .void
    else return Ty.unionOf v.strict (← returns.mapM (v.askReturned ask))
  | none, _ => v.askWidened ask body.id

/-- The type of a function. -/
def askFunction (v : View) (ask : NodeId → Asking Ty) (params : List (Node Place))
    (returnType? : Option (Node Place)) (body : Node Place) : Asking Ty :=
  return .function (← askParams ask params) (← v.askResult ask returnType? body)

/-- The type of an identifier. -/
def askIdentifier (v : View) (ask : NodeId → Asking Ty) (id : NodeId) (text : String) : Asking Ty :=
  match v.binding? with
  | none => pure .any
  | some binding =>
    if (binding.declaredSymbol? id).isSome then askOption ask (v.tree.parent? id)
    else
      match binding.resolvedSymbol? id with
      | some symbol => askOption ask symbol.firstDeclaration?
      | none =>
        let ambient := ((v.globals.get? text).map (·.2.type)).getD .any
        match v.tree.parentNode? id with
        | none => pure ambient
        | some parent =>
          match parent.kind with
          | .propertyAccess _ name => if name.id = id then ask parent.id else pure ambient
          | .typeReference _ => pure .any
          | _ => pure ambient

/-- The type of a variable that starts with a value. -/
def askVariable (v : View) (ask : NodeId → Asking Ty) (id init : NodeId) : Asking Ty := do
  let type ← ask init
  return if v.variableKind? id = some .const then type.widenNullish v.strict else type.widen v.strict

/-- What a call of something of a type gives. -/
def resultType : Ty → Ty
  | .function _ ret => ret
  | _ => .any

/-- The type of a node that is not being computed yet. -/
def askComputed (v : View) (ask : NodeId → Asking Ty) (n : Node Place) : Asking Ty :=
  match n.kind with
  | .numericLiteral text => pure (.ofNumeral text)
  | .stringLiteral value => pure (.stringLiteral value)
  | .trueLiteral => pure (.booleanLiteral true)
  | .falseLiteral => pure (.booleanLiteral false)
  | .nullLiteral => pure .null
  | .arrayLiteral [] => pure (.array (if v.strict then .never else .any))
  | .arrayLiteral elements =>
    return .array (Ty.unionOf v.strict (← elements.mapM fun e => v.askWidened ask e.id))
  | .parenthesized expr => ask expr.id
  | .identifier text => v.askIdentifier ask n.id text
  | .variableDeclaration _ (some type) _ | .parameter _ (some type) _ => v.askWritten ask type
  | .variableDeclaration _ none (some init) => v.askVariable ask n.id init.id
  | .parameter _ none (some init) => v.askWidened ask init.id
  | .variableDeclaration _ none none | .parameter _ none none => pure .any
  | .functionDeclaration _ params returnType? body | .arrowFunction params returnType? body =>
    v.askFunction ask params returnType? body
  | .typeAlias _ type => v.askWritten ask type
  | .call callee _ => return resultType (← ask callee.id)
  | .propertyAccess object name => return memberType (← ask object.id) name.text
  | .prefixUnary op _ =>
    match op with
    | .not => pure .boolean
    | .minus | .plus => pure .number
    | .typeof => pure .string
  | .binary op left right => v.askBinary ask op left.id right.id
  | .keywordType _ | .typeReference _ | .arrayType _ | .unionType _ => v.askWritten ask n
  | _ => pure .any

/-- The type of a node, with at most so many nested questions. The node is taken out of the set that is there
when its type has been computed, whatever that set is. -/
def askWithin (v : View) : Nat → NodeId → Asking Ty
  | 0, _ => pure .any
  | n + 1, id => do
    match v.tree.node? id with
    | none => return .any
    | some node =>
      if (← get).contains id then return .any
      modify (·.insert id)
      let type ← v.askComputed (v.askWithin n) node
      modify (·.erase id)
      return type

/-- The type of a node. -/
def askType (v : View) (id : NodeId) : Asking Ty := v.askWithin (v.tree.size + 1) id

/-! ### Symbols -/

/-- The symbol that an identifier names. -/
def askIdentifierSymbol (v : View) (id : NodeId) (text : String) : Asking (Option Symbol) := do
  match v.binding? with
  | none => return none
  | some binding =>
    match binding.symbol? id with
    | some symbol => return some symbol
    | none =>
      match v.accessedObject? id with
      | some object =>
        match ← v.askType object.id with
        | .object number _ members => return Globals.memberSymbol? number members text
        | _ => return none
      | none => return if binding.isUnresolved id then v.globals.symbol? text else none

/-- The symbol that a node names. -/
def askSymbol (v : View) (id : NodeId) : Asking (Option Symbol) :=
  match v.tree.node? id with
  | none => pure none
  | some n =>
    match n.kind with
    | .variableDeclaration name _ _ | .parameter name _ _ | .functionDeclaration name _ _ _
    | .typeAlias name _ => v.askIdentifierSymbol name.id name.text
    | .identifier text => v.askIdentifierSymbol id text
    | _ => pure none

/-! ### Reports -/

/-- The report that a value does not fit a written type. -/
def askAssignment (v : View) (value : NodeId) (type : Node Place) (span : Span) :
    Asking (List Diagnostic) := do
  let source ← v.askType value
  let target ← v.askWritten v.askType type
  if source.assignable v.strict target then return []
  let source := if hasLiteral target then source else source.widen true
  return [{ cause := .notAssignable source target, span }]

/-- The reports about an assignment. -/
def askAssignments (v : View) (binding : Binding) (op : BinaryOperator) (left right : Node Place) :
    Asking (List Diagnostic) :=
  match binding.resolvedSymbol? left.id with
  | none => pure []
  | some symbol =>
    if symbol.kind = .constant then
      pure [{ cause := .constantAssigned symbol.name, span := left.span }]
    else
      match op, symbol.firstDeclaration?.bind v.writtenVariableType? with
      | .assign, some type => v.askAssignment right.id type left.span
      | _, _ => pure []

/-- The reports about one node. -/
def askNodeReports (v : View) (binding : Binding) (n : Node Place) : Asking (List Diagnostic) :=
  match n.kind with
  | .variableDeclaration name (some type) (some init) | .parameter name (some type) (some init) =>
    v.askAssignment init.id type name.span
  | .parameter name none none =>
    if v.options.noImplicitAny && name.text ≠ "" then
      pure [{ cause := .implicitAny name.text, span := name.span }]
    else pure []
  | .returnStatement (some expr) =>
    match (v.enclosingFunction? n.id).bind writtenReturnType? with
    | some type => v.askAssignment expr.id type expr.span
    | none => pure []
  | .binary op left right =>
    if op.isAssignment then v.askAssignments binding op left right else pure []
  | .sourceFile body | .block body => pure (v.unreachableReports body)
  | _ => pure []

/-- The reports about the file, in order. -/
def askDiagnostics (v : View) : Asking (List Diagnostic) := do
  match v.binding? with
  | none => return []
  | some binding =>
    let values := (binding.unresolved.filterMap v.identifier?).filter (!v.globals.contains ·.text)
    let types := binding.unresolvedTypes.filterMap v.identifier?
    let reports ← v.tree.entries.toList.mapM fun e => v.askNodeReports binding e.node
    return Diagnostic.inOrder
      (binding.conflicts ++ (values ++ types).map notFoundReport ++ reports.flatten)

end View

/-! ### The checker -/

/-- What a checker can be asked about a file. -/
inductive Question where
  /-- The type of a node. -/
  | typeAt (tree : Tree) (id : NodeId)
  /-- The symbol that a node names. -/
  | symbolAt (tree : Tree) (id : NodeId)
  /-- The reports about the names and types of the file. -/
  | semanticDiagnostics (tree : Tree)

/-- What a checker answers. -/
inductive Answer where
  /-- The type of a node. -/
  | type (type : Ty)
  /-- The symbol that a node names, if it names one. -/
  | symbol (symbol? : Option Symbol)
  /-- Reports in order. -/
  | diagnostics (reports : List Diagnostic)

/-- The answer to a question, from the program alone. -/
def Program.answer (p : Program) : Question → Answer
  | .typeAt tree id => .type ((View.ofProgram p tree).typeAt id)
  | .symbolAt tree id => .symbol ((View.ofProgram p tree).symbolAt? id)
  | .semanticDiagnostics tree => .diagnostics (View.ofProgram p tree).semanticDiagnostics

/-- The answer to a question, computed with the set that is kept. -/
def Program.ask (p : Program) : Question → Asking Answer
  | .typeAt tree id => return .type (← (View.ofProgram p tree).askType id)
  | .symbolAt tree id => return .symbol (← (View.ofProgram p tree).askSymbol id)
  | .semanticDiagnostics tree => return .diagnostics (← (View.ofProgram p tree).askDiagnostics)

/-- A checker of the files of a program. -/
structure Checker where
  /-- The program. -/
  program : Program
  /-- The nodes whose types are being computed. -/
  resolving : IdSet

namespace Checker

/-- A new checker of a program. -/
def ofProgram (program : Program) : Checker := ⟨program, .empty⟩

/-- The answer to a question, and the checker afterwards. -/
def answer (c : Checker) (q : Question) : Answer × Checker :=
  let (answer, resolving) := (c.program.ask q).run c.resolving
  (answer, { c with resolving })

/-- The answers to questions asked one after the other, each with the set that is kept after it. -/
def answers (c : Checker) : List Question → List (Answer × IdSet)
  | [] => []
  | q :: qs =>
    let (answer, c') := c.answer q
    (answer, c'.resolving) :: c'.answers qs

end Checker

end ScriptAnalysis.Semantics

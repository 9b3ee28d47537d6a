import ScriptAnalysis.Semantics.Typing

/-!
# Checking a file

The reports about the names and types of a file: names declared again, names that stand for nothing,
values whose type does not fit, assignments to constants, parameters without a type where they need
one, and statements after a return.
-/

namespace ScriptAnalysis.Semantics.View

open Syntax

/-- Whether a literal type is among the members of a type. -/
def hasLiteral : Ty → Bool
  | .union members => members.any (·.isLiteral)
  | t => t.isLiteral

/-- The report that a value does not fit a written type. The type of the value is shown with literals
only where the written type has some. -/
def assignmentReport (v : View) (value : NodeId) (type : Node Place) (span : Span) :
    List Diagnostic :=
  let source := v.typeAt value
  let target := v.writtenType v.typeAt type
  if source.assignable v.strict target then []
  else
    let source := if hasLiteral target then source else source.widen true
    [{ cause := .notAssignable source target, span }]

/-- The type that is written for what a function returns. -/
def writtenReturnType? (n : Node Place) : Option (Node Place) :=
  match n.kind with
  | .functionDeclaration _ _ returnType? _ | .arrowFunction _ returnType? _ => returnType?
  | _ => none

/-- The function around a node. -/
def enclosingFunction? (v : View) (id : NodeId) : Option (Node Place) :=
  ((v.tree.ancestors id).filterMap v.tree.node?).find? (·.kind.isFunctionLike)

/-- The type that is written for a declared variable. -/
def writtenVariableType? (v : View) (declaration : NodeId) : Option (Node Place) := do
  match (← v.tree.node? declaration).kind with
  | .variableDeclaration _ type? _ | .parameter _ type? _ => type?
  | _ => none

/-- The reports about an assignment. -/
def assignmentReports (v : View) (binding : Binding) (op : BinaryOperator) (left right : Node Place) :
    List Diagnostic :=
  match binding.resolvedSymbol? left.id with
  | none => []
  | some symbol =>
    if symbol.kind = .constant then [{ cause := .constantAssigned symbol.name, span := left.span }]
    else
      match op, symbol.firstDeclaration?.bind v.writtenVariableType? with
      | .assign, some type => v.assignmentReport right.id type left.span
      | _, _ => []

/-- Whether a statement does something when it is reached. -/
def isExecuted (n : Node Place) : Bool :=
  match n.kind with
  | .functionDeclaration .. | .typeAlias .. | .emptyStatement => false
  | _ => true

/-- Whether a statement is a return. -/
def isReturn (n : Node Place) : Bool :=
  match n.kind with
  | .returnStatement _ => true
  | _ => false

/-- The statements after the first return that would do something. -/
def unreachable (body : List (Node Place)) : List (Node Place) :=
  (body.dropWhile (!isReturn ·)).tail.filter isExecuted

/-- The report about statements after a return. It is an error or a suggestion, or there is none,
depending on whether such statements are tolerated. -/
def unreachableReports (v : View) (body : List (Node Place)) : List Diagnostic :=
  let statements := unreachable body
  match v.options.allowUnreachableCode?, statements.head?, statements.getLast? with
  | some true, _, _ => []
  | some false, some first, some last =>
    [{ cause := .unreachableCode, span := first.span.merge last.span }]
  | none, some first, some last =>
    [{ cause := .unreachableCode, span := first.span.merge last.span, category := .suggestion }]
  | _, _, _ => []

/-- The reports about one node. -/
def nodeReports (v : View) (binding : Binding) (n : Node Place) : List Diagnostic :=
  match n.kind with
  | .variableDeclaration name (some type) (some init) | .parameter name (some type) (some init) =>
    v.assignmentReport init.id type name.span
  | .parameter name none none =>
    if v.options.noImplicitAny && name.text ≠ "" then
      [{ cause := .implicitAny name.text, span := name.span }]
    else []
  | .returnStatement (some expr) =>
    match (v.enclosingFunction? n.id).bind writtenReturnType? with
    | some type => v.assignmentReport expr.id type expr.span
    | none => []
  | .binary op left right =>
    if op.isAssignment then v.assignmentReports binding op left right else []
  | .sourceFile body | .block body => v.unreachableReports body
  | _ => []

/-- The text and the place of an identifier. -/
def identifier? (v : View) (id : NodeId) : Option (Ident Place) := do
  let n ← v.tree.node? id
  let text ← n.kind.identifierText?
  some ⟨n.label, text⟩

/-- The report that a name stands for nothing. -/
def notFoundReport (i : Ident Place) : Diagnostic := { cause := .nameNotFound i.text, span := i.span }

/-- The reports about the file, in order. -/
def semanticDiagnostics (v : View) : List Diagnostic :=
  match v.binding? with
  | none => []
  | some binding =>
    let values := (binding.unresolved.filterMap v.identifier?).filter
      (!v.globals.contains ·.text)
    let types := binding.unresolvedTypes.filterMap v.identifier?
    Diagnostic.inOrder (
      binding.conflicts ++ (values ++ types).map notFoundReport ++
        v.tree.entries.toList.flatMap fun e => v.nodeReports binding e.node)

end View

/-- The reports about the names and types of the file of a path. -/
def Program.semanticDiagnostics (p : Program) (path : String) : List Diagnostic :=
  match p.file? path with
  | some file => (View.ofProgram p file.tree).semanticDiagnostics
  | none => []

end ScriptAnalysis.Semantics

import ScriptAnalysis.Decimal.Binary64
import ScriptAnalysis.Syntax.Operator

/-!
# Common syntax trees

The shape of a program that rules for many languages read: parentheses are gone, a plain parameter is
its name, and a name carries the ascription that stands behind it. As with the trees that are read
from text, a label is a parameter, `Kind ν β` is the shape of one node whose names are `ν` and whose
other children are `β`, and `Node.fold` computes from the leaves up by the one equation `fold_eq`.
-/

namespace ScriptAnalysis.Ast

open Decimal (Binary64)
open Syntax (VariableKind BinaryOperator PrefixOperator KeywordType)

/-- The value of a literal. -/
inductive Literal where
  /-- A number. -/
  | number (value : Binary64)
  /-- A string. -/
  | string (value : String)
  /-- A truth value. -/
  | boolean (value : Bool)
  /-- No value. -/
  | null
  deriving DecidableEq, Repr

/-- What a node is; names are `ν` and other children `β`, in source order. -/
inductive Kind (ν β : Type) where
  /-- A whole program. -/
  | program (body : List β)
  /-- Variables declared with one word. -/
  | variableDeclaration (keyword : VariableKind) (declarators : List β)
  /-- One declared variable. -/
  | variableDeclarator (name : ν) (init? : Option β)
  /-- A declared function. -/
  | functionDeclaration (name : ν) (params : List β) (returnType? : Option β) (body : β)
  /-- A name for a type. -/
  | typeAlias (name : ν) (type : β)
  /-- Statements between braces. -/
  | blockStatement (body : List β)
  /-- An expression used as a statement. -/
  | expressionStatement (expr : β)
  /-- A return from a function. -/
  | returnStatement (argument? : Option β)
  /-- A choice. -/
  | ifStatement (test consequent : β) (alternate? : Option β)
  /-- A loop. -/
  | whileStatement (test body : β)
  /-- A statement that does nothing. -/
  | emptyStatement
  /-- A name, with the ascription behind it. -/
  | identifier (name : String) (ascription? : Option β)
  /-- A literal, with the text that writes it. -/
  | literal (value : Literal) (raw : String)
  /-- A list of values. -/
  | arrayExpression (elements : List β)
  /-- A function without a name; `isExpression` says that its body is an expression. -/
  | arrowFunction (params : List β) (returnType? : Option β) (body : β) (isExpression : Bool)
  /-- A call. -/
  | callExpression (callee : β) (arguments : List β)
  /-- A member of a value. -/
  | memberExpression (object : β) (property : ν)
  /-- An operator in front of an operand. -/
  | unaryExpression (op : PrefixOperator) (argument : β)
  /-- An operator between operands, assignments among them. -/
  | binaryExpression (op : BinaryOperator) (left right : β)
  /-- A parameter with a default value. -/
  | assignmentPattern (left : ν) (right : β)
  /-- A type behind a colon. -/
  | ascription (type : β)
  /-- A type by its name. -/
  | typeReference (name : ν)
  /-- The type of lists. -/
  | arrayType (element : β)
  /-- The type of what belongs to any of several types. -/
  | unionType (members : List β)
  /-- A built-in type. -/
  | keywordType (keyword : KeywordType)
  deriving Repr

/-- A name in a tree with its label and the ascription behind it. -/
structure Name (α β : Type) where
  /-- The label of the name. -/
  label : α
  /-- The name. -/
  text : String
  /-- The ascription behind it. -/
  ascription? : Option β
  deriving Repr

/-- A node: its label and what it is. -/
inductive Node (α : Type) where
  /-- The node with a label and a kind. -/
  | mk (label : α) (kind : Kind (Name α (Node α)) (Node α))

namespace Kind

variable {ν ν' β β' : Type}

/-- The kind with its names and its other children replaced. -/
def map (f : ν → ν') (g : β → β') : Kind ν β → Kind ν' β'
  | program ss => program (ss.map g)
  | variableDeclaration k ds => variableDeclaration k (ds.map g)
  | variableDeclarator n i => variableDeclarator (f n) (i.map g)
  | functionDeclaration n ps t b => functionDeclaration (f n) (ps.map g) (t.map g) (g b)
  | typeAlias n t => typeAlias (f n) (g t)
  | blockStatement ss => blockStatement (ss.map g)
  | expressionStatement e => expressionStatement (g e)
  | returnStatement e => returnStatement (e.map g)
  | ifStatement c t e => ifStatement (g c) (g t) (e.map g)
  | whileStatement c b => whileStatement (g c) (g b)
  | emptyStatement => emptyStatement
  | identifier s t => identifier s (t.map g)
  | literal v s => literal v s
  | arrayExpression es => arrayExpression (es.map g)
  | arrowFunction ps t b e => arrowFunction (ps.map g) (t.map g) (g b) e
  | callExpression e as => callExpression (g e) (as.map g)
  | memberExpression e n => memberExpression (g e) (f n)
  | unaryExpression o e => unaryExpression o (g e)
  | binaryExpression o l r => binaryExpression o (g l) (g r)
  | assignmentPattern n e => assignmentPattern (f n) (g e)
  | ascription t => ascription (g t)
  | typeReference n => typeReference (f n)
  | arrayType t => arrayType (g t)
  | unionType ts => unionType (ts.map g)
  | keywordType k => keywordType k

/-- The children in source order. -/
def children : Kind β β → List β
  | program ss | variableDeclaration _ ss | blockStatement ss | arrayExpression ss
  | unionType ss => ss
  | variableDeclarator n i => n :: i.toList
  | functionDeclaration n ps t b => n :: (ps ++ (t.toList ++ [b]))
  | typeAlias n t => [n, t]
  | expressionStatement e | unaryExpression _ e | ascription e | arrayType e => [e]
  | returnStatement e => e.toList
  | ifStatement c t e => c :: t :: e.toList
  | whileStatement c b => [c, b]
  | identifier _ t => t.toList
  | arrowFunction ps t b _ => ps ++ (t.toList ++ [b])
  | callExpression e as => e :: as
  | memberExpression e n => [e, n]
  | binaryExpression _ l r => [l, r]
  | assignmentPattern n e => [n, e]
  | typeReference n => [n]
  | emptyStatement | literal .. | keywordType _ => []

/-- The name of a built-in type's kind. -/
def keywordTypeName : KeywordType → String
  | .number => "TSNumberKeyword"
  | .string => "TSStringKeyword"
  | .boolean => "TSBooleanKeyword"
  | .void => "TSVoidKeyword"
  | .any => "TSAnyKeyword"
  | .unknown => "TSUnknownKeyword"
  | .never => "TSNeverKeyword"
  | .null => "TSNullKeyword"
  | .undefined => "TSUndefinedKeyword"

/-- The name of the kind; operators between operands have three names, by what they do. -/
def name : Kind ν β → String
  | program _ => "Program"
  | variableDeclaration .. => "VariableDeclaration"
  | variableDeclarator .. => "VariableDeclarator"
  | functionDeclaration .. => "FunctionDeclaration"
  | typeAlias .. => "TSTypeAliasDeclaration"
  | blockStatement _ => "BlockStatement"
  | expressionStatement _ => "ExpressionStatement"
  | returnStatement _ => "ReturnStatement"
  | ifStatement .. => "IfStatement"
  | whileStatement .. => "WhileStatement"
  | emptyStatement => "EmptyStatement"
  | identifier .. => "Identifier"
  | literal .. => "Literal"
  | arrayExpression _ => "ArrayExpression"
  | arrowFunction .. => "ArrowFunctionExpression"
  | callExpression .. => "CallExpression"
  | memberExpression .. => "MemberExpression"
  | unaryExpression .. => "UnaryExpression"
  | binaryExpression op .. =>
    if op.isAssignment then "AssignmentExpression"
    else if op.isLogical then "LogicalExpression"
    else "BinaryExpression"
  | assignmentPattern .. => "AssignmentPattern"
  | ascription _ => "TSTypeAnnotation"
  | typeReference _ => "TSTypeReference"
  | arrayType _ => "TSArrayType"
  | unionType _ => "TSUnionType"
  | keywordType k => keywordTypeName k

/-- Whether the node is the ascription around a type, which has no place of its own in the text's
tree. -/
def isAscription : Kind ν β → Bool
  | ascription _ => true
  | _ => false

@[simp] theorem children_map (g : β → β') (k : Kind β β) :
    (k.map g g).children = k.children.map g := by
  cases k <;> simp [map, children, Option.toList_map]

end Kind

namespace Name

variable {α : Type}

/-- The node of a name. -/
def toNode (n : Name α (Node α)) : Node α := .mk n.label (.identifier n.text n.ascription?)

end Name

namespace Node

variable {α β : Type}

/-- The label of a node. -/
def label : Node α → α
  | mk l _ => l

/-- What a node is. -/
def kind : Node α → Kind (Name α (Node α)) (Node α)
  | mk _ k => k

@[simp] theorem label_mk (l : α) (k : Kind (Name α (Node α)) (Node α)) : (mk l k).label = l := rfl

@[simp] theorem kind_mk (l : α) (k : Kind (Name α (Node α)) (Node α)) : (mk l k).kind = k := rfl

@[simp] theorem mk_label_kind (n : Node α) : mk n.label n.kind = n := by cases n; rfl

/-- The kind of a node with names as nodes. -/
def shape (n : Node α) : Kind (Node α) (Node α) := n.kind.map Name.toNode id

/-- The children of a node in source order. -/
def children (n : Node α) : List (Node α) := n.shape.children

/-! ### Computing from the leaves up -/

mutual

/-- The value that `f` gives a node from the node and its children's values. -/
def fold (f : Node α → Kind β β → β) : Node α → β
  | .mk l k => f (.mk l k) (foldKind f k)

/-- A kind with its children replaced by their values. -/
def foldKind (f : Node α → Kind β β → β) : Kind (Name α (Node α)) (Node α) → Kind β β
  | .program ss => .program (foldList f ss)
  | .variableDeclaration k ds => .variableDeclaration k (foldList f ds)
  | .variableDeclarator n i => .variableDeclarator (foldName f n) (foldOption f i)
  | .functionDeclaration n ps t b =>
    .functionDeclaration (foldName f n) (foldList f ps) (foldOption f t) (fold f b)
  | .typeAlias n t => .typeAlias (foldName f n) (fold f t)
  | .blockStatement ss => .blockStatement (foldList f ss)
  | .expressionStatement e => .expressionStatement (fold f e)
  | .returnStatement e => .returnStatement (foldOption f e)
  | .ifStatement c t e => .ifStatement (fold f c) (fold f t) (foldOption f e)
  | .whileStatement c b => .whileStatement (fold f c) (fold f b)
  | .emptyStatement => .emptyStatement
  | .identifier s t => .identifier s (foldOption f t)
  | .literal v s => .literal v s
  | .arrayExpression es => .arrayExpression (foldList f es)
  | .arrowFunction ps t b e => .arrowFunction (foldList f ps) (foldOption f t) (fold f b) e
  | .callExpression e as => .callExpression (fold f e) (foldList f as)
  | .memberExpression e n => .memberExpression (fold f e) (foldName f n)
  | .unaryExpression o e => .unaryExpression o (fold f e)
  | .binaryExpression o l r => .binaryExpression o (fold f l) (fold f r)
  | .assignmentPattern n e => .assignmentPattern (foldName f n) (fold f e)
  | .ascription t => .ascription (fold f t)
  | .typeReference n => .typeReference (foldName f n)
  | .arrayType t => .arrayType (fold f t)
  | .unionType ts => .unionType (foldList f ts)
  | .keywordType k => .keywordType k

/-- The value of a name. -/
def foldName (f : Node α → Kind β β → β) : Name α (Node α) → β
  | ⟨l, s, t⟩ => f (.mk l (.identifier s t)) (.identifier s (foldOption f t))

/-- The values of several nodes. -/
def foldList (f : Node α → Kind β β → β) : List (Node α) → List β
  | [] => []
  | n :: ns => fold f n :: foldList f ns

/-- The value of a node, if there is one. -/
def foldOption (f : Node α → Kind β β → β) : Option (Node α) → Option β
  | none => none
  | some n => some (fold f n)

end

@[simp] theorem foldList_eq_map (f : Node α → Kind β β → β) (ns : List (Node α)) :
    foldList f ns = ns.map (fold f) := by
  induction ns with
  | nil => rfl
  | cons n ns ih => simp [foldList, ih]

@[simp] theorem foldOption_eq_map (f : Node α → Kind β β → β) (n? : Option (Node α)) :
    foldOption f n? = n?.map (fold f) := by
  cases n? <;> rfl

@[simp] theorem foldName_eq_fold (f : Node α → Kind β β → β) (n : Name α (Node α)) :
    foldName f n = fold f n.toNode := by
  cases n; simp [foldName, Name.toNode, fold, foldKind]

theorem foldKind_eq_map (f : Node α → Kind β β → β) (k : Kind (Name α (Node α)) (Node α)) :
    foldKind f k = k.map (fun n => fold f n.toNode) (fold f) := by
  cases k <;> simp [foldKind, Kind.map]

/-- The value of a node is `f` of it and its children's values. -/
theorem fold_eq (f : Node α → Kind β β → β) (n : Node α) :
    n.fold f = f n (n.shape.map (fold f) (fold f)) := by
  cases n with
  | mk l k =>
    simp only [fold, foldKind_eq_map, shape, kind_mk]
    congr 1
    cases k <;> simp [Kind.map]

/-! ### Changing labels -/

variable {m : Type → Type} [Monad m]

mutual

/-- The tree with the labels that `f` computes, children before their parent and in source order. -/
def mapM (f : α → m β) : Node α → m (Node β)
  | .mk l k => do
    let k ← mapKindM f k
    let l ← f l
    pure (.mk l k)

/-- A kind with the labels below it computed by `f`. -/
def mapKindM (f : α → m β) : Kind (Name α (Node α)) (Node α) → m (Kind (Name β (Node β)) (Node β))
  | .program ss => return .program (← mapListM f ss)
  | .variableDeclaration k ds => return .variableDeclaration k (← mapListM f ds)
  | .variableDeclarator n i => return .variableDeclarator (← mapNameM f n) (← mapOptionM f i)
  | .functionDeclaration n ps t b =>
    return .functionDeclaration (← mapNameM f n) (← mapListM f ps) (← mapOptionM f t) (← mapM f b)
  | .typeAlias n t => return .typeAlias (← mapNameM f n) (← mapM f t)
  | .blockStatement ss => return .blockStatement (← mapListM f ss)
  | .expressionStatement e => return .expressionStatement (← mapM f e)
  | .returnStatement e => return .returnStatement (← mapOptionM f e)
  | .ifStatement c t e => return .ifStatement (← mapM f c) (← mapM f t) (← mapOptionM f e)
  | .whileStatement c b => return .whileStatement (← mapM f c) (← mapM f b)
  | .emptyStatement => pure .emptyStatement
  | .identifier s t => return .identifier s (← mapOptionM f t)
  | .literal v s => pure (.literal v s)
  | .arrayExpression es => return .arrayExpression (← mapListM f es)
  | .arrowFunction ps t b e =>
    return .arrowFunction (← mapListM f ps) (← mapOptionM f t) (← mapM f b) e
  | .callExpression e as => return .callExpression (← mapM f e) (← mapListM f as)
  | .memberExpression e n => return .memberExpression (← mapM f e) (← mapNameM f n)
  | .unaryExpression o e => return .unaryExpression o (← mapM f e)
  | .binaryExpression o l r => return .binaryExpression o (← mapM f l) (← mapM f r)
  | .assignmentPattern n e => return .assignmentPattern (← mapNameM f n) (← mapM f e)
  | .ascription t => return .ascription (← mapM f t)
  | .typeReference n => return .typeReference (← mapNameM f n)
  | .arrayType t => return .arrayType (← mapM f t)
  | .unionType ts => return .unionType (← mapListM f ts)
  | .keywordType k => pure (.keywordType k)

/-- A name with the labels that `f` computes; its ascription comes first. -/
def mapNameM (f : α → m β) : Name α (Node α) → m (Name β (Node β))
  | ⟨l, s, t⟩ => do
    let t ← mapOptionM f t
    let l ← f l
    pure ⟨l, s, t⟩

/-- Several trees with the labels that `f` computes. -/
def mapListM (f : α → m β) : List (Node α) → m (List (Node β))
  | [] => pure []
  | n :: ns => return (← mapM f n) :: (← mapListM f ns)

/-- A tree, if there is one, with the labels that `f` computes. -/
def mapOptionM (f : α → m β) : Option (Node α) → m (Option (Node β))
  | none => pure none
  | some n => return some (← mapM f n)

end

/-- The tree with every label changed by `f`, which also gets the number of the node: nodes are
numbered from zero, children before their parent and in source order. -/
def number (f : Nat → α → β) (n : Node α) : Node β :=
  (StateT.run (m := Id) (n.mapM fun a => do
    let next ← getModify (· + 1)
    pure (f next a)) 0).1

/-- How many nodes a tree has. -/
def size (n : Node α) : Nat := n.fold fun _ k => k.children.foldr (· + ·) 1

theorem size_eq (n : Node α) : n.size = (n.children.map size).foldr (· + ·) 1 := by
  rw [size, fold_eq]
  simp only [Kind.children_map]
  rfl

end Node

end ScriptAnalysis.Ast

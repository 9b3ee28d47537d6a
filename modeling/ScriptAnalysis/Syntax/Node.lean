import ScriptAnalysis.Syntax.Operator

/-!
# Syntax trees

A node has a label and a kind; the kind says what the node is and holds its children. What a label
says is left open: the same trees carry spans while they are read, numbers once they are numbered, and
nothing where only their shape matters.

`Kind ν β` is the shape of one node whose names are `ν` and whose other children are `β`, so that the
kinds with node numbers for children are `Kind Nat Nat`. `Node.fold` computes over a tree from the
leaves up; every traversal that treats all kinds alike is an instance of it, and `fold_eq` is its one
equation.
-/

namespace ScriptAnalysis.Syntax

/-- What a node is; names are `ν` and other children `β`, in source order. -/
inductive Kind (ν β : Type) where
  /-- A whole text. -/
  | sourceFile (statements : List β)
  /-- Variables declared with one word. -/
  | variableStatement (keyword : VariableKind) (declarations : List β)
  /-- One declared variable. -/
  | variableDeclaration (name : ν) (type? : Option β) (init? : Option β)
  /-- A declared function. -/
  | functionDeclaration (name : ν) (params : List β) (returnType? : Option β) (body : β)
  /-- A parameter of a function. -/
  | parameter (name : ν) (type? : Option β) (init? : Option β)
  /-- A name for a type. -/
  | typeAlias (name : ν) (type : β)
  /-- Statements between braces. -/
  | block (statements : List β)
  /-- An expression used as a statement. -/
  | expressionStatement (expr : β)
  /-- A return from a function. -/
  | returnStatement (expr? : Option β)
  /-- A choice. -/
  | ifStatement (cond thenBranch : β) (elseBranch? : Option β)
  /-- A loop. -/
  | whileStatement (cond body : β)
  /-- A statement that does nothing. -/
  | emptyStatement
  /-- A name; its text is empty where a name is missing. -/
  | identifier (text : String)
  /-- A number as written. -/
  | numericLiteral (text : String)
  /-- A string by its value. -/
  | stringLiteral (value : String)
  /-- `true`. -/
  | trueLiteral
  /-- `false`. -/
  | falseLiteral
  /-- `null` as an expression. -/
  | nullLiteral
  /-- A list of values. -/
  | arrayLiteral (elements : List β)
  /-- An expression in parentheses. -/
  | parenthesized (expr : β)
  /-- A function without a name. -/
  | arrowFunction (params : List β) (returnType? : Option β) (body : β)
  /-- A call. -/
  | call (callee : β) (args : List β)
  /-- A member of a value. -/
  | propertyAccess (object : β) (name : ν)
  /-- An operator in front of an operand. -/
  | prefixUnary (op : PrefixOperator) (operand : β)
  /-- An operator between operands. -/
  | binary (op : BinaryOperator) (left right : β)
  /-- A built-in type. -/
  | keywordType (keyword : KeywordType)
  /-- A type by its name. -/
  | typeReference (name : ν)
  /-- The type of lists. -/
  | arrayType (element : β)
  /-- The type of what belongs to any of several types. -/
  | unionType (members : List β)
  deriving Repr

/-- A name in a tree with its label. -/
structure Ident (α : Type) where
  /-- The label of the name. -/
  label : α
  /-- The name. -/
  text : String
  deriving Repr

/-- A node: its label and what it is. -/
inductive Node (α : Type) where
  /-- The node with a label and a kind. -/
  | mk (label : α) (kind : Kind (Ident α) (Node α))

namespace Kind

variable {ν ν' β β' : Type}

/-- The kind with its names and its other children replaced. -/
def map (f : ν → ν') (g : β → β') : Kind ν β → Kind ν' β'
  | sourceFile ss => sourceFile (ss.map g)
  | variableStatement k ds => variableStatement k (ds.map g)
  | variableDeclaration n t i => variableDeclaration (f n) (t.map g) (i.map g)
  | functionDeclaration n ps t b => functionDeclaration (f n) (ps.map g) (t.map g) (g b)
  | parameter n t i => parameter (f n) (t.map g) (i.map g)
  | typeAlias n t => typeAlias (f n) (g t)
  | block ss => block (ss.map g)
  | expressionStatement e => expressionStatement (g e)
  | returnStatement e => returnStatement (e.map g)
  | ifStatement c t e => ifStatement (g c) (g t) (e.map g)
  | whileStatement c b => whileStatement (g c) (g b)
  | emptyStatement => emptyStatement
  | identifier s => identifier s
  | numericLiteral s => numericLiteral s
  | stringLiteral s => stringLiteral s
  | trueLiteral => trueLiteral
  | falseLiteral => falseLiteral
  | nullLiteral => nullLiteral
  | arrayLiteral es => arrayLiteral (es.map g)
  | parenthesized e => parenthesized (g e)
  | arrowFunction ps t b => arrowFunction (ps.map g) (t.map g) (g b)
  | call e as => call (g e) (as.map g)
  | propertyAccess e n => propertyAccess (g e) (f n)
  | prefixUnary o e => prefixUnary o (g e)
  | binary o l r => binary o (g l) (g r)
  | keywordType k => keywordType k
  | typeReference n => typeReference (f n)
  | arrayType e => arrayType (g e)
  | unionType ts => unionType (ts.map g)

/-- The children in source order. -/
def children : Kind β β → List β
  | sourceFile ss | variableStatement _ ss | block ss | arrayLiteral ss | unionType ss => ss
  | variableDeclaration n t i | parameter n t i => n :: (t.toList ++ i.toList)
  | functionDeclaration n ps t b => n :: (ps ++ (t.toList ++ [b]))
  | typeAlias n t => [n, t]
  | expressionStatement e | parenthesized e | prefixUnary _ e | arrayType e => [e]
  | returnStatement e => e.toList
  | ifStatement c t e => c :: t :: e.toList
  | whileStatement c b => [c, b]
  | arrowFunction ps t b => ps ++ (t.toList ++ [b])
  | call e as => e :: as
  | propertyAccess e n => [e, n]
  | binary _ l r => [l, r]
  | typeReference n => [n]
  | emptyStatement | identifier _ | numericLiteral _ | stringLiteral _ | trueLiteral | falseLiteral
  | nullLiteral | keywordType _ => []

/-- The name of the kind. -/
def name : Kind ν β → String
  | sourceFile _ => "SourceFile"
  | variableStatement .. => "VariableStatement"
  | variableDeclaration .. => "VariableDeclaration"
  | functionDeclaration .. => "FunctionDeclaration"
  | parameter .. => "Parameter"
  | typeAlias .. => "TypeAliasDeclaration"
  | block _ => "Block"
  | expressionStatement _ => "ExpressionStatement"
  | returnStatement _ => "ReturnStatement"
  | ifStatement .. => "IfStatement"
  | whileStatement .. => "WhileStatement"
  | emptyStatement => "EmptyStatement"
  | identifier _ => "Identifier"
  | numericLiteral _ => "NumericLiteral"
  | stringLiteral _ => "StringLiteral"
  | trueLiteral => "TrueKeyword"
  | falseLiteral => "FalseKeyword"
  | nullLiteral => "NullKeyword"
  | arrayLiteral _ => "ArrayLiteralExpression"
  | parenthesized _ => "ParenthesizedExpression"
  | arrowFunction .. => "ArrowFunction"
  | call .. => "CallExpression"
  | propertyAccess .. => "PropertyAccessExpression"
  | prefixUnary .. => "PrefixUnaryExpression"
  | binary .. => "BinaryExpression"
  | keywordType _ => "KeywordType"
  | typeReference _ => "TypeReference"
  | arrayType _ => "ArrayType"
  | unionType _ => "UnionType"

/-- Whether the node is a function with parameters of its own. -/
def isFunctionLike : Kind ν β → Bool
  | functionDeclaration .. | arrowFunction .. => true
  | _ => false

/-- Whether the node is a block. -/
def isBlock : Kind ν β → Bool
  | block _ => true
  | _ => false

/-- The text of a name. -/
def identifierText? : Kind ν β → Option String
  | identifier text => some text
  | _ => none

@[simp] theorem children_map (g : β → β') (k : Kind β β) :
    (k.map g g).children = k.children.map g := by
  cases k <;> simp [map, children, Option.toList_map]

end Kind

namespace Ident

/-- The node of a name. -/
def toNode {α : Type} (i : Ident α) : Node α := .mk i.label (.identifier i.text)

end Ident

namespace Node

variable {α β : Type}

/-- The label of a node. -/
def label : Node α → α
  | mk l _ => l

/-- What a node is. -/
def kind : Node α → Kind (Ident α) (Node α)
  | mk _ k => k

@[simp] theorem label_mk (l : α) (k : Kind (Ident α) (Node α)) : (mk l k).label = l := rfl

@[simp] theorem kind_mk (l : α) (k : Kind (Ident α) (Node α)) : (mk l k).kind = k := rfl

@[simp] theorem mk_label_kind (n : Node α) : mk n.label n.kind = n := by cases n; rfl

/-- The kind of a node with names as nodes. -/
def shape (n : Node α) : Kind (Node α) (Node α) := n.kind.map Ident.toNode id

/-- The children of a node in source order. -/
def children (n : Node α) : List (Node α) := n.shape.children

/-! ### Computing from the leaves up -/

mutual

/-- The value that `f` gives a node from the node and its children's values. -/
def fold (f : Node α → Kind β β → β) : Node α → β
  | .mk l k => f (.mk l k) (foldKind f k)

/-- A kind with its children replaced by their values. -/
def foldKind (f : Node α → Kind β β → β) : Kind (Ident α) (Node α) → Kind β β
  | .sourceFile ss => .sourceFile (foldList f ss)
  | .variableStatement k ds => .variableStatement k (foldList f ds)
  | .variableDeclaration n t i =>
    .variableDeclaration (f n.toNode (.identifier n.text)) (foldOption f t) (foldOption f i)
  | .functionDeclaration n ps t b =>
    .functionDeclaration (f n.toNode (.identifier n.text)) (foldList f ps) (foldOption f t)
      (fold f b)
  | .parameter n t i =>
    .parameter (f n.toNode (.identifier n.text)) (foldOption f t) (foldOption f i)
  | .typeAlias n t => .typeAlias (f n.toNode (.identifier n.text)) (fold f t)
  | .block ss => .block (foldList f ss)
  | .expressionStatement e => .expressionStatement (fold f e)
  | .returnStatement e => .returnStatement (foldOption f e)
  | .ifStatement c t e => .ifStatement (fold f c) (fold f t) (foldOption f e)
  | .whileStatement c b => .whileStatement (fold f c) (fold f b)
  | .emptyStatement => .emptyStatement
  | .identifier s => .identifier s
  | .numericLiteral s => .numericLiteral s
  | .stringLiteral s => .stringLiteral s
  | .trueLiteral => .trueLiteral
  | .falseLiteral => .falseLiteral
  | .nullLiteral => .nullLiteral
  | .arrayLiteral es => .arrayLiteral (foldList f es)
  | .parenthesized e => .parenthesized (fold f e)
  | .arrowFunction ps t b => .arrowFunction (foldList f ps) (foldOption f t) (fold f b)
  | .call e as => .call (fold f e) (foldList f as)
  | .propertyAccess e n => .propertyAccess (fold f e) (f n.toNode (.identifier n.text))
  | .prefixUnary o e => .prefixUnary o (fold f e)
  | .binary o l r => .binary o (fold f l) (fold f r)
  | .keywordType k => .keywordType k
  | .typeReference n => .typeReference (f n.toNode (.identifier n.text))
  | .arrayType e => .arrayType (fold f e)
  | .unionType ts => .unionType (foldList f ts)

/-- The values of several nodes. -/
def foldList (f : Node α → Kind β β → β) : List (Node α) → List β
  | [] => []
  | n :: ns => fold f n :: foldList f ns

/-- The value of a node, if there is one. -/
def foldOption (f : Node α → Kind β β → β) : Option (Node α) → Option β
  | none => none
  | some n => some (fold f n)

end

@[simp] theorem foldList_eq_map (f : Node α → Kind β β → β) (ns : List (Node α)) :
    foldList f ns = ns.map (fold f) := by
  induction ns with
  | nil => rfl
  | cons n ns ih => simp [foldList, ih]

@[simp] theorem foldOption_eq_map (f : Node α → Kind β β → β) (n? : Option (Node α)) :
    foldOption f n? = n?.map (fold f) := by
  cases n? <;> rfl

theorem foldKind_eq_map (f : Node α → Kind β β → β) (k : Kind (Ident α) (Node α)) :
    foldKind f k = k.map (fun n => fold f n.toNode) (fold f) := by
  cases k <;> simp [foldKind, Kind.map, Ident.toNode, fold]

/-- The value of a node is `f` of it and its children's values. -/
theorem fold_eq (f : Node α → Kind β β → β) (n : Node α) :
    n.fold f = f n (n.shape.map (fold f) (fold f)) := by
  cases n with
  | mk l k =>
    simp only [fold, foldKind_eq_map, shape, kind_mk]
    congr 1
    cases k <;> simp [Kind.map, Ident.toNode]

/-! ### Changing labels -/

end Node

/-- The name with the label that `f` computes. -/
def Ident.mapM {m : Type → Type} [Monad m] {α β : Type} (f : α → m β) (i : Ident α) :
    m (Ident β) := do
  let l ← f i.label
  pure ⟨l, i.text⟩

namespace Node

variable {m : Type → Type} [Monad m]

mutual

/-- The tree with the labels that `f` computes, children before their parent and in source order. -/
def mapM (f : α → m β) : Node α → m (Node β)
  | .mk l k => do
    let k ← mapKindM f k
    let l ← f l
    pure (.mk l k)

/-- A kind with the labels below it computed by `f`. -/
def mapKindM (f : α → m β) : Kind (Ident α) (Node α) → m (Kind (Ident β) (Node β))
  | .sourceFile ss => return .sourceFile (← mapListM f ss)
  | .variableStatement k ds => return .variableStatement k (← mapListM f ds)
  | .variableDeclaration n t i =>
    return .variableDeclaration (← n.mapM f) (← mapOptionM f t) (← mapOptionM f i)
  | .functionDeclaration n ps t b =>
    return .functionDeclaration (← n.mapM f) (← mapListM f ps) (← mapOptionM f t) (← mapM f b)
  | .parameter n t i => return .parameter (← n.mapM f) (← mapOptionM f t) (← mapOptionM f i)
  | .typeAlias n t => return .typeAlias (← n.mapM f) (← mapM f t)
  | .block ss => return .block (← mapListM f ss)
  | .expressionStatement e => return .expressionStatement (← mapM f e)
  | .returnStatement e => return .returnStatement (← mapOptionM f e)
  | .ifStatement c t e => return .ifStatement (← mapM f c) (← mapM f t) (← mapOptionM f e)
  | .whileStatement c b => return .whileStatement (← mapM f c) (← mapM f b)
  | .emptyStatement => pure .emptyStatement
  | .identifier s => pure (.identifier s)
  | .numericLiteral s => pure (.numericLiteral s)
  | .stringLiteral s => pure (.stringLiteral s)
  | .trueLiteral => pure .trueLiteral
  | .falseLiteral => pure .falseLiteral
  | .nullLiteral => pure .nullLiteral
  | .arrayLiteral es => return .arrayLiteral (← mapListM f es)
  | .parenthesized e => return .parenthesized (← mapM f e)
  | .arrowFunction ps t b =>
    return .arrowFunction (← mapListM f ps) (← mapOptionM f t) (← mapM f b)
  | .call e as => return .call (← mapM f e) (← mapListM f as)
  | .propertyAccess e n => return .propertyAccess (← mapM f e) (← n.mapM f)
  | .prefixUnary o e => return .prefixUnary o (← mapM f e)
  | .binary o l r => return .binary o (← mapM f l) (← mapM f r)
  | .keywordType k => pure (.keywordType k)
  | .typeReference n => return .typeReference (← n.mapM f)
  | .arrayType e => return .arrayType (← mapM f e)
  | .unionType ts => return .unionType (← mapListM f ts)

/-- Several trees with the labels that `f` computes. -/
def mapListM (f : α → m β) : List (Node α) → m (List (Node β))
  | [] => pure []
  | n :: ns => return (← mapM f n) :: (← mapListM f ns)

/-- A tree, if there is one, with the labels that `f` computes. -/
def mapOptionM (f : α → m β) : Option (Node α) → m (Option (Node β))
  | none => pure none
  | some n => return some (← mapM f n)

end

/-- The tree with every label changed by `f`. -/
def map (f : α → β) (n : Node α) : Node β := Id.run (n.mapM fun a => pure (f a))

/-- The tree with every label changed by `f`, which also gets the number of the node: nodes are
numbered from zero, children before their parent and in source order. -/
def number (f : Nat → α → β) (n : Node α) : Node β :=
  (StateT.run (m := Id) (n.mapM fun a => do
    let next ← getModify (· + 1)
    pure (f next a)) 0).1

/-- How many nodes a tree has. -/
def size (n : Node α) : Nat := n.fold fun _ k => k.children.foldr (· + ·) 1

theorem size_eq (n : Node α) : n.size = (n.children.map size).foldr (· + ·) 1 := by
  rw [size, fold_eq]
  simp only [Kind.children_map]
  rfl

end Node

end ScriptAnalysis.Syntax

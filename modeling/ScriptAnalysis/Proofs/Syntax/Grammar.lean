import ScriptAnalysis.Syntax.Node

/-!
# The grammar of trees

A node has a role: it is a file, a statement, an expression, a type, a declared variable, a parameter, or
the body of a function. Its kind says what roles its parts have. A tree is grammatical when every node in
it fits its role; a further condition may be asked of the kind of every node.
-/

namespace ScriptAnalysis.Syntax

/-- The places of a tree where a node can stand. -/
inductive Role where
  /-- A whole text. -/
  | file
  /-- A statement. -/
  | statement
  /-- The body of a function with a name. -/
  | block
  /-- The body of a function without a name. -/
  | body
  /-- An expression. -/
  | expression
  /-- A type. -/
  | type
  /-- A declared variable. -/
  | declaration
  /-- A parameter. -/
  | parameter
  deriving DecidableEq, Repr

/-- Whether what has the role is run: statements, expressions and the bodies of functions are. -/
def Role.isRun : Role → Bool
  | .statement | .block | .body | .expression => true
  | .file | .type | .declaration | .parameter => false

namespace Kind

variable {ν ν' β β' : Type}

/-- Whether the node is a statement. -/
def isStatement : Kind ν β → Bool
  | variableStatement .. | functionDeclaration .. | typeAlias .. | block _ | expressionStatement _
  | returnStatement _ | ifStatement .. | whileStatement .. | emptyStatement => true
  | _ => false

/-- Whether the node is an expression. -/
def isExpression : Kind ν β → Bool
  | identifier _ | numericLiteral _ | stringLiteral _ | trueLiteral | falseLiteral | nullLiteral
  | arrayLiteral _ | parenthesized _ | arrowFunction .. | call .. | propertyAccess .. | prefixUnary ..
  | binary .. => true
  | _ => false

/-- Whether the node is a type. -/
def isType : Kind ν β → Bool
  | keywordType _ | typeReference _ | arrayType _ | unionType _ => true
  | _ => false

/-- Whether a node of the kind fits a role. -/
def fits (k : Kind ν β) : Role → Bool
  | .file => match k with | sourceFile _ => true | _ => false
  | .statement => k.isStatement
  | .block => k.isBlock
  | .body => k.isBlock || k.isExpression
  | .expression => k.isExpression
  | .type => k.isType
  | .declaration => match k with | variableDeclaration .. => true | _ => false
  | .parameter => match k with | parameter .. => true | _ => false

/-- The children other than names, each with its role. -/
def parts : Kind ν β → List (Role × β)
  | sourceFile ss | block ss => ss.map (.statement, ·)
  | variableStatement _ ds => ds.map (.declaration, ·)
  | variableDeclaration _ t i | parameter _ t i =>
    t.toList.map (.type, ·) ++ i.toList.map (.expression, ·)
  | functionDeclaration _ ps t b =>
    ps.map (.parameter, ·) ++ (t.toList.map (.type, ·) ++ [(.block, b)])
  | typeAlias _ t => [(.type, t)]
  | expressionStatement e | parenthesized e | propertyAccess e _ | prefixUnary _ e => [(.expression, e)]
  | returnStatement e => e.toList.map (.expression, ·)
  | ifStatement c t e => (.expression, c) :: (.statement, t) :: e.toList.map (.statement, ·)
  | whileStatement c b => [(.expression, c), (.statement, b)]
  | arrayLiteral es => es.map (.expression, ·)
  | arrowFunction ps t b => ps.map (.parameter, ·) ++ (t.toList.map (.type, ·) ++ [(.body, b)])
  | call e as => (.expression, e) :: as.map (.expression, ·)
  | binary _ l r => [(.expression, l), (.expression, r)]
  | arrayType e => [(.type, e)]
  | unionType ts => ts.map (.type, ·)
  | emptyStatement | identifier _ | numericLiteral _ | stringLiteral _ | trueLiteral | falseLiteral
  | nullLiteral | keywordType _ | typeReference _ => []

theorem fits_body_of_isBlock {k : Kind ν β} (h : k.isBlock = true) : k.fits .body = true := by
  simp [fits, h]

/-- An expression can be the body of a function without a name. -/
theorem fits_body_of_isExpression {k : Kind ν β} (h : k.isExpression = true) :
    k.fits .body = true := by
  simp [fits, h]

/-- What is run is a statement or an expression. -/
theorem isStatement_or_isExpression {k : Kind ν β} {role : Role} (hrole : role.isRun = true)
    (h : k.fits role = true) : (k.isStatement || k.isExpression) = true := by
  cases role <;> cases k <;> simp_all [Role.isRun, fits, isStatement, isExpression, isBlock]

@[simp] theorem fits_map (f : ν → ν') (g : β → β') (k : Kind ν β) (role : Role) :
    (k.map f g).fits role = k.fits role := by
  cases k <;> cases role <;> rfl

@[simp] theorem parts_map (f : ν → ν') (g : β → β') (k : Kind ν β) :
    (k.map f g).parts = k.parts.map fun part => (part.1, g part.2) := by
  cases k <;> simp [map, parts, Option.toList_map, Function.comp_def]

/-- No part of a node has the role of a file. -/
theorem role_ne_file_of_mem_parts {k : Kind ν β} {part : Role × β} (h : part ∈ k.parts) : part.1 ≠ .file := by
  obtain ⟨role, n⟩ := part
  cases k <;> simp [parts] at h <;> grind

end Kind

namespace Node

variable {α : Type}

/-- The tree fits its role, and every part of it the role it has; `Ok` holds of every kind in it. -/
inductive Grammatical (Ok : Kind (Ident α) (Node α) → Prop) : Role → Node α → Prop where
  /-- A node that fits, with parts that fit. -/
  | mk {role : Role} (label : α) {kind : Kind (Ident α) (Node α)} (fits : kind.fits role = true)
      (ok : Ok kind) (parts : ∀ part ∈ kind.parts, Grammatical Ok part.1 part.2) :
      Grammatical Ok role (.mk label kind)

variable {Ok : Kind (Ident α) (Node α) → Prop} {role role' : Role} {n : Node α}

theorem Grammatical.fits_kind (h : n.Grammatical Ok role) : n.kind.fits role = true := by
  cases h with
  | mk _ fits => exact fits

theorem Grammatical.ok_kind (h : n.Grammatical Ok role) : Ok n.kind := by
  cases h with
  | mk _ _ ok => exact ok

theorem Grammatical.of_mem_parts (h : n.Grammatical Ok role) {p : Role × Node α}
    (hp : p ∈ n.kind.parts) : p.2.Grammatical Ok p.1 := by
  cases h with
  | mk _ _ _ parts => exact parts p hp

/-- A tree with a role has every other role that its root fits. -/
theorem Grammatical.of_fits (h : n.Grammatical Ok role) (hfits : n.kind.fits role' = true) :
    n.Grammatical Ok role' := by
  cases h with
  | mk l _ ok parts => exact .mk l hfits ok parts

end Node

end ScriptAnalysis.Syntax

import ScriptAnalysis.Ast.Conversion

/-!
# Converting into an arena

The nodes of a common tree can be kept in one list while a file is converted. A node is put behind the
nodes that are there, its place is its number, and the numbers of its children stand in its kind; when it
is put, it becomes the parent of its children, and both trees are linked. The functions here are those of
`Ast/Conversion` that return nodes, with the number of a node in the place of the node.
-/

namespace ScriptAnalysis.Ast

open Text (byteLength)

/-- A node in an arena. -/
structure Cell where
  /-- What the node is, with the numbers of its children. -/
  kind : Kind NodeId NodeId
  /-- Where it is. -/
  location : Location
  /-- The number of its parent, once the parent is there. -/
  parent? : Option NodeId

/-- What links the nodes of both trees; of several links from one number the first listed counts. -/
structure Links where
  /-- From the nodes of the common tree to what they come from. -/
  origins : List (NodeId × Syntax.NodeId) := []
  /-- From the nodes of the file's tree to what they have become. -/
  images : List (Syntax.NodeId × NodeId) := []

namespace Links

/-- The node of the file's tree that a common node comes from. -/
def origin? (links : Links) (id : NodeId) : Option Syntax.NodeId := links.origins.lookup id

/-- The common node that a node of the file's tree has become. -/
def image? (links : Links) (id : Syntax.NodeId) : Option NodeId := links.images.lookup id

/-- The links with one more node. A node that may be an image becomes one when its origin has none yet. -/
def add (links : Links) (id : NodeId) (origin : Syntax.NodeId) (isImage : Bool) : Links where
  origins := (id, origin) :: links.origins
  images := if isImage && (links.image? origin).isNone then (origin, id) :: links.images else links.images

end Links

/-- The nodes that have been converted, the number of a node being its place, and the links. -/
structure Arena where
  /-- The nodes. -/
  cells : List Cell := []
  /-- The links. -/
  links : Links := {}

namespace Arena

/-- The nodes with one of them as the parent of another. -/
def adopt (parent : NodeId) (cells : List Cell) (child : NodeId) : List Cell :=
  cells.modify child fun cell => { cell with parent? := some parent }

/-- The arena with one more node, which becomes the parent of its children; it is linked if links are
kept. -/
def put (keep : Bool) (arena : Arena) (kind : Kind NodeId NodeId) (origin : Syntax.NodeId)
    (location : Location) (isImage : Bool) : Arena where
  cells := kind.children.foldl (adopt arena.cells.length) arena.cells ++ [⟨kind, location, none⟩]
  links := if keep then arena.links.add arena.cells.length origin isImage else arena.links

end Arena

namespace Builder

variable (t : Syntax.Tree) (s : Settings)

/-- Puts a node into the arena. -/
def alloc (kind : Kind NodeId NodeId) (span : Span) (origin : Syntax.NodeId) (isImage : Bool) :
    StateM Arena NodeId :=
  modifyGet fun arena =>
    (arena.cells.length, arena.put s.nodeMaps kind origin (s.locate t.lines span) isImage)

/-- Puts a node that covers what its origin covers. -/
def put (p : Syntax.Place) (kind : Kind NodeId NodeId) : StateM Arena NodeId :=
  alloc t s kind p.span p.id true

/-- Puts a name, which extends over its type. -/
def putName (n : Syntax.Ident Syntax.Place) (type? : Option (Syntax.Node Syntax.Place))
    (ascription? : Option NodeId) : StateM Arena NodeId :=
  alloc t s (.identifier n.text ascription?) (type?.elim n.span fun type => n.span.merge type.span) n.id true

mutual

/-- Converts a node. -/
def node : Syntax.Node Syntax.Place → StateM Arena NodeId
  | .mk p k => kind p k

/-- Converts the node with a label and a kind. -/
def kind (p : Syntax.Place) :
    Syntax.Kind (Syntax.Ident Syntax.Place) (Syntax.Node Syntax.Place) → StateM Arena NodeId
  | .sourceFile ss => do put t s p (.program (← list ss))
  | .variableStatement k ds => do put t s p (.variableDeclaration k (← list ds))
  | .variableDeclaration n type? i => do
    let name ← putName t s n type? (← ascription type?)
    put t s p (.variableDeclarator name (← option i))
  | .functionDeclaration n ps type? b => do
    let name ← putName t s n none none
    let params ← list ps
    let returnType? ← ascription type?
    put t s p (.functionDeclaration name params returnType? (← node b))
  | .parameter n type? none => do putName t s n type? (← ascription type?)
  | .parameter n type? (some e) => do
    let left ← putName t s n type? (← ascription type?)
    put t s p (.assignmentPattern left (← node e))
  | .typeAlias n type => do
    let name ← putName t s n none none
    put t s p (.typeAlias name (← node type))
  | .block ss => do put t s p (.blockStatement (← list ss))
  | .expressionStatement e => do put t s p (.expressionStatement (← node e))
  | .returnStatement e => do put t s p (.returnStatement (← option e))
  | .ifStatement c a b => do
    let test ← node c
    let consequent ← node a
    put t s p (.ifStatement test consequent (← option b))
  | .whileStatement c b => do
    let test ← node c
    put t s p (.whileStatement test (← node b))
  | .emptyStatement => put t s p .emptyStatement
  | .identifier text => put t s p (.identifier text none)
  | .numericLiteral text =>
    put t s p (.literal (.number ((Decimal.read? text.toList).getD .nan)) (p.span.textIn t.text.toList))
  | .stringLiteral value => put t s p (.literal (.string value) (p.span.textIn t.text.toList))
  | .trueLiteral => put t s p (.literal (.boolean true) "true")
  | .falseLiteral => put t s p (.literal (.boolean false) "false")
  | .nullLiteral => put t s p (.literal .null "null")
  | .arrayLiteral es => do put t s p (.arrayExpression (← list es))
  | .parenthesized e => node e
  | .arrowFunction ps type? b => do
    let params ← list ps
    let returnType? ← ascription type?
    put t s p (.arrowFunction params returnType? (← node b) (!b.kind.isBlock))
  | .call e as => do
    let callee ← node e
    put t s p (.callExpression callee (← list as))
  | .propertyAccess e n => do
    let object ← node e
    put t s p (.memberExpression object (← putName t s n none none))
  | .prefixUnary op e => do put t s p (.unaryExpression op (← node e))
  | .binary op l r => do
    let left ← node l
    put t s p (.binaryExpression op left (← node r))
  | .keywordType keyword => put t s p (.keywordType keyword)
  | .typeReference n => do put t s p (.typeReference (← putName t s n none none))
  | .arrayType element => do put t s p (.arrayType (← node element))
  | .unionType members => do put t s p (.unionType (← list members))

/-- Converts the ascription around a type, if there is one; it is no image of the type. -/
def ascription : Option (Syntax.Node Syntax.Place) → StateM Arena (Option NodeId)
  | none => pure none
  | some (.mk p k) => do
    let type ← kind p k
    let span := ⟨ascriptionStart t.text.toList p.span.start, p.span.stop⟩
    return some (← alloc t s (.ascription type) span p.id false)

/-- Converts several nodes. -/
def list : List (Syntax.Node Syntax.Place) → StateM Arena (List NodeId)
  | [] => pure []
  | n :: ns => return (← node n) :: (← list ns)

/-- Converts a node, if there is one. -/
def option : Option (Syntax.Node Syntax.Place) → StateM Arena (Option NodeId)
  | none => pure none
  | some n => return some (← node n)

end

/-- Converts a file: the program reaches from the first token to the end of the text. -/
def program : StateM Arena NodeId := do
  let body ← list t s t.statements
  let length := byteLength t.text.toList
  let start := (t.stream.tokens.head?.map (·.span.start)).getD length
  alloc t s (.program body) ⟨start, length⟩ t.root.id true

end Builder

/-- The arena of a file, and the number of the program. -/
def Arena.ofTree (t : Syntax.Tree) (s : Settings) : NodeId × Arena := (Builder.program t s).run {}

end ScriptAnalysis.Ast

import ScriptAnalysis.Ast.Tree
import ScriptAnalysis.Decimal.Read
import ScriptAnalysis.Text.Blank

/-!
# The common tree of a file that has been read

`ofTree` gives a file without syntax errors its common tree and, when asked for, the two maps
between the numbers of both trees. `convert` changes the shape: parentheses vanish, a parameter
without a default value becomes its name, and an ascription gets a node of its own, which starts at
the colon. Every node of the common tree comes from a node of the file's tree; the ascription comes
from its type, and so does the type itself, which is the one that the map back leads to.

Numbering and places come after the change of shape and do not take part in it.
-/

namespace ScriptAnalysis.Ast

open Text (Position LineIndex takeBytes trimEnd byteLength)

/-- What goes into a common tree. -/
structure Settings where
  /-- The text that tokens and comments are cut from. -/
  code : String
  /-- The path that errors report. -/
  filePath : String
  /-- Whether comments are included. -/
  comments : Bool := true
  /-- Whether tokens are included. -/
  tokens : Bool := true
  /-- Whether offsets are included. -/
  ranges : Bool := true
  /-- Whether lines and columns are included. -/
  positions : Bool := true
  /-- Whether the maps between both trees are included. -/
  nodeMaps : Bool := true
  deriving DecidableEq, Repr

namespace Settings

/-- Everything, for a file. -/
def ofTree (t : Syntax.Tree) : Settings := { code := t.text, filePath := t.fileName }

/-- Where a span is, as far as asked for. -/
def locate (s : Settings) (lines : LineIndex) (span : Span) : Location :=
  let position (offset : Nat) : Position := if s.positions then lines.position offset else ⟨0, 0⟩
  { range := if s.ranges then span else ⟨0, 0⟩
    start := position span.start
    stop := position span.stop }

end Settings

/-- Why a file has no common tree: its first syntax error. -/
structure ConversionError where
  /-- The path that is reported. -/
  filePath : String
  /-- The syntax error. -/
  error : Syntax.Error
  /-- The line and column of the error. -/
  position : Position
  deriving DecidableEq, Repr

namespace ConversionError

/-- The sentence that reports the error. -/
def message (e : ConversionError) : String := e.error.cause.message

/-- The offset of the error. -/
def offset (e : ConversionError) : Nat := e.error.span.start

end ConversionError

/-! ### The change of shape -/

/-- Where a node comes from. -/
structure Origin where
  /-- The node of the file's tree. -/
  node : Syntax.NodeId
  /-- What the common node covers. -/
  span : Span
  deriving DecidableEq, Repr

/-- The node itself as an origin. -/
def Origin.ofPlace (p : Syntax.Place) : Origin := ⟨p.id, p.span⟩

/-- Where the ascription around a type starts: at the colon, when nothing but blank characters stands
between it and the type; else with the type, at the offset. -/
def ascriptionStart (source : List Char) (offset : Nat) : Nat :=
  match takeBytes offset source with
  | none => offset
  | some before =>
    let before := trimEnd before
    if before.getLast? = some ':' then byteLength before - 1 else offset

/-- A name with an ascription around a type; the name extends over the type. -/
def ascribedName (n : Syntax.Ident Syntax.Place) (type? : Option (Syntax.Node Syntax.Place))
    (ascription? : Option (Node Origin)) : Name Origin (Node Origin) :=
  ⟨⟨n.id, type?.elim n.span fun t => n.span.merge t.span⟩, n.text, ascription?⟩

/-- A name without an ascription. -/
def plainName (n : Syntax.Ident Syntax.Place) : Name Origin (Node Origin) := ascribedName n none none

mutual

/-- The common shape of a node. -/
def convert (source : List Char) : Syntax.Node Syntax.Place → Node Origin
  | .mk p k => convertKind source p k

/-- The common shape of the node with a label and a kind. -/
def convertKind (source : List Char) (p : Syntax.Place) :
    Syntax.Kind (Syntax.Ident Syntax.Place) (Syntax.Node Syntax.Place) → Node Origin
  | .sourceFile ss => .mk (.ofPlace p) (.program (convertList source ss))
  | .variableStatement k ds => .mk (.ofPlace p) (.variableDeclaration k (convertList source ds))
  | .variableDeclaration n t i =>
    .mk (.ofPlace p) (.variableDeclarator (ascribedName n t (convertAscription source t))
      (convertOption source i))
  | .functionDeclaration n ps t b =>
    .mk (.ofPlace p) (.functionDeclaration (plainName n) (convertList source ps)
      (convertAscription source t) (convert source b))
  | .parameter n t none => (ascribedName n t (convertAscription source t)).toNode
  | .parameter n t (some e) =>
    .mk (.ofPlace p) (.assignmentPattern (ascribedName n t (convertAscription source t))
      (convert source e))
  | .typeAlias n t => .mk (.ofPlace p) (.typeAlias (plainName n) (convert source t))
  | .block ss => .mk (.ofPlace p) (.blockStatement (convertList source ss))
  | .expressionStatement e => .mk (.ofPlace p) (.expressionStatement (convert source e))
  | .returnStatement e => .mk (.ofPlace p) (.returnStatement (convertOption source e))
  | .ifStatement c t e =>
    .mk (.ofPlace p) (.ifStatement (convert source c) (convert source t) (convertOption source e))
  | .whileStatement c b => .mk (.ofPlace p) (.whileStatement (convert source c) (convert source b))
  | .emptyStatement => .mk (.ofPlace p) .emptyStatement
  | .identifier s => .mk (.ofPlace p) (.identifier s none)
  | .numericLiteral s =>
    .mk (.ofPlace p) (.literal (.number ((Decimal.read? s.toList).getD .nan)) (p.span.textIn source))
  | .stringLiteral s => .mk (.ofPlace p) (.literal (.string s) (p.span.textIn source))
  | .trueLiteral => .mk (.ofPlace p) (.literal (.boolean true) "true")
  | .falseLiteral => .mk (.ofPlace p) (.literal (.boolean false) "false")
  | .nullLiteral => .mk (.ofPlace p) (.literal .null "null")
  | .arrayLiteral es => .mk (.ofPlace p) (.arrayExpression (convertList source es))
  | .parenthesized e => convert source e
  | .arrowFunction ps t b =>
    .mk (.ofPlace p) (.arrowFunction (convertList source ps) (convertAscription source t)
      (convert source b) (!b.kind.isBlock))
  | .call e as => .mk (.ofPlace p) (.callExpression (convert source e) (convertList source as))
  | .propertyAccess e n =>
    .mk (.ofPlace p) (.memberExpression (convert source e) (plainName n))
  | .prefixUnary o e => .mk (.ofPlace p) (.unaryExpression o (convert source e))
  | .binary o l r => .mk (.ofPlace p) (.binaryExpression o (convert source l) (convert source r))
  | .keywordType k => .mk (.ofPlace p) (.keywordType k)
  | .typeReference n => .mk (.ofPlace p) (.typeReference (plainName n))
  | .arrayType t => .mk (.ofPlace p) (.arrayType (convert source t))
  | .unionType ts => .mk (.ofPlace p) (.unionType (convertList source ts))

/-- The ascription around a type, if there is one. -/
def convertAscription (source : List Char) :
    Option (Syntax.Node Syntax.Place) → Option (Node Origin)
  | none => none
  | some (.mk p k) =>
    some (.mk ⟨p.id, ascriptionStart source p.span.start, p.span.stop⟩
      (.ascription (convertKind source p k)))

/-- The common shapes of several nodes. -/
def convertList (source : List Char) : List (Syntax.Node Syntax.Place) → List (Node Origin)
  | [] => []
  | n :: ns => convert source n :: convertList source ns

/-- The common shape of a node, if there is one. -/
def convertOption (source : List Char) :
    Option (Syntax.Node Syntax.Place) → Option (Node Origin)
  | none => none
  | some n => some (convert source n)

end

/-- The common shape of a file: the program reaches from the first token to the end of the text. -/
def program (t : Syntax.Tree) : Node Origin :=
  let source := t.text.toList
  let length := byteLength source
  let start := (t.stream.tokens.head?.map (·.span.start)).getD length
  .mk ⟨t.root.id, start, length⟩ (.program (convertList source t.statements))

/-! ### The maps between both trees -/

/-- The two maps between the numbers of a file's tree and of its common tree. -/
structure NodeMaps where
  /-- By number of a common node, the node it comes from. -/
  origins : Array Syntax.NodeId
  /-- By number of a node of the file's tree, the common node it has become. -/
  images : Array (Option NodeId)
  deriving DecidableEq, Repr

namespace NodeMaps

/-- The maps that know no node. -/
def empty : NodeMaps := ⟨#[], #[]⟩

/-- The images with one more node: an ascription is no image, and the first image stays. -/
def addImage (images : Array (Option NodeId)) (e : Entry) : Array (Option NodeId) :=
  if e.node.kind.isAscription then images
  else images.modify e.node.origin fun image? => image?.or (some e.node.id)

/-- The maps for the nodes of a common tree whose file's tree has `size` nodes. -/
def ofEntries (size : Nat) (entries : Array Entry) : NodeMaps :=
  ⟨entries.map (·.node.origin), entries.foldl addImage (Array.replicate size none)⟩

/-- The node of the file's tree that a common node comes from. -/
def origin? (m : NodeMaps) (id : NodeId) : Option Syntax.NodeId := m.origins[id]?

/-- The common node that a node of the file's tree has become. -/
def image? (m : NodeMaps) (id : Syntax.NodeId) : Option NodeId := m.images[id]?.join

/-- Whether both maps know no node. -/
def isEmpty (m : NodeMaps) : Bool := m.origins.isEmpty && m.images.all (·.isNone)

end NodeMaps

/-! ### The whole conversion -/

/-- A common tree and the maps between it and the file's tree. -/
structure Conversion where
  /-- The common tree. -/
  tree : Tree
  /-- The maps. -/
  maps : NodeMaps

namespace Conversion

/-- The tokens of a file. -/
def tokens (t : Syntax.Tree) (s : Settings) : List Token :=
  let code := s.code.toList
  t.stream.tokens.map fun token =>
    ⟨.ofKind token.kind, token.span.textIn code, s.locate t.lines token.span⟩

/-- The comments of a file. -/
def comments (t : Syntax.Tree) (s : Settings) : List Comment :=
  let code := s.code.toList
  t.stream.comments.map fun comment =>
    ⟨comment.kind, String.ofList (comment.body code), s.locate t.lines comment.span⟩

/-- The common tree of a file, or its first syntax error. -/
def ofTree (t : Syntax.Tree) (s : Settings) : Except ConversionError Conversion :=
  match t.errors with
  | error :: _ => .error ⟨s.filePath, error, t.position error.span.start⟩
  | [] =>
    let root := (program t).number fun id o => ⟨id, o.node, s.locate t.lines o.span⟩
    let entries := root.entries
    .ok
      { tree :=
          { root, entries
            comments? := if s.comments then some (comments t s) else none
            tokens? := if s.tokens then some (tokens t s) else none }
        maps := if s.nodeMaps then .ofEntries t.size entries else .empty }

end Conversion

end ScriptAnalysis.Ast

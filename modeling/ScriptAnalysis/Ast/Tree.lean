import ScriptAnalysis.Ast.Node
import ScriptAnalysis.Syntax.Tree

/-!
# The common tree of a file

A common tree with numbered nodes, and the tokens and comments that may go with it. Each node says
which node of the file's own tree it comes from. Nodes are numbered children first and in source
order, so that the program has the largest number; `entries` lists the nodes by number, each with the
number of its parent, and `preorder` lists their numbers, parents first.
-/

namespace ScriptAnalysis.Ast

open Text (Position)

/-- The number of a node of a common tree. -/
abbrev NodeId := Nat

/-- How a program is run. -/
inductive SourceType where
  /-- As a script. -/
  | script
  /-- As a module. -/
  | module
  deriving DecidableEq, Repr

namespace SourceType

/-- The word for how a program is run. -/
def spelling : SourceType → String
  | script => "script"
  | module => "module"

/-- The way of running a program that a word stands for. -/
def ofName? : String → Option SourceType
  | "script" => some script
  | "module" => some module
  | _ => none

@[simp] theorem ofName?_spelling (t : SourceType) : ofName? t.spelling = some t := by
  cases t <;> rfl

end SourceType

/-- Where something is in the text; what is not asked for is zero. -/
structure Location where
  /-- The offsets. -/
  range : Span
  /-- The line and column where it starts. -/
  start : Position
  /-- The line and column where it stops. -/
  stop : Position
  deriving DecidableEq, Repr

/-- The label of a numbered node. -/
structure Place where
  /-- The number of the node. -/
  id : NodeId
  /-- The number of the node of the file's own tree that it comes from. -/
  origin : Syntax.NodeId
  /-- Where it is. -/
  location : Location
  deriving DecidableEq, Repr

/-- The number of a node. -/
def Node.id (n : Node Place) : NodeId := n.label.id

/-- The number of the node that a node comes from. -/
def Node.origin (n : Node Place) : Syntax.NodeId := n.label.origin

/-- Where a node is. -/
def Node.location (n : Node Place) : Location := n.label.location

/-- The number of a name. -/
def Name.id (n : Name Place (Node Place)) : NodeId := n.label.id

/-- What a token is to a rule. -/
inductive TokenType where
  /-- `true` or `false`. -/
  | boolean
  /-- A name. -/
  | identifier
  /-- Any other word with a meaning of its own. -/
  | keyword
  /-- `null`. -/
  | null
  /-- A number. -/
  | numeric
  /-- Everything else. -/
  | punctuator
  /-- A string. -/
  | string
  deriving DecidableEq, Repr

namespace TokenType

/-- What a kind of token is to a rule. -/
def ofKind : TokenKind → TokenType
  | .trueWord | .falseWord => boolean
  | .nullWord => null
  | .identifier => identifier
  | .numericLiteral => numeric
  | .stringLiteral => string
  | kind => if kind.isReservedWord then keyword else punctuator

/-- The name of the type. -/
def name : TokenType → String
  | boolean => "Boolean"
  | identifier => "Identifier"
  | keyword => "Keyword"
  | null => "Null"
  | numeric => "Numeric"
  | punctuator => "Punctuator"
  | string => "String"

end TokenType

/-- A token of a common tree. -/
structure Token where
  /-- What the token is. -/
  type : TokenType
  /-- Its text. -/
  value : String
  /-- Where it is. -/
  location : Location
  deriving DecidableEq, Repr

/-- A comment of a common tree. -/
structure Comment where
  /-- The form of the comment. -/
  kind : CommentKind
  /-- Its text without the delimiters. -/
  value : String
  /-- Where it is. -/
  location : Location
  deriving DecidableEq, Repr

/-- A node with the number of its parent. -/
structure Entry where
  /-- The node. -/
  node : Node Place
  /-- The number of its parent; the program has none. -/
  parent? : Option NodeId

/-- The nodes of a tree under a parent, children before their parent, after the ones already
listed. -/
def Node.entriesOnto (n : Node Place) : Option NodeId → Array Entry → Array Entry :=
  n.fold fun n k parent? listed =>
    (k.children.foldl (fun listed child => child (some n.id) listed) listed).push ⟨n, parent?⟩

/-- The nodes of a tree, children before their parent. -/
def Node.entries (n : Node Place) : Array Entry := n.entriesOnto none #[]

/-- The numbers of the nodes of a tree, parents before their children, in front of others. -/
def Node.preorderOnto (n : Node Place) : List NodeId → List NodeId :=
  n.fold fun n k rest => n.id :: k.children.foldr (fun child rest => child rest) rest

/-- The common tree of a file. -/
structure Tree where
  /-- The program. -/
  root : Node Place
  /-- The nodes by number. -/
  entries : Array Entry
  /-- The comments, when asked for. -/
  comments? : Option (List Comment)
  /-- The tokens, when asked for. -/
  tokens? : Option (List Token)

namespace Tree

/-- How many nodes the tree has. -/
def size (t : Tree) : Nat := t.entries.size

/-- The node with a number. -/
def node? (t : Tree) (id : NodeId) : Option (Node Place) := t.entries[id]?.map (·.node)

/-- The number of the parent of a node. -/
def parent? (t : Tree) (id : NodeId) : Option NodeId := t.entries[id]?.bind (·.parent?)

/-- The statements of the program. -/
def body (t : Tree) : List (Node Place) :=
  match t.root.kind with
  | .program body => body
  | _ => []

/-- How the program says it is run: always as a script, since nothing in the language makes a
module. -/
def sourceType (_ : Tree) : SourceType := .script

/-- The numbers of the nodes, parents before their children and in source order. -/
def preorder (t : Tree) : List NodeId := t.root.preorderOnto []

end Tree

end ScriptAnalysis.Ast

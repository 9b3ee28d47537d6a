import ScriptAnalysis.Syntax.Parser
import ScriptAnalysis.Text.LineIndex

/-!
# The tree of a file

A file that has been read: its tree with numbered nodes, its tokens and comments, and its syntax
errors. Nodes are numbered children first and in source order, so that the root has the largest
number; `entries` lists the nodes by number, each with the number of its parent.
-/

namespace ScriptAnalysis.Syntax

open Text

/-- The number of a node. -/
abbrev NodeId := Nat

/-- The label of a numbered node. -/
structure Place where
  /-- The number of the node. -/
  id : NodeId
  /-- What the node covers. -/
  span : Span
  deriving DecidableEq, Repr

/-- The number of a node. -/
def Node.id (n : Node Place) : NodeId := n.label.id

/-- What a node covers. -/
def Node.span (n : Node Place) : Span := n.label.span

/-- The number of a name. -/
def Ident.id (i : Ident Place) : NodeId := i.label.id

/-- What a name covers. -/
def Ident.span (i : Ident Place) : Span := i.label.span

/-- A node with the number of its parent. -/
structure Entry where
  /-- The node. -/
  node : Node Place
  /-- The number of its parent; the root has none. -/
  parent? : Option NodeId

/-- The nodes of a tree under a parent, children before their parent, after the ones already
listed. -/
def Node.entriesOnto (n : Node Place) : Option NodeId → Array Entry → Array Entry :=
  n.fold fun n k parent? listed =>
    (k.children.foldl (fun listed child => child (some n.id) listed) listed).push ⟨n, parent?⟩

/-- The nodes of a tree, children before their parent. -/
def Node.entries (n : Node Place) : Array Entry := n.entriesOnto none #[]

/-- A file that has been read. -/
structure Tree where
  /-- The path of the file. -/
  fileName : String
  /-- Its text. -/
  text : String
  /-- The node of the whole text. -/
  root : Node Place
  /-- The nodes by number. -/
  entries : Array Entry
  /-- The tokens and comments. -/
  stream : TokenStream
  /-- The syntax errors. -/
  errors : List Error
  /-- The lines of the text. -/
  lines : LineIndex

namespace Tree

/-- The errors of reading the tokens and of reading the tree together: with an error among the tokens
all are put in the order of their places, and those at one place stay in the order they were found. -/
def allErrors (treeErrors tokenErrors : List Error) : List Error :=
  match tokenErrors with
  | [] => treeErrors
  | _ => (treeErrors ++ tokenErrors).mergeSort fun a b => a.span.start ≤ b.span.start

/-- Reads a file. -/
def parse (fileName text : String) : Tree :=
  let stream := TokenStream.ofChars text.toList
  let (node, errors) := parseTokens stream
  let root := node.number Place.mk
  { fileName, text, root, stream
    entries := root.entries
    errors := allErrors errors stream.errors
    lines := .ofChars text.toList }

/-- How many nodes the tree has. -/
def size (t : Tree) : Nat := t.entries.size

/-- The node with a number. -/
def node? (t : Tree) (id : NodeId) : Option (Node Place) := t.entries[id]?.map (·.node)

/-- The number of the parent of a node. -/
def parent? (t : Tree) (id : NodeId) : Option NodeId := t.entries[id]?.bind (·.parent?)

/-- The parent of a node. -/
def parentNode? (t : Tree) (id : NodeId) : Option (Node Place) := (t.parent? id).bind t.node?

/-- The statements of the file. -/
def statements (t : Tree) : List (Node Place) :=
  match t.root.kind with
  | .sourceFile statements => statements
  | _ => []

/-- The text that a node covers. -/
def textOf (t : Tree) (n : Node Place) : String := n.span.textIn t.text.toList

/-- A node and the nodes above it, at most `n` of them; parents have larger numbers, so as many as
the tree has nodes are all. -/
def ancestorsWithin (t : Tree) : Nat → NodeId → List NodeId
  | 0, _ => []
  | n + 1, id =>
    id :: match t.parent? id with
      | none => []
      | some parent => t.ancestorsWithin n parent

/-- A node and the nodes above it, up to the root. -/
def ancestors (t : Tree) (id : NodeId) : List NodeId := t.ancestorsWithin t.size id

/-- The line and column of an offset. -/
def position (t : Tree) (offset : Nat) : Position := t.lines.position offset

end Tree

end ScriptAnalysis.Syntax

import Mathlib.Algebra.Ring.Nat
import ScriptAnalysis.Proofs.Ast.Numbers
import ScriptAnalysis.Proofs.Scoping.Shape

/-!
# Where declarations stand

The walk over a tree is in the scope of a node while it is below the node and below no other one that
opens a scope. `Nearest` finds that node by going up from a declaration, and `Sited` says of actions that
every variable is declared where going up leads, in the scope that is found there or in the one that this
scope has for `var`.
-/

namespace ScriptAnalysis

namespace Ast

variable {α : Type}

/-- Whether the node is a function. -/
def Kind.isFunction {ν β : Type} : Kind ν β → Bool
  | .functionDeclaration .. | .arrowFunction .. => true
  | _ => false

/-- Whether the node is a block. -/
def Kind.isBlock {ν β : Type} : Kind ν β → Bool
  | .blockStatement _ => true
  | _ => false

/-- The statements of a block. -/
def Node.statements (n : Node α) : List (Node α) :=
  match n.kind with
  | .blockStatement body => body
  | _ => []

/-- Whether a node of a tree opens a scope. The body of a function shares the scope of the function. -/
def Tree.opensScope (t : Tree) (n : Node Place) : Bool :=
  match n.kind with
  | .functionDeclaration .. | .arrowFunction .. | .typeAlias .. => true
  | .blockStatement _ => !((t.parent? n.id).bind t.node?).any (·.kind.isFunction)
  | .program _ => (t.parent? n.id).isNone
  | _ => false

/-- The first node above another one that opens a scope. -/
inductive Tree.Nearest (t : Tree) : NodeId → NodeId → Prop where
  /-- The parent opens one. -/
  | parent {i p : NodeId} {n : Node Place} (hparent : t.parent? i = some p) (hn : t.node? p = some n)
    (hopens : t.opensScope n = true) : Nearest t i p
  /-- The parent opens none. -/
  | above {i p b : NodeId} {n : Node Place} (hparent : t.parent? i = some p) (hn : t.node? p = some n)
    (hopens : t.opensScope n = false) (h : Nearest t p b) : Nearest t i b

/-- A common tree that lists the nodes of a program. -/
structure Tree.Indexed (t : Tree) : Prop extends t.Numbered where
  program : t.root.kind = .program t.body

end Ast

namespace Scoping

open Ast

/-! ### The blocks that actions open -/

/-- The nodes that open scopes. -/
def openedBlocks (as : List Action) : List NodeId :=
  as.filterMap fun
    | .openScope _ block _ => some block
    | _ => none

@[simp] theorem openedBlocks_nil : openedBlocks [] = [] := rfl

@[simp] theorem openedBlocks_append (as bs : List Action) :
    openedBlocks (as ++ bs) = openedBlocks as ++ openedBlocks bs := List.filterMap_append

@[simp] theorem openedBlocks_openScope (type : ScopeType) (block : NodeId) (startsStrict : Bool)
    (as : List Action) :
    openedBlocks (.openScope type block startsStrict :: as) = block :: openedBlocks as := rfl

@[simp] theorem openedBlocks_closeScope (as : List Action) :
    openedBlocks (.closeScope :: as) = openedBlocks as := rfl

@[simp] theorem openedBlocks_ofDefinition (isHoisted : Bool) (name : String) (d : Definition) :
    openedBlocks (Action.ofDefinition isHoisted name d) = [] := by
  rw [Action.ofDefinition]
  split <;> rfl

@[simp] theorem openedBlocks_ofReference (name : String) (identifier : NodeId) (use : Use) :
    openedBlocks (Action.ofReference name identifier use) = [] := by
  rw [Action.ofReference]
  split <;> rfl

mutual

theorem openedBlocks_ofType : (n : Node Place) → openedBlocks (Action.ofType n) = []
  | .mk _ k => by
    cases k <;>
      simp [Action.ofType, openedBlocks_ofType, openedBlocks_ofTypes]

theorem openedBlocks_ofTypes : (ns : List (Node Place)) → openedBlocks (Action.ofTypes ns) = []
  | [] => rfl
  | n :: ns => by simp [Action.ofTypes, openedBlocks_ofType n, openedBlocks_ofTypes ns]

end

@[simp] theorem openedBlocks_ofType? (n? : Option (Node Place)) :
    openedBlocks (Action.ofType? n?) = [] := by
  cases n? with
  | none => rfl
  | some n => exact openedBlocks_ofType n

@[simp] theorem openedBlocks_binaryExpression (l : Place) (op : Syntax.BinaryOperator)
    (left right : Node Place) :
    openedBlocks (Action.ofNode (.mk l (.binaryExpression op left right))) =
      openedBlocks (Action.ofNode left) ++ openedBlocks (Action.ofNode right) := by
  obtain ⟨l', k⟩ := left
  cases k with
  | identifier name type? =>
    simp only [Action.ofNode, openedBlocks_append]
    split <;> simp
  | _ => simp [Action.ofNode]

theorem ofBody_of_isBlock {n : Node Place} (h : n.kind.isBlock = true) :
    Action.ofBody n = Action.ofNodes n.statements := by
  obtain ⟨l, k⟩ := n
  cases k <;> simp [Kind.isBlock] at h
  rw [Action.ofBody]
  rfl

/-- A body that is no block is an expression. -/
theorem ofBody_of_not_isBlock {n : Node Place} (h : n.kind.isBlock = false) :
    Action.ofBody n = Action.ofNode n := by
  obtain ⟨l, k⟩ := n
  cases k with
  | blockStatement body => cases h
  | _ => simp [Action.ofBody]

/-! ### Every node opens a scope once -/

/-- How often a number stands in a tree. -/
def occurrences (i : NodeId) (n : Node Place) : Nat := (n.labels.map Place.id).count i

section

variable (i : NodeId)

theorem occurrences_eq (n : Node Place) :
    occurrences i n = [n.id].count i + (n.children.map (occurrences i)).sum := by
  have hchildren : ((n.children.map Node.labels).flatten.map Place.id).count i =
      (n.children.map (occurrences i)).sum := by
    induction n.children with
    | nil => rfl
    | cons c cs ih =>
      rw [List.map_cons, List.flatten_cons, List.map_append, List.count_append, ih, List.map_cons, List.sum_cons,
        occurrences]
  rw [occurrences, Node.labels_eq, List.map_append, List.count_append, hchildren, Nat.add_comm]
  rfl

theorem occurrences_mk (l : Place) (k : Kind (Name Place (Node Place)) (Node Place)) :
    occurrences i (.mk l k) =
      [l.id].count i + ((k.map Name.toNode id).children.map (occurrences i)).sum :=
  occurrences_eq i (.mk l k)

/-- The body of a function opens no more scopes than it would as a statement. -/
theorem count_openedBlocks_ofBody {n : Node Place} (h : (openedBlocks (Action.ofNode n)).count i ≤ occurrences i n) :
    (openedBlocks (Action.ofBody n)).count i ≤ occurrences i n := by
  obtain ⟨l, k⟩ := n
  cases k
  case blockStatement body =>
    rw [Action.ofNode, openedBlocks_openScope, openedBlocks_append, openedBlocks_closeScope, List.count_cons,
      List.count_append] at h
    rw [Action.ofBody]
    omega
  all_goals
    rw [ofBody_of_not_isBlock rfl]
    exact h

mutual

theorem count_openedBlocks_ofNode : (n : Node Place) →
    (openedBlocks (Action.ofNode n)).count i ≤ occurrences i n
  | .mk l k => by
    cases k
    case' program body => have h := count_openedBlocks_ofNodes body
    case' variableDeclaration keyword declarators =>
      have h := count_openedBlocks_ofDeclarators (!keyword.isBlockScoped) l.id declarators
    case' variableDeclarator init? => have h := count_openedBlocks_ofNode? init?
    case' functionDeclaration params _ body =>
      have hparams := count_openedBlocks_ofParams l.id params
      have hbody := count_openedBlocks_ofBody i (count_openedBlocks_ofNode body)
    case' arrowFunction params _ body _ =>
      have hparams := count_openedBlocks_ofParams l.id params
      have hbody := count_openedBlocks_ofBody i (count_openedBlocks_ofNode body)
    case' blockStatement body => have h := count_openedBlocks_ofNodes body
    case' expressionStatement expr => have h := count_openedBlocks_ofNode expr
    case' returnStatement argument? => have h := count_openedBlocks_ofNode? argument?
    case' ifStatement test consequent alternate? =>
      have htest := count_openedBlocks_ofNode test
      have hconsequent := count_openedBlocks_ofNode consequent
      have halternate := count_openedBlocks_ofNode? alternate?
    case' whileStatement test body =>
      have htest := count_openedBlocks_ofNode test
      have hbody := count_openedBlocks_ofNode body
    case' arrayExpression elements => have h := count_openedBlocks_ofNodes elements
    case' callExpression callee arguments =>
      have hcallee := count_openedBlocks_ofNode callee
      have harguments := count_openedBlocks_ofNodes arguments
    case' memberExpression object _ => have h := count_openedBlocks_ofNode object
    case' unaryExpression _ argument => have h := count_openedBlocks_ofNode argument
    case' binaryExpression op left right =>
      have hleft := count_openedBlocks_ofNode left
      have hright := count_openedBlocks_ofNode right
      rw [openedBlocks_binaryExpression]
    case' assignmentPattern _ right => have h := count_openedBlocks_ofNode right
    all_goals
      simp only [Action.ofNode, openedBlocks_append, openedBlocks_openScope, openedBlocks_closeScope,
        openedBlocks_nil, openedBlocks_ofDefinition, openedBlocks_ofReference, openedBlocks_ofType,
        openedBlocks_ofTypes, openedBlocks_ofType?, List.nil_append, List.append_nil, List.count_append,
        List.count_cons, List.count_nil, occurrences_mk, Kind.map, Kind.children, List.map_cons,
        List.map_append, List.map_id, Option.map_id, id, List.sum_cons, List.sum_append]
      omega

theorem count_openedBlocks_ofNodes : (ns : List (Node Place)) →
    (openedBlocks (Action.ofNodes ns)).count i ≤ (ns.map (occurrences i)).sum
  | [] => by
    rw [Action.ofNodes]
    exact Nat.zero_le _
  | n :: ns => by
    rw [Action.ofNodes, openedBlocks_append, List.count_append, List.map_cons, List.sum_cons]
    exact Nat.add_le_add (count_openedBlocks_ofNode n) (count_openedBlocks_ofNodes ns)

theorem count_openedBlocks_ofNode? : (n? : Option (Node Place)) →
    (openedBlocks (Action.ofNode? n?)).count i ≤ (n?.toList.map (occurrences i)).sum
  | none => by
    rw [Action.ofNode?]
    exact Nat.zero_le _
  | some n => by
    rw [Action.ofNode?]
    exact Nat.le_add_right_of_le (count_openedBlocks_ofNode n)

theorem count_openedBlocks_ofDeclarators (isHoisted : Bool) (declaration : NodeId) :
    (ns : List (Node Place)) → (openedBlocks (Action.ofDeclarators isHoisted declaration ns)).count i ≤
      (ns.map (occurrences i)).sum
  | [] => by
    rw [Action.ofDeclarators]
    exact Nat.zero_le _
  | .mk l k :: ns => by
    have hns := count_openedBlocks_ofDeclarators isHoisted declaration ns
    rw [List.map_cons, List.sum_cons]
    cases k
    case variableDeclarator name init? =>
      cases init?
      case' some init => have hinit := count_openedBlocks_ofNode init
      all_goals
        simp only [Action.ofDeclarators, openedBlocks_append, openedBlocks_ofDefinition, openedBlocks_ofReference,
          openedBlocks_ofType?, List.nil_append, List.count_append, occurrences_mk, Kind.map, Kind.children,
          Option.map_some, Option.toList_some, List.map_cons, id, List.sum_cons]
        omega
    all_goals
      simp only [Action.ofDeclarators]
      omega

theorem count_openedBlocks_ofParams (function : NodeId) : (ns : List (Node Place)) →
    (openedBlocks (Action.ofParams function ns)).count i ≤ (ns.map (occurrences i)).sum
  | [] => by
    rw [Action.ofParams]
    exact Nat.zero_le _
  | .mk l k :: ns => by
    have hns := count_openedBlocks_ofParams function ns
    rw [List.map_cons, List.sum_cons]
    cases k
    case' assignmentPattern name value => have hvalue := count_openedBlocks_ofNode value
    all_goals
      simp only [Action.ofParams, openedBlocks_append, openedBlocks_ofDefinition, openedBlocks_ofReference,
        openedBlocks_ofType?, List.nil_append, List.count_append, occurrences_mk, Kind.map, Kind.children,
        List.map_cons, id, List.sum_cons]
      omega

end

end

/-! ### The nodes that definitions stand in -/

/-- A declaration of variables stands in a node that opens a scope. -/
structure DeclaredIn (t : Tree) (b : NodeId) (isHoisted : Bool) (declaration : NodeId) : Prop where
  /-- The keyword of the declaration says where its variables belong. -/
  node : ∃ l keyword declarators, t.node? declaration = some (.mk l (.variableDeclaration keyword declarators)) ∧
    isHoisted = !keyword.isBlockScoped
  /-- No other node that opens a scope is between. -/
  nearest : t.Nearest declaration b

/-- Actions inside the scope of a node: what they declare stands there or in a node whose scope they
open and close. -/
inductive Sited (t : Tree) : NodeId → List Action → Prop where
  /-- No action. -/
  | nil {b : NodeId} : Sited t b []
  /-- A declared name. -/
  | define {b : NodeId} (isHoisted : Bool) (name : String) (d : Definition) {as : List Action}
    (hd : ∀ declaration, d.kind = .variableOf declaration → DeclaredIn t b isHoisted declaration)
    (h : Sited t b as) : Sited t b (.define isHoisted name d :: as)
  /-- A reference. -/
  | refer {b : NodeId} (name : String) (identifier : NodeId) (use : Use) {as : List Action}
    (h : Sited t b as) : Sited t b (.refer name identifier use :: as)
  /-- A scope. -/
  | scope {b : NodeId} (type : ScopeType) {n : Node Place} (startsStrict : Bool) {as bs : List Action}
    (hn : t.node? n.id = some n) (hopens : t.opensScope n = true) (hne : n.id ≠ t.root.id)
    (has : Sited t n.id as) (hbs : Sited t b bs) :
    Sited t b (.openScope type n.id startsStrict :: (as ++ .closeScope :: bs))

section

variable {t : Tree} {b : NodeId} {as bs : List Action}

theorem Sited.append (has : Sited t b as) (hbs : Sited t b bs) : Sited t b (as ++ bs) := by
  induction has with
  | nil => exact hbs
  | define isHoisted name d hd _ ih => exact .define isHoisted name d hd (ih hbs)
  | refer name identifier use _ ih => exact .refer name identifier use (ih hbs)
  | scope type startsStrict hn hopens hne has' _ _ ih =>
    rw [List.cons_append, List.append_assoc, List.cons_append]
    exact .scope type startsStrict hn hopens hne has' (ih hbs)

/-- Actions in a scope and nothing else. -/
theorem Sited.enclosed {n : Node Place} (has : Sited t n.id as) (type : ScopeType) (startsStrict : Bool)
    (hn : t.node? n.id = some n) (hopens : t.opensScope n = true) (hne : n.id ≠ t.root.id) :
    Sited t b (.openScope type n.id startsStrict :: (as ++ [.closeScope])) :=
  .scope type startsStrict hn hopens hne has .nil

theorem sited_ofDefinition (isHoisted : Bool) (name : String) (d : Definition)
    (hd : ∀ declaration, d.kind = .variableOf declaration → DeclaredIn t b isHoisted declaration) :
    Sited t b (Action.ofDefinition isHoisted name d) := by
  rw [Action.ofDefinition]
  split
  · exact .nil
  · exact .define isHoisted name d hd .nil

theorem sited_ofReference (name : String) (identifier : NodeId) (use : Use) :
    Sited t b (Action.ofReference name identifier use) := by
  rw [Action.ofReference]
  split
  · exact .nil
  · exact .refer name identifier use .nil

mutual

theorem sited_ofType : (n : Node Place) → Sited t b (Action.ofType n)
  | .mk _ k => by
    cases k
    case ascription type | arrayType type =>
      rw [Action.ofType]
      exact sited_ofType type
    case typeReference name =>
      rw [Action.ofType]
      exact sited_ofReference name.text name.id .readType
    case unionType members =>
      rw [Action.ofType]
      exact sited_ofTypes members
    all_goals
      simp only [Action.ofType]
      exact .nil

theorem sited_ofTypes : (ns : List (Node Place)) → Sited t b (Action.ofTypes ns)
  | [] => by
    rw [Action.ofTypes]
    exact .nil
  | n :: ns => by
    rw [Action.ofTypes]
    exact (sited_ofType n).append (sited_ofTypes ns)

end

theorem sited_ofType? : (n? : Option (Node Place)) → Sited t b (Action.ofType? n?)
  | none => .nil
  | some n => sited_ofType n

/-- A node of a tree whose actions stand in the scope of another one. -/
structure Stands (t : Tree) (b : NodeId) (n : Node Place) : Prop where
  /-- The node belongs to the tree. -/
  mem : n ∈ t.root.nodes
  /-- The other node is the nearest that opens a scope. -/
  nearest : t.Nearest n.id b
  /-- The node is not the body of a function. -/
  block : n.kind.isBlock = true → t.opensScope n = true

namespace Stands

variable {n c : Node Place}

theorem id_ne_root (ht : t.Indexed) (h : Stands t b n) : n.id ≠ t.root.id := by
  intro hid
  obtain ⟨hparent, -⟩ | ⟨hparent, -⟩ := h.nearest <;>
  · rw [hid, ht.parent?_root] at hparent
    cases hparent

theorem mem_child (hn : n ∈ t.root.nodes) (hc : c ∈ n.children) : c ∈ t.root.nodes :=
  Node.nodes_subset_of_mem_nodes hn (Node.nodes_subset_of_mem_children hc c.mem_nodes_self)

/-- A block that is not the body of a function opens a scope. -/
theorem opensScope_child (ht : t.Indexed) (hn : n ∈ t.root.nodes) (hfunction : n.kind.isFunction = false)
    (hc : c ∈ n.children) (hblock : c.kind.isBlock = true) : t.opensScope c = true := by
  obtain ⟨l, k⟩ := c
  cases k <;> simp [Kind.isBlock] at hblock
  have hparent := ht.parent?_id hn hc
  have hnode := ht.node?_id hn
  simp only [Node.id, Node.label_mk] at hparent hnode
  simp [Tree.opensScope, Node.id, hparent, hnode, hfunction]

/-- The children of a node that opens no scope stand where the node does. -/
theorem below (ht : t.Indexed) (hn : n ∈ t.root.nodes) (hnearest : t.Nearest n.id b)
    (hopens : t.opensScope n = false) (hc : c ∈ n.children) : Stands t b c where
  mem := mem_child hn hc
  nearest := .above (ht.parent?_id hn hc) (ht.node?_id hn) hopens hnearest
  block := by
    refine opensScope_child ht hn ?_ hc
    obtain ⟨l, k⟩ := n
    cases k <;> first | rfl | cases hopens

theorem child (ht : t.Indexed) (h : Stands t b n) (hopens : t.opensScope n = false) (hc : c ∈ n.children) :
    Stands t b c := below ht h.mem h.nearest hopens hc

/-- The children of a node that opens a scope stand in this node. -/
theorem inside (ht : t.Indexed) (hn : n ∈ t.root.nodes) (hopens : t.opensScope n = true)
    (hfunction : n.kind.isFunction = false) (hc : c ∈ n.children) : Stands t n.id c where
  mem := mem_child hn hc
  nearest := .parent (ht.parent?_id hn hc) (ht.node?_id hn) hopens
  block := opensScope_child ht hn hfunction hc

end Stands

/-- A child of a function that is no block, or the block that is its body, stands in the function. -/
theorem nearest_child {n c : Node Place} (ht : t.Indexed) (hn : n ∈ t.root.nodes)
    (hopens : t.opensScope n = true) (hc : c ∈ n.children) : t.Nearest c.id n.id :=
  .parent (ht.parent?_id hn hc) (ht.node?_id hn) hopens

/-- The body of a function opens no scope of its own. -/
theorem opensScope_body {n c : Node Place} (ht : t.Indexed) (hn : n ∈ t.root.nodes)
    (hfunction : n.kind.isFunction = true) (hc : c ∈ n.children) (hblock : c.kind.isBlock = true) :
    t.opensScope c = false := by
  obtain ⟨l, k⟩ := c
  cases k <;> simp [Kind.isBlock] at hblock
  have hparent := ht.parent?_id hn hc
  have hnode := ht.node?_id hn
  simp only [Node.id, Node.label_mk] at hparent hnode
  simp [Tree.opensScope, Node.id, hparent, hnode, hfunction]

theorem mem_children_mk_iff {l : Place} {k : Kind (Name Place (Node Place)) (Node Place)} {c : Node Place} :
    c ∈ (Node.mk l k).children ↔ c ∈ (k.map Name.toNode id).children := Iff.rfl

/-- What the parameters, the types and the body of a function declare stands in the function. -/
theorem Stands.enclosed {n : Node Place} (h : Stands t b n) (ht : t.Indexed) (hopens : t.opensScope n = true)
    (startsStrict : Bool) {params types body : List Action} (hparams : Sited t n.id params)
    (htypes : Sited t n.id types) (hbody : Sited t n.id body) :
    Sited t b (.openScope .function n.id startsStrict :: (params ++ (types ++ (body ++ [.closeScope])))) := by
  rw [← List.append_assoc, ← List.append_assoc]
  exact ((hparams.append htypes).append hbody).enclosed .function startsStrict (ht.node?_id h.mem) hopens
    (h.id_ne_root ht)

/-- What the body of a function declares stands in the function. -/
theorem sited_ofBody {n : Node Place}
    (hnode : n.kind.isBlock = false → Sited t b (Action.ofNode n))
    (hblock : n.kind.isBlock = true → Sited t b (Action.ofNodes n.statements)) :
    Sited t b (Action.ofBody n) := by
  cases h : n.kind.isBlock with
  | false =>
    rw [ofBody_of_not_isBlock h]
    exact hnode h
  | true =>
    rw [ofBody_of_isBlock h]
    exact hblock h

mutual

/-- What a node declares stands where the node stands or inside. -/
theorem sited_ofNode (ht : t.Indexed) : (n : Node Place) → {b : NodeId} → Stands t b n →
    Sited t b (Action.ofNode n)
  | .mk l k, b, h => by
    have hchild {c : Node Place} (hopens : t.opensScope (.mk l k) = false)
        (hc : c ∈ (k.map Name.toNode id).children) : Stands t b c := h.child ht hopens hc
    cases k
    case program body =>
      have hopens : t.opensScope (.mk l (.program body)) = false := by
        obtain ⟨hparent, -⟩ | ⟨hparent, -⟩ := h.nearest <;> simp [Tree.opensScope, hparent]
      rw [Action.ofNode]
      exact sited_ofNodes ht body fun n hn => hchild hopens (by simpa [Kind.map, Kind.children] using hn)
    case variableDeclaration keyword declarators =>
      rw [Action.ofNode]
      refine sited_ofDeclarators ht _ _ ⟨⟨_, _, _, ht.node?_id h.mem, rfl⟩, h.nearest⟩ declarators
        fun n hn => ?_
      exact hchild rfl (by simpa [Kind.map, Kind.children] using hn)
    case variableDeclarator name init? =>
      rw [Action.ofNode]
      refine sited_ofNode? ht init? fun n hn => ?_
      exact hchild rfl (by simpa [Kind.map, Kind.children] using .inr hn)
    case functionDeclaration name params returnType? body =>
      have hbelow : ∀ c ∈ (Node.mk l (.functionDeclaration name params returnType? body)).children,
          c ∈ t.root.nodes ∧ t.Nearest c.id l.id := fun c hc =>
        ⟨Stands.mem_child h.mem hc, nearest_child ht h.mem rfl hc⟩
      have hparams := sited_ofParams ht l.id params fun c hc =>
        hbelow c (mem_children_mk_iff.mpr (by simp [Kind.map, Kind.children, hc]))
      have hchild : body ∈ (Node.mk l (.functionDeclaration name params returnType? body)).children :=
        mem_children_mk_iff.mpr (by simp [Kind.map, Kind.children])
      obtain ⟨hmem, hnearest⟩ := hbelow body hchild
      have hbody : Sited t l.id (Action.ofBody body) :=
        sited_ofBody (fun hblock => sited_ofNode ht body ⟨hmem, hnearest, by simp [hblock]⟩)
          fun hblock => sited_block ht body hmem hnearest (opensScope_body ht h.mem rfl hchild hblock)
      rw [Action.ofNode]
      refine (sited_ofDefinition _ _ _ (fun _ heq => by cases heq)).append ?_
      exact h.enclosed ht rfl _ hparams (sited_ofType? _) hbody
    case arrowFunction params returnType? body isExpression =>
      have hbelow : ∀ c ∈ (Node.mk l (.arrowFunction params returnType? body isExpression)).children,
          c ∈ t.root.nodes ∧ t.Nearest c.id l.id := fun c hc =>
        ⟨Stands.mem_child h.mem hc, nearest_child ht h.mem rfl hc⟩
      have hparams := sited_ofParams ht l.id params fun c hc =>
        hbelow c (mem_children_mk_iff.mpr (by simp [Kind.map, Kind.children, hc]))
      have hchild : body ∈ (Node.mk l (.arrowFunction params returnType? body isExpression)).children :=
        mem_children_mk_iff.mpr (by simp [Kind.map, Kind.children])
      obtain ⟨hmem, hnearest⟩ := hbelow body hchild
      have hbody : Sited t l.id (Action.ofBody body) :=
        sited_ofBody (fun hblock => sited_ofNode ht body ⟨hmem, hnearest, by simp [hblock]⟩)
          fun hblock => sited_block ht body hmem hnearest (opensScope_body ht h.mem rfl hchild hblock)
      rw [Action.ofNode]
      exact h.enclosed ht rfl _ hparams (sited_ofType? _) hbody
    case typeAlias name type =>
      rw [Action.ofNode]
      exact (sited_ofDefinition _ _ _ (fun _ heq => by cases heq)).append
        ((sited_ofType type).enclosed _ _ (ht.node?_id h.mem) rfl (h.id_ne_root ht))
    case blockStatement body =>
      have hbody := sited_ofNodes ht body fun c hc =>
        .inside ht h.mem (h.block rfl) rfl (mem_children_mk_iff.mpr (by simpa [Kind.map, Kind.children] using hc))
      rw [Action.ofNode]
      exact hbody.enclosed _ _ (ht.node?_id h.mem) (h.block rfl) (h.id_ne_root ht)
    case expressionStatement | unaryExpression | memberExpression | assignmentPattern =>
      simp only [Action.ofNode]
      exact sited_ofNode ht _ (hchild rfl (by simp [Kind.map, Kind.children]))
    case returnStatement argument? =>
      rw [Action.ofNode]
      exact sited_ofNode? ht argument? fun n hn => hchild rfl (by simpa [Kind.map, Kind.children] using hn)
    case ifStatement test consequent alternate? =>
      rw [Action.ofNode]
      refine (sited_ofNode ht test (hchild rfl ?_)).append
        ((sited_ofNode ht consequent (hchild rfl ?_)).append
          (sited_ofNode? ht alternate? fun n hn => hchild rfl ?_))
      · simp [Kind.map, Kind.children]
      · simp [Kind.map, Kind.children]
      · simpa [Kind.map, Kind.children] using .inr (.inr hn)
    case whileStatement test body =>
      rw [Action.ofNode]
      exact (sited_ofNode ht test (hchild rfl (by simp [Kind.map, Kind.children]))).append
        (sited_ofNode ht body (hchild rfl (by simp [Kind.map, Kind.children])))
    case identifier name type? =>
      rw [Action.ofNode]
      exact sited_ofReference _ _ _
    case arrayExpression elements =>
      rw [Action.ofNode]
      exact sited_ofNodes ht elements fun n hn => hchild rfl (by simpa [Kind.map, Kind.children] using hn)
    case callExpression callee arguments =>
      rw [Action.ofNode]
      refine (sited_ofNode ht callee (hchild rfl ?_)).append
        (sited_ofNodes ht arguments fun n hn => hchild rfl ?_)
      · simp [Kind.map, Kind.children]
      · simpa [Kind.map, Kind.children] using .inr hn
    case binaryExpression op left right =>
      have hleft := sited_ofNode ht left (hchild rfl (by simp [Kind.map, Kind.children]))
      have hright := sited_ofNode ht right (hchild rfl (by simp [Kind.map, Kind.children]))
      obtain ⟨l', k⟩ := left
      cases k
      case identifier name type? =>
        rw [Action.ofNode]
        refine .append ?_ hright
        split
        · exact sited_ofReference _ _ _
        · exact hleft
      all_goals
        rw [Action.ofNode]
        · exact hleft.append hright
        · simp
    case ascription type | arrayType type =>
      rw [Action.ofNode]
      exact sited_ofType type
    case typeReference name =>
      rw [Action.ofNode]
      exact sited_ofReference _ _ _
    case unionType members =>
      rw [Action.ofNode]
      exact sited_ofTypes members
    all_goals
      rw [Action.ofNode]
      exact .nil

theorem sited_ofNodes (ht : t.Indexed) : (ns : List (Node Place)) → {b : NodeId} →
    (∀ n ∈ ns, Stands t b n) → Sited t b (Action.ofNodes ns)
  | [], _, _ => by
    rw [Action.ofNodes]
    exact .nil
  | n :: ns, _, h => by
    rw [Action.ofNodes]
    exact (sited_ofNode ht n (h n List.mem_cons_self)).append
      (sited_ofNodes ht ns fun m hm => h m (List.mem_cons_of_mem _ hm))

theorem sited_ofNode? (ht : t.Indexed) : (n? : Option (Node Place)) → {b : NodeId} →
    (∀ n ∈ n?, Stands t b n) → Sited t b (Action.ofNode? n?)
  | none, _, _ => by
    rw [Action.ofNode?]
    exact .nil
  | some n, _, h => by
    rw [Action.ofNode?]
    exact sited_ofNode ht n (h n rfl)

/-- What a block declares that opens no scope stands where the block does. -/
theorem sited_block (ht : t.Indexed) : (n : Node Place) → {b : NodeId} → n ∈ t.root.nodes →
    t.Nearest n.id b → t.opensScope n = false → Sited t b (Action.ofNodes n.statements)
  | .mk l k, b, hn, hnearest, hopens => by
    cases k
    case blockStatement body =>
      exact sited_ofNodes ht body fun c hc =>
        .below ht hn hnearest hopens (mem_children_mk_iff.mpr (by simpa [Kind.map, Kind.children] using hc))
    all_goals
      show Sited t b (Action.ofNodes [])
      rw [Action.ofNodes]
      exact .nil

theorem sited_ofDeclarators (ht : t.Indexed) (isHoisted : Bool) (declaration : NodeId) {b : NodeId}
    (hd : DeclaredIn t b isHoisted declaration) : (ns : List (Node Place)) → (∀ n ∈ ns, Stands t b n) →
    Sited t b (Action.ofDeclarators isHoisted declaration ns)
  | [], _ => by
    rw [Action.ofDeclarators]
    exact .nil
  | .mk l k :: ns, h => by
    have hns := sited_ofDeclarators ht isHoisted declaration hd ns fun m hm => h m (List.mem_cons_of_mem _ hm)
    cases k
    case variableDeclarator name init? =>
      have hname := sited_ofDefinition (t := t) (b := b) isHoisted name.text
        ⟨.variableOf declaration, name.id, l.id⟩ fun declaration' heq => by
          cases heq
          exact hd
      cases init? with
      | none =>
        rw [Action.ofDeclarators]
        exact hname.append ((sited_ofType? _).append hns)
      | some init =>
        have hinit := sited_ofNode ht init ((h _ List.mem_cons_self).child ht rfl
          (mem_children_mk_iff.mpr (by simp [Kind.map, Kind.children])))
        rw [Action.ofDeclarators]
        exact hname.append ((sited_ofType? _).append ((sited_ofReference _ _ _).append (hinit.append hns)))
    all_goals
      simp only [Action.ofDeclarators]
      exact hns

theorem sited_ofParams (ht : t.Indexed) (function : NodeId) : (ns : List (Node Place)) →
    (∀ n ∈ ns, n ∈ t.root.nodes ∧ t.Nearest n.id function) →
    Sited t function (Action.ofParams function ns)
  | [], _ => by
    rw [Action.ofParams]
    exact .nil
  | .mk l k :: ns, h => by
    have hns := sited_ofParams ht function ns fun m hm => h m (List.mem_cons_of_mem _ hm)
    obtain ⟨hn, hnearest⟩ := h _ List.mem_cons_self
    cases k
    case assignmentPattern name value =>
      have hvalue := sited_ofNode ht value (.below ht hn hnearest rfl
        (mem_children_mk_iff.mpr (by simp [Kind.map, Kind.children])))
      rw [Action.ofParams]
      exact (sited_ofDefinition _ _ _ (fun _ heq => by cases heq)).append ((sited_ofType? _).append
        ((sited_ofReference _ _ _).append (hvalue.append hns)))
    case identifier name type? =>
      rw [Action.ofParams]
      exact (sited_ofDefinition _ _ _ (fun _ heq => by cases heq)).append ((sited_ofType? _).append hns)
    all_goals
      simp only [Action.ofParams]
      exact hns

end

/-- Only nodes that open scopes are opened. -/
theorem Sited.opensScope (h : Sited t b as) {i : NodeId} (hi : i ∈ openedBlocks as) :
    ∃ n, t.node? i = some n ∧ t.opensScope n = true := by
  induction h with
  | nil => cases hi
  | define _ _ _ _ _ ih => exact ih hi
  | refer _ _ _ _ ih => exact ih hi
  | scope _ _ hn hopens _ _ _ ihas ihbs =>
    rw [openedBlocks_openScope, openedBlocks_append, openedBlocks_closeScope, List.mem_cons,
      List.mem_append] at hi
    rcases hi with rfl | hi | hi
    · exact ⟨_, hn, hopens⟩
    · exact ihas hi
    · exact ihbs hi

/-! ### The statements of a program -/

theorem children_root (ht : t.Indexed) : t.root.children = t.body := by
  rw [Node.children, Node.shape, ht.program]
  simp [Kind.map, Kind.children]

/-- A program opens the outermost scope. -/
theorem opensScope_root (ht : t.Indexed) : t.opensScope t.root = true := by
  simp [Tree.opensScope, ht.program, ht.parent?_root]

/-- The statements of a program stand in the program. -/
theorem sited_body (ht : t.Indexed) : Sited t t.root.id (Action.ofNodes t.body) := by
  refine sited_ofNodes ht t.body fun n hn => ?_
  exact .inside ht t.root.mem_nodes_self (opensScope_root ht) (by rw [ht.program]; rfl)
    ((children_root ht).symm ▸ hn)

/-- The statements of a program open a scope for a node at most once, and none for the program. -/
theorem nodup_openedBlocks_body (ht : t.Indexed) :
    (t.root.id :: openedBlocks (Action.ofNodes t.body)).Nodup := by
  refine List.nodup_iff_count_le_one.mpr fun i => ?_
  have hids := List.nodup_iff_count_le_one.mp ht.nodup_ids i
  have hbody := count_openedBlocks_ofNodes i t.body
  have hroot := occurrences_eq i t.root
  rw [children_root ht] at hroot
  rw [← Node.map_id_labels, ← occurrences, hroot, List.count_singleton] at hids
  rw [List.count_cons]
  omega

end

end Scoping

end ScriptAnalysis

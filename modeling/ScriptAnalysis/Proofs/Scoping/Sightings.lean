import ScriptAnalysis.Proofs.Ast.Slots
import ScriptAnalysis.Proofs.Scoping.Sites

/-!
# What the walk does with names

The slot of a name says what the walk has to do with it: declare it, give it its first value, use it, name a
type with it, or nothing. `Node.seen` collects that over a tree. The actions of a grammatical tree do just
that, as often as the tree says (`walks`, `perm_sightings_ofProgram`): no part of the tree is left out, and
none is gone through twice.
-/

namespace ScriptAnalysis

open Scoping

namespace Scoping

/-- What the walk does with a name. -/
inductive Sighting where
  /-- The name is declared. -/
  | declared
  /-- What has the name gets its first value. -/
  | given (value : Ast.NodeId)
  /-- What has the name is read or gets a new value. -/
  | used
  /-- The name is the name of a type. -/
  | namesType
  deriving DecidableEq, Repr

/-- What a reference does with its name. -/
def Sighting.ofUse : Use → Sighting
  | .firstWrite value => given value
  | .readType => namesType
  | .read | .write _ | .update _ => used

/-- What an action does with a name. -/
def Action.sighting? : Action → Option (Ast.NodeId × Sighting)
  | openScope .. | closeScope => none
  | define _ _ definition => some (definition.name, .declared)
  | refer _ identifier use => some (identifier, .ofUse use)

/-- What actions do with names, in order. -/
def sightings (as : List Action) : List (Ast.NodeId × Sighting) := as.filterMap Action.sighting?

end Scoping

namespace Ast

/-- What the walk has to do with a name in a slot. -/
def Slot.sightings : Slot (Node Place) → List Sighting
  | binding none | name | parameter => [.declared]
  | binding (some value) => [.declared, .given value.id]
  | member => []
  | typeName => [.namesType]
  | statement | body | expression | type | declarator => [.used]

namespace Node

/-- What the walk has to do with the node itself. -/
def seenAs (n : Node Place) (slot : Slot (Node Place)) : List (NodeId × Sighting) :=
  if n.kind.isIdentifier then slot.sightings.map (n.id, ·) else []

/-- What the walk has to do with the names below the node. -/
def seen (n : Node Place) : List (NodeId × Sighting) :=
  n.nodes.flatMap fun m => m.parts.flatMap fun part => part.2.seenAs part.1

/-- What the walk has to do with the names of a tree in a slot. -/
def seenIn (n : Node Place) (slot : Slot (Node Place)) : List (NodeId × Sighting) := n.seenAs slot ++ n.seen

end Node

end Ast

namespace Scoping

open Ast

@[simp] theorem sightings_nil : sightings [] = [] := rfl

@[simp] theorem sightings_append (as bs : List Action) :
    sightings (as ++ bs) = sightings as ++ sightings bs := List.filterMap_append

@[simp] theorem sightings_openScope (type : ScopeType) (block : NodeId) (startsStrict : Bool)
    (as : List Action) : sightings (.openScope type block startsStrict :: as) = sightings as := rfl

@[simp] theorem sightings_closeScope (as : List Action) : sightings (.closeScope :: as) = sightings as := rfl

theorem sightings_ofDefinition {name : String} (hname : name ≠ "") (isHoisted : Bool) (d : Definition) :
    sightings (Action.ofDefinition isHoisted name d) = [(d.name, .declared)] := by
  rw [Action.ofDefinition, if_neg hname]
  rfl

theorem sightings_ofReference {name : String} (hname : name ≠ "") (i : NodeId) (use : Use) :
    sightings (Action.ofReference name i use) = [(i, .ofUse use)] := by
  rw [Action.ofReference, if_neg hname]
  rfl

/-- An assignment uses the name it assigns to as any other expression would. -/
theorem sightings_binaryExpression (l : Place) (op : Syntax.BinaryOperator) (left right : Node Place) :
    sightings (Action.ofNode (.mk l (.binaryExpression op left right))) =
      sightings (Action.ofNode left) ++ sightings (Action.ofNode right) := by
  obtain ⟨l', k⟩ := left
  cases k with
  | identifier name type? =>
    simp only [Action.ofNode, sightings_append]
    congr 1
    by_cases hop : op.isAssignment = true
    · rw [if_pos hop, Action.ofReference, Action.ofReference]
      by_cases hname : name = ""
      · rw [if_pos hname, if_pos hname]
      · rw [if_neg hname, if_neg hname]
        split <;> rfl
    · rw [if_neg hop]
  | _ => simp [Action.ofNode]

/-! ### Counting along lists -/

section

variable (x : NodeId × Sighting)

/-- What is to be done below a node is to be done in its children. -/
theorem count_seen (n : Node Place) :
    n.seen.count x = (n.parts.map fun part => (part.2.seenIn part.1).count x).sum := by
  have hseen : n.seen = n.parts.flatMap (fun part => part.2.seen) ++
      n.parts.flatMap fun part => part.2.seenAs part.1 := by
    rw [Node.seen, Node.nodes_eq, ← List.flatMap_def, List.flatMap_append, List.flatMap_assoc,
      List.flatMap_singleton, ← Node.map_snd_parts, List.flatMap_map]
    rfl
  rw [hseen]
  induction n.parts with
  | nil => rfl
  | cons part parts ih =>
    simp only [List.flatMap_cons, List.count_append, List.map_cons, List.sum_cons, Node.seenIn] at ih ⊢
    omega

/-- Actions that go through nodes one by one. -/
theorem count_each {walk : List (Node Place) → List Action} {step : Node Place → List Action}
    (hnil : walk [] = []) (hcons : ∀ n ns, walk (n :: ns) = step n ++ walk ns) {ns : List (Node Place)}
    {slot : Slot (Node Place)}
    (h : ∀ n ∈ ns, (sightings (step n)).count x = (n.seenIn slot).count x) :
    (sightings (walk ns)).count x = (ns.map fun n => (n.seenIn slot).count x).sum := by
  induction ns with
  | nil =>
    rw [hnil]
    rfl
  | cons n ns ih =>
    obtain ⟨hn, hns⟩ := List.forall_mem_cons.mp h
    rw [hcons, sightings_append, List.count_append, hn, ih hns, List.map_cons, List.sum_cons]

theorem count_ofNodes {ns : List (Node Place)} {slot : Slot (Node Place)}
    (h : ∀ n ∈ ns, (sightings (Action.ofNode n)).count x = (n.seenIn slot).count x) :
    (sightings (Action.ofNodes ns)).count x = (ns.map fun n => (n.seenIn slot).count x).sum :=
  count_each x (by rw [Action.ofNodes]) (fun _ _ => by rw [Action.ofNodes]) h

theorem count_ofNode? {n? : Option (Node Place)} {slot : Slot (Node Place)}
    (h : ∀ n ∈ n?, (sightings (Action.ofNode n)).count x = (n.seenIn slot).count x) :
    (sightings (Action.ofNode? n?)).count x = (n?.toList.map fun n => (n.seenIn slot).count x).sum := by
  cases n? with
  | none =>
    rw [Action.ofNode?]
    rfl
  | some n =>
    rw [Action.ofNode?, h n rfl]
    simp

theorem count_ofTypes {ns : List (Node Place)} {slot : Slot (Node Place)}
    (h : ∀ n ∈ ns, (sightings (Action.ofType n)).count x = (n.seenIn slot).count x) :
    (sightings (Action.ofTypes ns)).count x = (ns.map fun n => (n.seenIn slot).count x).sum :=
  count_each x (by rw [Action.ofTypes]) (fun _ _ => by rw [Action.ofTypes]) h

theorem count_ofType? {n? : Option (Node Place)} {slot : Slot (Node Place)}
    (h : ∀ n ∈ n?, (sightings (Action.ofType n)).count x = (n.seenIn slot).count x) :
    (sightings (Action.ofType? n?)).count x = (n?.toList.map fun n => (n.seenIn slot).count x).sum := by
  cases n? with
  | none => rfl
  | some n =>
    rw [Action.ofType?, h n rfl]
    simp

theorem count_ofDeclarators {isHoisted : Bool} {declaration : NodeId} {ns : List (Node Place)}
    {slot : Slot (Node Place)} (h : ∀ n ∈ ns,
      (sightings (Action.ofDeclarators isHoisted declaration [n])).count x = (n.seenIn slot).count x) :
    (sightings (Action.ofDeclarators isHoisted declaration ns)).count x =
      (ns.map fun n => (n.seenIn slot).count x).sum := by
  refine count_each x (by rw [Action.ofDeclarators]) (fun n ns => ?_) h
  obtain ⟨l, k⟩ := n
  cases k
  case variableDeclarator name init? => cases init? <;> simp [Action.ofDeclarators]
  all_goals simp [Action.ofDeclarators]

theorem count_ofParams {function : NodeId} {ns : List (Node Place)} {slot : Slot (Node Place)}
    (h : ∀ n ∈ ns, (sightings (Action.ofParams function [n])).count x = (n.seenIn slot).count x) :
    (sightings (Action.ofParams function ns)).count x = (ns.map fun n => (n.seenIn slot).count x).sum := by
  refine count_each x (by rw [Action.ofParams]) (fun n ns => ?_) h
  obtain ⟨l, k⟩ := n
  cases k <;> simp [Action.ofParams]

/-! ### Every node is gone through once -/

/-- The walk does with the names of a tree in a slot what the tree says. Names that are no expressions are
left to the walk through their parents, apart from their ascriptions. -/
def Walks (slot : Slot (Node Place)) (n : Node Place) : Prop :=
  match slot with
  | .statement => (sightings (Action.ofNode n)).count x = (n.seenIn .statement).count x
  | .expression => (sightings (Action.ofNode n)).count x = (n.seenIn .expression).count x
  | .body => (sightings (Action.ofBody n)).count x = (n.seenIn .body).count x
  | .type => (sightings (Action.ofType n)).count x = (n.seenIn .type).count x
  | .declarator => ∀ isHoisted declaration,
    (sightings (Action.ofDeclarators isHoisted declaration [n])).count x = (n.seenIn .declarator).count x
  | .parameter => ∀ function,
    (sightings (Action.ofParams function [n])).count x = (n.seenIn .parameter).count x
  | .binding _ => ∀ l text type?, n = .mk l (.identifier text type?) →
    (sightings (Action.ofType? type?)).count x = n.seen.count x
  | .name | .member | .typeName => True

variable {x} {l : Place} {k : Kind (Name Place (Node Place)) (Node Place)} {name : Name Place (Node Place)}

/-- Nothing is to be done with a node that is no name itself. -/
theorem count_seenIn_mk (hk : k.isIdentifier = false) (slot : Slot (Node Place)) :
    ((Node.mk l k).seenIn slot).count x =
      ((Node.mk l k).parts.map fun part => (part.2.seenIn part.1).count x).sum := by
  rw [Node.seenIn, List.count_append, count_seen, Node.seenAs, Node.kind_mk, hk]
  simp

theorem count_seenIn_toNode (name : Name Place (Node Place)) (slot : Slot (Node Place)) :
    (name.toNode.seenIn slot).count x =
      (slot.sightings.map (name.id, ·)).count x + name.toNode.seen.count x := by
  rw [Node.seenIn, List.count_append]
  rfl

theorem seen_toNode_of_none (h : name.ascription? = none) : name.toNode.seen = [] := by
  rw [Node.seen, Node.nodes_toNode, h]
  simp [Node.parts, Node.shape, Name.toNode, Kind.map, Kind.parts, h]

/-- A name that declares a function or a type, or stands in a type or behind a dot. -/
theorem fits_name (h : name.toNode.kind.fits (.name : Slot (Node Place)) = true) :
    name.text ≠ "" ∧ name.ascription? = none := by
  simpa [Name.toNode, Kind.fits] using h

/-- The actions of a declared name and its ascription. -/
theorem Walks.binding {value? : Option (Node Place)} (hfills : name.toNode.Fills (.binding value?))
    (hwalks : Walks x (.binding value?) name.toNode) :
    name.text ≠ "" ∧ (sightings (Action.ofType? name.ascription?)).count x = name.toNode.seen.count x :=
  ⟨(Node.fills_toNode_iff.mp hfills).1, hwalks _ _ _ rfl⟩

/-- The parameters, the types and the body of a function are gone through once. -/
theorem count_function {ps : List (Node Place)} {t? : Option (Node Place)} {b : Node Place} (function : NodeId)
    (hps : ∀ p ∈ ps, p.Fills .parameter ∧ Walks x .parameter p)
    (ht : ∀ t ∈ t?, t.Fills .type ∧ Walks x .type t) (hb : Walks x .body b) :
    (sightings (Action.ofParams function ps ++
      (Action.ofType? t? ++ (Action.ofBody b ++ [.closeScope])))).count x =
      (ps.map fun p => (p.seenIn .parameter).count x).sum +
        ((t?.toList.map fun t => (t.seenIn .type).count x).sum + (b.seenIn .body).count x) := by
  have hps := count_ofParams x fun p hp => (hps p hp).2 function
  have ht := count_ofType? x fun t hmem => (ht t hmem).2
  rw [Walks] at hb
  simp only [sightings_append, List.count_append, hps, ht, hb, sightings_closeScope, sightings_nil,
    List.count_nil, Nat.add_zero]

theorem walks_statement (hfits : k.isStatement = true)
    (hparts : ∀ part ∈ (Node.mk l k).parts, part.2.Fills part.1 ∧ Walks x part.1 part.2) :
    Walks x .statement (.mk l k) := by
  have hk : k.isIdentifier = false := by cases k <;> first | rfl | cases hfits
  rw [Walks, count_seenIn_mk hk]
  cases k <;> simp only [Kind.isStatement, Bool.false_eq_true] at hfits <;>
    simp only [Node.parts, Node.shape, Node.kind_mk, Kind.map, Kind.parts, List.forall_mem_cons,
      List.forall_mem_append, List.forall_mem_map, List.map_id, Option.map_id, id, Option.mem_toList]
      at hparts <;>
    simp only [Node.parts, Node.shape, Node.kind_mk, Kind.map, Kind.parts, List.map_cons, List.map_append,
      List.map_map, List.sum_cons, List.sum_append, List.map_id, Option.map_id, id, Function.comp_def,
      List.map_nil, List.sum_nil, Nat.add_zero] <;>
    rw [Action.ofNode]
  case variableDeclaration keyword ds => exact count_ofDeclarators x fun d hd => (hparts d hd).2 _ _
  case functionDeclaration name ps t? b =>
    obtain ⟨⟨hname, -⟩, hps, ht, ⟨-, hb⟩, -⟩ := hparts
    obtain ⟨hne, hnone⟩ := fits_name hname.fits
    rw [sightings_append, sightings_openScope, List.count_append, count_function l.id hps ht hb,
      sightings_ofDefinition hne, count_seenIn_toNode, seen_toNode_of_none hnone]
    rfl
  case typeAlias name t =>
    obtain ⟨⟨hname, -⟩, ⟨-, ht⟩, -⟩ := hparts
    obtain ⟨hne, hnone⟩ := fits_name hname.fits
    rw [Walks] at ht
    rw [sightings_append, sightings_openScope, sightings_append, List.count_append, List.count_append, ht,
      sightings_ofDefinition hne, count_seenIn_toNode, seen_toNode_of_none hnone]
    rfl
  case blockStatement body =>
    rw [sightings_openScope, sightings_append, List.count_append,
      count_ofNodes x fun n hn => (hparts n hn).2]
    rfl
  case expressionStatement e => exact hparts.1.2
  case returnStatement e? => exact count_ofNode? x fun e he => (hparts e he).2
  case ifStatement test consequent alternate? =>
    obtain ⟨⟨-, htest⟩, ⟨-, hconsequent⟩, halternate⟩ := hparts
    rw [Walks] at htest
    rw [Walks] at hconsequent
    rw [sightings_append, sightings_append, List.count_append, List.count_append, htest, hconsequent,
      count_ofNode? x fun n hn => (halternate n hn).2]
  case whileStatement test body =>
    obtain ⟨⟨-, htest⟩, ⟨-, hbody⟩, -⟩ := hparts
    rw [Walks] at htest
    rw [Walks] at hbody
    rw [sightings_append, List.count_append, htest, hbody]
  case emptyStatement => rfl

theorem walks_expression (hfits : k.isExpression = true)
    (hparts : ∀ part ∈ (Node.mk l k).parts, part.2.Fills part.1 ∧ Walks x part.1 part.2) :
    Walks x .expression (.mk l k) := by
  cases k <;> simp only [Kind.isExpression, Bool.false_eq_true] at hfits
  case identifier text type? =>
    obtain ⟨hne, hnone⟩ : text ≠ "" ∧ type? = none := by simpa using hfits
    subst hnone
    rw [Walks, Action.ofNode, sightings_ofReference hne]
    refine .trans ?_ (count_seenIn_toNode ⟨l, text, none⟩ .expression).symm
    rw [seen_toNode_of_none rfl]
    rfl
  all_goals
    rw [Walks, count_seenIn_mk rfl]
    simp only [Node.parts, Node.shape, Node.kind_mk, Kind.map, Kind.parts, List.forall_mem_cons,
      List.forall_mem_append, List.forall_mem_map, List.map_id, Option.map_id, id, Option.mem_toList]
      at hparts
    simp only [Node.parts, Node.shape, Node.kind_mk, Kind.map, Kind.parts, List.map_cons, List.map_append,
      List.map_map, List.sum_cons, List.sum_append, List.map_id, Option.map_id, id, Function.comp_def,
      List.map_nil, List.sum_nil, Nat.add_zero]
  case literal value raw =>
    rw [Action.ofNode]
    rfl
  case arrayExpression es =>
    rw [Action.ofNode]
    exact count_ofNodes x fun e he => (hparts e he).2
  case arrowFunction ps t? b isExpression =>
    obtain ⟨hps, ht, ⟨-, hb⟩, -⟩ := hparts
    rw [Action.ofNode, sightings_openScope, count_function l.id hps ht hb]
  case callExpression callee args =>
    obtain ⟨⟨-, hcallee⟩, hargs⟩ := hparts
    rw [Walks] at hcallee
    rw [Action.ofNode, sightings_append, List.count_append, hcallee, count_ofNodes x fun e he => (hargs e he).2]
  case memberExpression e name =>
    obtain ⟨⟨-, he⟩, ⟨hname, -⟩, -⟩ := hparts
    rw [Walks] at he
    rw [Action.ofNode, he, count_seenIn_toNode, seen_toNode_of_none (fits_name hname.fits).2]
    rfl
  case unaryExpression op e =>
    rw [Action.ofNode]
    exact hparts.1.2
  case binaryExpression op left right =>
    obtain ⟨⟨-, hleft⟩, ⟨-, hright⟩, -⟩ := hparts
    rw [Walks] at hleft hright
    rw [sightings_binaryExpression, List.count_append, hleft, hright]

theorem walks_body (hfits : k.fits (.body : Slot (Node Place)) = true)
    (hparts : ∀ part ∈ (Node.mk l k).parts, part.2.Fills part.1 ∧ Walks x part.1 part.2) :
    Walks x .body (.mk l k) := by
  cases hblock : k.isBlock with
  | true =>
    cases k <;> simp only [Kind.isBlock, Bool.false_eq_true] at hblock
    case blockStatement body =>
    rw [Walks, count_seenIn_mk rfl, Action.ofBody]
    simp only [Node.parts, Node.shape, Node.kind_mk, Kind.map, Kind.parts, List.forall_mem_map, List.map_id]
      at hparts
    simp only [Node.parts, Node.shape, Node.kind_mk, Kind.map, Kind.parts, List.map_map, List.map_id,
      Function.comp_def]
    exact count_ofNodes x fun n hn => (hparts n hn).2
  | false =>
    have hexpression : k.isExpression = true := by cases k <;> first | exact hfits | cases hblock
    have h := walks_expression hexpression hparts
    rw [Walks] at h
    rw [Walks, ofBody_of_not_isBlock (n := .mk l k) hblock]
    exact h

theorem walks_type (hfits : k.isType = true)
    (hparts : ∀ part ∈ (Node.mk l k).parts, part.2.Fills part.1 ∧ Walks x part.1 part.2) :
    Walks x .type (.mk l k) := by
  have hk : k.isIdentifier = false := by cases k <;> first | rfl | cases hfits
  rw [Walks, count_seenIn_mk hk]
  cases k <;> simp only [Kind.isType, Bool.false_eq_true] at hfits <;>
    simp only [Node.parts, Node.shape, Node.kind_mk, Kind.map, Kind.parts, List.forall_mem_cons,
      List.forall_mem_map, List.map_id, id] at hparts <;>
    simp only [Node.parts, Node.shape, Node.kind_mk, Kind.map, Kind.parts, List.map_cons, List.map_map,
      List.sum_cons, List.map_id, id, Function.comp_def, List.map_nil, List.sum_nil, Nat.add_zero]
  case ascription t | arrayType t =>
    rw [Action.ofType]
    exact hparts.1.2
  case typeReference name =>
    obtain ⟨hne, hnone⟩ := fits_name hparts.1.1.fits
    rw [Action.ofType, sightings_ofReference hne, count_seenIn_toNode, seen_toNode_of_none hnone]
    rfl
  case unionType ts =>
    rw [Action.ofType]
    exact count_ofTypes x fun t ht => (hparts t ht).2
  case keywordType keyword => simp [Action.ofType]

theorem walks_binding {value? : Option (Node Place)}
    (hparts : ∀ part ∈ (Node.mk l k).parts, part.2.Fills part.1 ∧ Walks x part.1 part.2) :
    Walks x (.binding value?) (.mk l k) := by
  rintro l' text type? ⟨⟩
  rw [count_seen]
  simp only [Node.parts, Node.shape, Node.kind_mk, Kind.map, Kind.parts, List.map_map, Option.map_id, id,
    Function.comp_def, List.forall_mem_map, Option.mem_toList] at hparts ⊢
  exact count_ofType? x fun t ht => (hparts t ht).2

/-- The name of a variable or a parameter with its first value is declared, and given the value. -/
theorem count_seenIn_given {value : Node Place} :
    (name.toNode.seenIn (.binding (some value))).count x =
      [(name.id, Sighting.declared)].count x + [(name.id, Sighting.given value.id)].count x +
        name.toNode.seen.count x := by
  rw [count_seenIn_toNode]
  congr 1
  show ([(name.id, Sighting.declared)] ++ [(name.id, Sighting.given value.id)]).count x = _
  exact List.count_append

theorem walks_declarator (hfits : k.fits (.declarator : Slot (Node Place)) = true)
    (hparts : ∀ part ∈ (Node.mk l k).parts, part.2.Fills part.1 ∧ Walks x part.1 part.2) :
    Walks x .declarator (.mk l k) := by
  intro isHoisted declaration
  cases k <;> simp only [Kind.fits, Bool.false_eq_true] at hfits
  case variableDeclarator name init? =>
  rw [count_seenIn_mk rfl]
  cases init? <;>
    simp only [Node.parts, Node.shape, Node.kind_mk, Kind.map, Kind.parts, List.forall_mem_cons, Option.map_none,
      Option.map_some, Option.toList, List.map_cons, List.map_nil, id] at hparts <;>
    simp only [Node.parts, Node.shape, Node.kind_mk, Kind.map, Kind.parts, List.map_cons, Option.map_none,
      Option.map_some, Option.toList, List.sum_cons, id, List.map_nil, List.sum_nil, Nat.add_zero]
  case none =>
    obtain ⟨hne, htype⟩ := Walks.binding hparts.1.1 hparts.1.2
    rw [Action.ofDeclarators, Action.ofDeclarators]
    simp only [sightings_append, List.count_append, sightings_ofDefinition hne, htype, sightings_nil,
      List.count_nil, Nat.add_zero, count_seenIn_toNode]
    rfl
  case some init =>
    obtain ⟨⟨hname, hwalks⟩, ⟨-, hinit⟩, -⟩ := hparts
    obtain ⟨hne, htype⟩ := Walks.binding hname hwalks
    rw [Walks] at hinit
    rw [Action.ofDeclarators, Action.ofDeclarators]
    simp only [sightings_append, List.count_append, sightings_ofDefinition hne, sightings_ofReference hne,
      htype, hinit, sightings_nil, List.count_nil, Nat.add_zero, count_seenIn_given, Sighting.ofUse]
    omega

theorem walks_parameter (hfits : k.fits (.parameter : Slot (Node Place)) = true)
    (hparts : ∀ part ∈ (Node.mk l k).parts, part.2.Fills part.1 ∧ Walks x part.1 part.2) :
    Walks x .parameter (.mk l k) := by
  intro function
  cases k <;> simp only [Kind.fits, Bool.false_eq_true] at hfits
  case identifier text type? =>
    have htype := (walks_binding hparts : Walks x (.binding none) _) l text type? rfl
    have hne : text ≠ "" := by simpa using hfits
    rw [Action.ofParams, Action.ofParams, sightings_append, sightings_append, List.count_append,
      List.count_append, sightings_ofDefinition hne, htype]
    exact (count_seenIn_toNode ⟨l, text, type?⟩ .parameter).symm
  case assignmentPattern name value =>
    rw [count_seenIn_mk rfl]
    simp only [Node.parts, Node.shape, Node.kind_mk, Kind.map, Kind.parts, List.forall_mem_cons, id] at hparts
    simp only [Node.parts, Node.shape, Node.kind_mk, Kind.map, Kind.parts, List.map_cons, List.sum_cons, id,
      List.map_nil, List.sum_nil, Nat.add_zero]
    obtain ⟨⟨hname, hwalks⟩, ⟨-, hvalue⟩, -⟩ := hparts
    obtain ⟨hne, htype⟩ := Walks.binding hname hwalks
    rw [Walks] at hvalue
    rw [Action.ofParams, Action.ofParams]
    simp only [sightings_append, List.count_append, sightings_ofDefinition hne, sightings_ofReference hne,
      htype, hvalue, sightings_nil, List.count_nil, Nat.add_zero, count_seenIn_given, Sighting.ofUse]
    omega

/-- **The walk goes through every tree once.** What it does with the names of a grammatical tree is what
their slots say. -/
theorem walks (x : NodeId × Sighting) (n : Node Place) :
    ∀ slot : Slot (Node Place), n.Fills slot → Walks x slot n := by
  induction n using Node.induction_children with
  | h n ih =>
    intro slot hn
    have hparts : ∀ part ∈ n.parts, part.2.Fills part.1 ∧ Walks x part.1 part.2 := by
      intro part hpart
      have hfills := Node.grammatical_iff.mp hn.grammatical part hpart
      exact ⟨hfills, ih part.2 (Node.map_snd_parts n ▸ List.mem_map_of_mem hpart) part.1 hfills⟩
    have hfits := hn.fits
    obtain ⟨l, k⟩ := n
    cases slot with
    | statement => exact walks_statement hfits hparts
    | body => exact walks_body hfits hparts
    | expression => exact walks_expression hfits hparts
    | type => exact walks_type hfits hparts
    | declarator => exact walks_declarator hfits hparts
    | parameter => exact walks_parameter hfits hparts
    | binding value? => exact walks_binding hparts
    | name | member | typeName => trivial

end

theorem sightings_ofHeader (options : Options) (program : NodeId) (body : List (Node Place)) :
    sightings (Action.ofHeader options program body) = [] := by
  rw [Action.ofHeader]
  split <;> split <;> rfl

theorem sightings_closers (as : List Action) : sightings (as.map fun _ => .closeScope) = [] := by
  induction as with
  | nil => rfl
  | cons a as ih => exact ih

/-- The walk does with the names of a grammatical program what their slots say, and nothing else. -/
theorem perm_sightings_ofProgram (options : Options) {t : Tree} (ht : t.Indexed)
    (hgrammatical : t.root.Grammatical) :
    (sightings (Action.ofProgram options t)).Perm t.root.seen := by
  refine List.perm_iff_count.mpr fun x => ?_
  have hparts : t.root.parts = t.body.map (Slot.statement, ·) := by
    rw [Node.parts, Node.shape, ht.program]
    exact congrArg _ (List.map_id _)
  have hbody : ∀ n ∈ t.body, n.Fills .statement := fun n hn =>
    Node.grammatical_iff.mp hgrammatical (.statement, n) (hparts ▸ List.mem_map_of_mem hn)
  rw [Action.ofProgram, sightings_append, sightings_append, sightings_ofHeader, sightings_closers,
    List.nil_append, List.append_nil, count_seen, hparts, List.map_map]
  exact count_ofNodes x fun n hn => walks x n .statement (hbody n hn)

end Scoping

end ScriptAnalysis

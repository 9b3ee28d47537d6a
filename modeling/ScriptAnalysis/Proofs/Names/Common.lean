import ScriptAnalysis.Proofs.Ast.Nodes
import ScriptAnalysis.Proofs.Names.Outline
import ScriptAnalysis.Scoping.Action

/-!
# The outline of a common tree

The walk over a common tree that finds its scopes does what the outline of the tree says: its actions are
the steps of the outline (`map_toStep_ofNode`).
-/

namespace ScriptAnalysis

open Scoping (Action Definition DefinitionKind ScopeType Use)

namespace Names

/-! ### Steps -/

/-- What a walk does to scopes, names and references. -/
inductive Step (α : Type) where
  /-- A scope is opened. -/
  | openScope (type : ScopeType)
  /-- The innermost scope is closed. -/
  | closeScope
  /-- A name is declared. -/
  | declare (isHoisted : Bool) (declared : Declared α)
  /-- A name is referred to. -/
  | refer (reference : Referred α)
  deriving DecidableEq, Repr

/-- The step with the labels of names changed. -/
def Step.map {α β : Type} (f : α → β) : Step α → Step β
  | openScope type => openScope type
  | closeScope => closeScope
  | declare isHoisted d => declare isHoisted (d.map f)
  | refer r => refer (r.map f)

section

variable {α β : Type} (f : α → β)

@[simp] theorem Step.map_openScope (type : ScopeType) :
    (Step.openScope type).map f = .openScope type := rfl

@[simp] theorem Step.map_closeScope : Step.closeScope.map f = .closeScope := rfl

@[simp] theorem Step.map_declare (isHoisted : Bool) (d : Declared α) :
    (Step.declare isHoisted d).map f = .declare isHoisted (d.map f) := rfl

@[simp] theorem Step.map_refer (r : Referred α) : (Step.refer r).map f = .refer (r.map f) := rfl

end

namespace Outline

variable {α β : Type}

/-- The steps of a walk; a name that is missing is passed over. -/
def steps : Outline (Declared α) (Referred α) → List (Step α)
  | done => []
  | declare isHoisted d rest => (if d.name = "" then [] else [.declare isHoisted d]) ++ rest.steps
  | refer r rest => (if r.name = "" then [] else [.refer r]) ++ rest.steps
  | scope type header body rest =>
    .openScope type :: (header.steps ++ (body.steps ++ (.closeScope :: rest.steps)))

@[simp] theorem steps_append (o o' : Outline (Declared α) (Referred α)) :
    (o ++ o').steps = o.steps ++ o'.steps := by
  induction o <;> simp_all [steps]

/-- The outline with the labels of names changed. -/
def relabel (f : α → β) (o : Outline (Declared α) (Referred α)) :
    Outline (Declared β) (Referred β) := o.map (·.map f) (·.map f)

section

variable (f : α → β)

@[simp] theorem relabel_done : (done : Outline (Declared α) (Referred α)).relabel f = done := rfl

@[simp] theorem relabel_declare (isHoisted : Bool) (d : Declared α)
    (o : Outline (Declared α) (Referred α)) :
    (declare isHoisted d o).relabel f = declare isHoisted (d.map f) (o.relabel f) := rfl

@[simp] theorem relabel_refer (r : Referred α) (o : Outline (Declared α) (Referred α)) :
    (refer r o).relabel f = refer (r.map f) (o.relabel f) := rfl

@[simp] theorem relabel_scope (type : ScopeType)
    (header body o : Outline (Declared α) (Referred α)) :
    (scope type header body o).relabel f =
      scope type (header.relabel f) (body.relabel f) (o.relabel f) := rfl

@[simp] theorem relabel_append (o o' : Outline (Declared α) (Referred α)) :
    (o ++ o').relabel f = o.relabel f ++ o'.relabel f :=
  map_append o o' _ _

end

@[simp] theorem steps_relabel (f : α → β) (o : Outline (Declared α) (Referred α)) :
    (o.relabel f).steps = o.steps.map (·.map f) := by
  induction o with
  | done => rfl
  | declare isHoisted d rest ih =>
    rw [relabel] at ih
    by_cases h : d.name = "" <;> simp [relabel, map, steps, h, ih]
  | refer r rest ih =>
    rw [relabel] at ih
    by_cases h : r.name = "" <;> simp [relabel, map, steps, h, ih]
  | scope type header body rest ihHeader ihBody ih =>
    rw [relabel] at ihHeader ihBody ih
    simp [relabel, map, steps, ihHeader, ihBody, ih]

end Outline

end Names

open Names (Declared Referred Outline Step)

/-- What an action of the walk does. -/
def Scoping.Action.toStep : Action → Step Ast.NodeId
  | openScope type _ _ => .openScope type
  | closeScope => .closeScope
  | define isHoisted name d => .declare isHoisted ⟨d.name, name, d.isType⟩
  | refer name identifier use => .refer ⟨identifier, name, use.isType, use.isInitialization⟩

/-! ### The outline of a node -/

namespace Ast.Node

variable {α β : Type}

/-- The outline of a name that is declared with the scopes' part of what follows it. -/
def outlineName (isHoisted isType : Bool) (name : Name α (Node α)) :
    Outline (Declared α) (Referred α) :=
  .declare isHoisted ⟨name.label, name.text, isType⟩ .done

/-- The outline of a name that gets its first value. -/
def outlineInitial (name : Name α (Node α)) : Outline (Declared α) (Referred α) :=
  .refer ⟨name.label, name.text, false, true⟩ .done

mutual

/-- The outline of a type. -/
def outlineType : Node α → Outline (Declared α) (Referred α)
  | .mk _ (.typeReference name) => .refer ⟨name.label, name.text, true, false⟩ .done
  | .mk _ (.ascription type) | .mk _ (.arrayType type) => outlineType type
  | .mk _ (.unionType members) => outlineTypes members
  | _ => .done

/-- The outline of several types. -/
def outlineTypes : List (Node α) → Outline (Declared α) (Referred α)
  | [] => .done
  | type :: types => outlineType type ++ outlineTypes types

end

/-- The outline of a type, if there is one. -/
def outlineType? : Option (Node α) → Outline (Declared α) (Referred α)
  | none => .done
  | some type => outlineType type

mutual

/-- The outline of a statement or an expression. -/
def outline : Node α → Outline (Declared α) (Referred α)
  | .mk _ (.program body) => outlineList body
  | .mk _ (.variableDeclaration keyword declarators) =>
    outlineDeclarators (!keyword.isBlockScoped) declarators
  | .mk _ (.variableDeclarator _ init?) => outlineOption init?
  | .mk _ (.functionDeclaration name params returnType? body) =>
    outlineName false false name ++
      .scope .function (outlineParams params ++ outlineType? returnType?) (outlineBody body) .done
  | .mk _ (.arrowFunction params returnType? body _) =>
    .scope .function (outlineParams params ++ outlineType? returnType?) (outlineBody body) .done
  | .mk _ (.typeAlias name type) =>
    outlineName false true name ++ .scope .typeAlias .done (outlineType type) .done
  | .mk _ (.blockStatement body) => .scope .block .done (outlineList body) .done
  | .mk _ (.expressionStatement expr) | .mk _ (.unaryExpression _ expr)
  | .mk _ (.memberExpression expr _) | .mk _ (.assignmentPattern _ expr) => outline expr
  | .mk _ (.returnStatement argument?) => outlineOption argument?
  | .mk _ (.ifStatement test consequent alternate?) =>
    outline test ++ (outline consequent ++ outlineOption alternate?)
  | .mk _ (.whileStatement test body) => outline test ++ outline body
  | .mk l (.identifier name _) => .refer ⟨l, name, false, false⟩ .done
  | .mk _ (.arrayExpression elements) => outlineList elements
  | .mk _ (.callExpression callee arguments) => outline callee ++ outlineList arguments
  | .mk _ (.binaryExpression _ left right) => outline left ++ outline right
  | .mk _ (.ascription type) | .mk _ (.arrayType type) => outlineType type
  | .mk _ (.typeReference name) => .refer ⟨name.label, name.text, true, false⟩ .done
  | .mk _ (.unionType members) => outlineTypes members
  | .mk _ .emptyStatement | .mk _ (.literal ..) | .mk _ (.keywordType _) => .done

/-- The outline of several statements or expressions. -/
def outlineList : List (Node α) → Outline (Declared α) (Referred α)
  | [] => .done
  | node :: nodes => outline node ++ outlineList nodes

/-- The outline of a statement or an expression, if there is one. -/
def outlineOption : Option (Node α) → Outline (Declared α) (Referred α)
  | none => .done
  | some node => outline node

/-- The outline of the body of a function, whose block has no scope of its own. -/
def outlineBody : Node α → Outline (Declared α) (Referred α)
  | .mk _ (.blockStatement body) => outlineList body
  | .mk l k => outline (.mk l k)

/-- The outline of the declarators of a declaration. -/
def outlineDeclarators (isHoisted : Bool) : List (Node α) → Outline (Declared α) (Referred α)
  | [] => .done
  | .mk _ (.variableDeclarator name none) :: nodes =>
    outlineName isHoisted false name ++
      (outlineType? name.ascription? ++ outlineDeclarators isHoisted nodes)
  | .mk _ (.variableDeclarator name (some init)) :: nodes =>
    outlineName isHoisted false name ++ (outlineType? name.ascription? ++
      (outlineInitial name ++ (outline init ++ outlineDeclarators isHoisted nodes)))
  | _ :: nodes => outlineDeclarators isHoisted nodes

/-- The outline of the parameters of a function. -/
def outlineParams : List (Node α) → Outline (Declared α) (Referred α)
  | [] => .done
  | .mk _ (.assignmentPattern name value) :: nodes =>
    outlineName false false name ++ (outlineType? name.ascription? ++
      (outlineInitial name ++ (outline value ++ outlineParams nodes)))
  | .mk l (.identifier name type?) :: nodes =>
    outlineName false false ⟨l, name, type?⟩ ++ (outlineType? type? ++ outlineParams nodes)
  | _ :: nodes => outlineParams nodes

end

/-! ### Changing labels -/

section

variable (f : α → β)

@[simp] theorem outlineName_map (isHoisted isType : Bool) (name : Name α (Node α)) :
    outlineName isHoisted isType (name.map f) = (outlineName isHoisted isType name).relabel f := rfl

@[simp] theorem outlineInitial_map (name : Name α (Node α)) :
    outlineInitial (name.map f) = (outlineInitial name).relabel f := rfl

mutual

theorem outlineType_map :
    (n : Node α) → (n.map f).outlineType = n.outlineType.relabel f
  | .mk l k => by
    cases k <;>
      simp [outlineType, Kind.map, outlineType_map, outlineTypes_map, Referred.map]

theorem outlineTypes_map :
    (ns : List (Node α)) → outlineTypes (ns.map (map f)) = (outlineTypes ns).relabel f
  | [] => rfl
  | n :: ns => by simp [outlineTypes, outlineType_map n, outlineTypes_map ns]

end

theorem outlineType?_map (n? : Option (Node α)) :
    outlineType? (n?.map (map f)) = (outlineType? n?).relabel f := by
  cases n? with
  | none => rfl
  | some n => exact outlineType_map f n

/-- The body of a function and the same node elsewhere have one outline up to the scope of a block. -/
theorem outlineBody_map_of {n : Node α} (h : (n.map f).outline = n.outline.relabel f) :
    (n.map f).outlineBody = n.outlineBody.relabel f := by
  obtain ⟨l, k⟩ := n
  cases k with
  | blockStatement body =>
    rw [map_mk, Kind.map, outline, outline, Outline.relabel_scope] at h
    rw [map_mk, Kind.map, outlineBody, outlineBody]
    exact (Outline.scope.inj h).2.2.1
  | _ => simpa [outlineBody, Kind.map] using h

mutual

/-- The outline of a tree whose labels are changed has these labels. -/
theorem outline_map : (n : Node α) → (n.map f).outline = n.outline.relabel f
  | .mk l k => by
    cases k <;>
      simp [outline, Kind.map, outline_map, outlineList_map, outlineOption_map,
        outlineBody_map_of f (outline_map _),
        outlineDeclarators_map, outlineParams_map, outlineType?_map, outlineType_map,
        outlineTypes_map, Referred.map]

theorem outlineList_map :
    (ns : List (Node α)) → outlineList (ns.map (map f)) = (outlineList ns).relabel f
  | [] => by simp [outlineList]
  | n :: ns => by simp [outlineList, outline_map n, outlineList_map ns]

theorem outlineOption_map :
    (n? : Option (Node α)) → outlineOption (n?.map (map f)) = (outlineOption n?).relabel f
  | none => by simp [outlineOption]
  | some n => by simp [outlineOption, outline_map n]

theorem outlineDeclarators_map (isHoisted : Bool) :
    (ns : List (Node α)) →
      outlineDeclarators isHoisted (ns.map (map f)) = (outlineDeclarators isHoisted ns).relabel f
  | [] => by simp [outlineDeclarators]
  | .mk l k :: ns => by
    have hns := outlineDeclarators_map isHoisted ns
    cases k with
    | variableDeclarator name init? =>
      cases init? with
      | none => simp [outlineDeclarators, Kind.map, outlineType?_map, hns]
      | some init =>
        simp [outlineDeclarators, Kind.map, outlineType?_map, outline_map init, hns]
    | _ => simpa [outlineDeclarators, Kind.map] using hns

theorem outlineParams_map :
    (ns : List (Node α)) → outlineParams (ns.map (map f)) = (outlineParams ns).relabel f
  | [] => by simp [outlineParams]
  | .mk l k :: ns => by
    have hns := outlineParams_map ns
    cases k with
    | assignmentPattern name value =>
      simp [outlineParams, Kind.map, outlineType?_map, outline_map value, hns]
    | identifier text ascription? =>
      have hname := outlineName_map f false false ⟨l, text, ascription?⟩
      rw [Name.map] at hname
      simp [outlineParams, Kind.map, hname, outlineType?_map, hns]
    | _ => simpa [outlineParams, Kind.map] using hns

end

end

/-! ### The walk -/

/-- The steps of the outline of numbered nodes. -/
def stepsOf (o : Outline (Declared Place) (Referred Place)) : List (Step NodeId) :=
  o.steps.map (·.map Place.id)

@[simp] theorem stepsOf_done : stepsOf .done = [] := rfl

@[simp] theorem stepsOf_append (o o' : Outline (Declared Place) (Referred Place)) :
    stepsOf (o ++ o') = stepsOf o ++ stepsOf o' := by
  simp [stepsOf]

@[simp] theorem stepsOf_scope (type : ScopeType)
    (header body rest : Outline (Declared Place) (Referred Place)) :
    stepsOf (.scope type header body rest) =
      .openScope type :: (stepsOf header ++ (stepsOf body ++ (.closeScope :: stepsOf rest))) := by
  simp [stepsOf, Outline.steps]

@[simp] theorem toStep_openScope (type : ScopeType) (block : NodeId) (startsStrict : Bool) :
    (Action.openScope type block startsStrict).toStep = .openScope type := rfl

@[simp] theorem toStep_closeScope : Action.closeScope.toStep = .closeScope := rfl

theorem map_toStep_ofDefinition {kind : DefinitionKind} {isType : Bool}
    (hkind : (kind == .typeName) = isType) (isHoisted : Bool) (name : Name Place (Node Place))
    (node : NodeId) :
    (Action.ofDefinition isHoisted name.text ⟨kind, name.id, node⟩).map Action.toStep =
      stepsOf (outlineName isHoisted isType name) := by
  by_cases h : name.text = "" <;>
    simp [Action.ofDefinition, Action.toStep, stepsOf, outlineName, Outline.steps, Declared.map,
      Name.id, Definition.isType, h, hkind]

theorem map_toStep_ofReference (name : String) (l : Place) (use : Use) :
    (Action.ofReference name l.id use).map Action.toStep =
      stepsOf (.refer ⟨l, name, use.isType, use.isInitialization⟩ .done) := by
  by_cases h : name = "" <;>
    simp [Action.ofReference, Action.toStep, stepsOf, Outline.steps, Referred.map, h]

theorem map_toStep_firstWrite (name : Name Place (Node Place)) (value : NodeId) :
    (Action.ofReference name.text name.id (.firstWrite value)).map Action.toStep =
      stepsOf (outlineInitial name) :=
  map_toStep_ofReference name.text name.label (.firstWrite value)

/-- An assignment refers to the name it assigns to as any other expression would. -/
theorem map_toStep_binaryExpression (l : Place) (op : Syntax.BinaryOperator)
    (left right : Node Place) :
    (Action.ofNode (.mk l (.binaryExpression op left right))).map Action.toStep =
      (Action.ofNode left).map Action.toStep ++ (Action.ofNode right).map Action.toStep := by
  obtain ⟨l', k⟩ := left
  cases k with
  | identifier name type? =>
    simp only [Action.ofNode, List.map_append]
    congr 1
    by_cases hop : op.isAssignment = true
    · rw [if_pos hop, map_toStep_ofReference, map_toStep_ofReference]
      split <;> rfl
    · rw [if_neg hop]
  | _ => simp [Action.ofNode]

mutual

theorem map_toStep_ofType :
    (n : Node Place) → (Action.ofType n).map Action.toStep = stepsOf (outlineType n)
  | .mk l k => by
    cases k <;>
      simp [Action.ofType, outlineType, map_toStep_ofType, map_toStep_ofTypes,
        map_toStep_ofReference, Name.id, Use.isType, Use.isInitialization]

theorem map_toStep_ofTypes :
    (ns : List (Node Place)) → (Action.ofTypes ns).map Action.toStep = stepsOf (outlineTypes ns)
  | [] => rfl
  | n :: ns => by
    simp [Action.ofTypes, outlineTypes, map_toStep_ofType n, map_toStep_ofTypes ns]

end

theorem map_toStep_ofType? (n? : Option (Node Place)) :
    (Action.ofType? n?).map Action.toStep = stepsOf (outlineType? n?) := by
  cases n? with
  | none => rfl
  | some n => exact map_toStep_ofType n

/-- The body of a function is walked like the same node elsewhere up to the scope of a block. -/
theorem map_toStep_ofBody_of {n : Node Place} (h : (Action.ofNode n).map Action.toStep = stepsOf (outline n)) :
    (Action.ofBody n).map Action.toStep = stepsOf (outlineBody n) := by
  obtain ⟨l, k⟩ := n
  cases k with
  | blockStatement body =>
    rw [Action.ofNode, outline, stepsOf_scope, List.map_cons, List.map_append, stepsOf_done] at h
    rw [Action.ofBody, outlineBody]
    exact List.append_cancel_right (List.cons.inj h).2
  | _ => simpa [Action.ofBody, outlineBody] using h

mutual

/-- **The walk does what the outline says.** -/
theorem map_toStep_ofNode :
    (n : Node Place) → (Action.ofNode n).map Action.toStep = stepsOf (outline n)
  | .mk l (.program body) => by
    rw [Action.ofNode, outline, map_toStep_ofNodes body]
  | .mk l (.variableDeclaration keyword declarators) => by
    rw [Action.ofNode, outline, map_toStep_ofDeclarators _ _ declarators]
  | .mk l (.variableDeclarator name init?) => by
    rw [Action.ofNode, outline, map_toStep_ofNode? init?]
  | .mk l (.functionDeclaration name params returnType? body) => by
    have hname := map_toStep_ofDefinition
      (show (DefinitionKind.functionName == .typeName) = false from rfl) false name l.id
    rw [Action.ofNode, outline]
    simp [hname, map_toStep_ofParams _ params, map_toStep_ofType?,
      map_toStep_ofBody_of (map_toStep_ofNode body)]
  | .mk l (.arrowFunction params returnType? body isExpression) => by
    rw [Action.ofNode, outline]
    simp [map_toStep_ofParams _ params, map_toStep_ofType?,
      map_toStep_ofBody_of (map_toStep_ofNode body)]
  | .mk l (.typeAlias name type) => by
    have hname := map_toStep_ofDefinition
      (show (DefinitionKind.typeName == .typeName) = true from rfl) false name l.id
    rw [Action.ofNode, outline]
    simp [hname, map_toStep_ofType]
  | .mk l (.blockStatement body) => by
    rw [Action.ofNode, outline]
    simp [map_toStep_ofNodes body]
  | .mk l (.expressionStatement expr) => by rw [Action.ofNode, outline, map_toStep_ofNode expr]
  | .mk l (.unaryExpression op expr) => by rw [Action.ofNode, outline, map_toStep_ofNode expr]
  | .mk l (.memberExpression expr name) => by rw [Action.ofNode, outline, map_toStep_ofNode expr]
  | .mk l (.assignmentPattern name expr) => by rw [Action.ofNode, outline, map_toStep_ofNode expr]
  | .mk l (.returnStatement argument?) => by
    rw [Action.ofNode, outline, map_toStep_ofNode? argument?]
  | .mk l (.ifStatement test consequent alternate?) => by
    rw [Action.ofNode, outline]
    simp [map_toStep_ofNode test, map_toStep_ofNode consequent, map_toStep_ofNode? alternate?]
  | .mk l (.whileStatement test body) => by
    rw [Action.ofNode, outline]
    simp [map_toStep_ofNode test, map_toStep_ofNode body]
  | .mk l (.identifier name ascription?) => by
    rw [Action.ofNode, outline, map_toStep_ofReference]
    rfl
  | .mk l (.arrayExpression elements) => by
    rw [Action.ofNode, outline, map_toStep_ofNodes elements]
  | .mk l (.callExpression callee arguments) => by
    rw [Action.ofNode, outline]
    simp [map_toStep_ofNode callee, map_toStep_ofNodes arguments]
  | .mk l (.binaryExpression op left right) => by
    rw [map_toStep_binaryExpression, outline, stepsOf_append, map_toStep_ofNode left,
      map_toStep_ofNode right]
  | .mk l (.ascription type) => by rw [Action.ofNode, outline, map_toStep_ofType]
  | .mk l (.arrayType type) => by rw [Action.ofNode, outline, map_toStep_ofType]
  | .mk l (.typeReference name) => by
    rw [Action.ofNode, outline, Name.id, map_toStep_ofReference]
    rfl
  | .mk l (.unionType members) => by rw [Action.ofNode, outline, map_toStep_ofTypes]
  | .mk l .emptyStatement => by rw [Action.ofNode, outline]; rfl
  | .mk l (.literal value raw) => by rw [Action.ofNode, outline]; rfl
  | .mk l (.keywordType keyword) => by rw [Action.ofNode, outline]; rfl

theorem map_toStep_ofNodes :
    (ns : List (Node Place)) → (Action.ofNodes ns).map Action.toStep = stepsOf (outlineList ns)
  | [] => by rw [Action.ofNodes, outlineList]; rfl
  | n :: ns => by
    simp [Action.ofNodes, outlineList, map_toStep_ofNode n, map_toStep_ofNodes ns]

theorem map_toStep_ofNode? :
    (n? : Option (Node Place)) → (Action.ofNode? n?).map Action.toStep = stepsOf (outlineOption n?)
  | none => by rw [Action.ofNode?, outlineOption]; rfl
  | some n => by rw [Action.ofNode?, outlineOption, map_toStep_ofNode n]

theorem map_toStep_ofDeclarators (isHoisted : Bool) (declaration : NodeId) :
    (ns : List (Node Place)) →
      (Action.ofDeclarators isHoisted declaration ns).map Action.toStep =
        stepsOf (outlineDeclarators isHoisted ns)
  | [] => by rw [Action.ofDeclarators, outlineDeclarators]; rfl
  | .mk l k :: ns => by
    have hns := map_toStep_ofDeclarators isHoisted declaration ns
    cases k with
    | variableDeclarator name init? =>
      have hname := map_toStep_ofDefinition
        (show (DefinitionKind.variableOf declaration == .typeName) = false from rfl) isHoisted name
        l.id
      cases init? with
      | none => simp [Action.ofDeclarators, outlineDeclarators, hname, map_toStep_ofType?, hns]
      | some init =>
        simp [Action.ofDeclarators, outlineDeclarators, hname, map_toStep_ofType?,
          map_toStep_firstWrite, map_toStep_ofNode init, hns]
    | _ => simpa [Action.ofDeclarators, outlineDeclarators] using hns

theorem map_toStep_ofParams (function : NodeId) :
    (ns : List (Node Place)) →
      (Action.ofParams function ns).map Action.toStep = stepsOf (outlineParams ns)
  | [] => by rw [Action.ofParams, outlineParams]; rfl
  | .mk l k :: ns => by
    have hns := map_toStep_ofParams function ns
    have hname := map_toStep_ofDefinition
      (show (DefinitionKind.parameter == .typeName) = false from rfl) false
    cases k with
    | assignmentPattern name value =>
      simp [Action.ofParams, outlineParams, hname, map_toStep_ofType?, map_toStep_firstWrite,
        map_toStep_ofNode value, hns]
    | identifier name type? =>
      have hname := hname ⟨l, name, type?⟩ function
      simp only [Name.id] at hname
      simp [Action.ofParams, outlineParams, hname, map_toStep_ofType?, hns]
    | _ => simpa [Action.ofParams, outlineParams] using hns

end

theorem map_toStep_ofBody (n : Node Place) : (Action.ofBody n).map Action.toStep = stepsOf (outlineBody n) :=
  map_toStep_ofBody_of (map_toStep_ofNode n)

end Ast.Node

end ScriptAnalysis

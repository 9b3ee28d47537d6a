import ScriptAnalysis.Proofs.Names.Headers
import ScriptAnalysis.Proofs.Scoping.Sites

/-!
# Where the headers of functions are walked

A function opens one scope, and its header is walked before its body. `Framed` says of actions that every
reference from the header of a given function stands between the action that opens the scope of the function
and the actions of its body. The actions of a tree are framed (`framed_body`), since a node has its number for
itself and so no other part of the walk refers to a name of the header.
-/

namespace ScriptAnalysis

namespace Ast

/-- The parts of a function besides its name. -/
structure FunctionParts (β : Type) where
  /-- The parameters. -/
  params : List β
  /-- The type of the result. -/
  returnType? : Option β
  /-- The body. -/
  body : β

/-- The parts of a function. -/
def Kind.function? {ν β : Type} : Kind ν β → Option (FunctionParts β)
  | .functionDeclaration _ params returnType? body | .arrowFunction params returnType? body _ =>
    some ⟨params, returnType?, body⟩
  | _ => none

theorem Kind.header_eq {ν β : Type} {k : Kind ν β} {parts : FunctionParts β} (h : k.function? = some parts) :
    k.header = parts.params ++ parts.returnType?.toList := by
  cases k <;> cases h <;> rfl

namespace Node

/-- A number is that of a node in the header of a function. -/
def InHeader (f : Node Place) (i : NodeId) : Prop := ∃ part ∈ f.kind.header, ∃ m ∈ part.nodes, m.id = i

/-- A number is that of a node in the body of a function. -/
def InBody (f : Node Place) (i : NodeId) : Prop :=
  ∃ parts, f.kind.function? = some parts ∧ ∃ m ∈ parts.body.nodes, m.id = i

instance (f : Node Place) (i : NodeId) : Decidable (f.InHeader i) :=
  inferInstanceAs (Decidable (∃ part ∈ f.kind.header, ∃ m ∈ part.nodes, m.id = i))

instance (f : Node Place) (i : NodeId) : Decidable (f.InBody i) :=
  inferInstanceAs (Decidable (∃ parts, f.kind.function? = some parts ∧ ∃ m ∈ parts.body.nodes, m.id = i))

variable {f n c m : Node Place} {parts : FunctionParts (Node Place)}

/-- The children of a function are its name, its header and its body. -/
theorem children_of_function? (h : f.kind.function? = some parts) :
    ∃ names, f.children = (names ++ f.kind.header) ++ [parts.body] := by
  obtain ⟨l, k⟩ := f
  cases k with
  | functionDeclaration name params returnType? body =>
    cases h
    exact ⟨[name.toNode], by simp [children, shape, Kind.map, Kind.children, Kind.header]⟩
  | arrowFunction params returnType? body isExpression =>
    cases h
    exact ⟨[], by simp [children, shape, Kind.map, Kind.children, Kind.header]⟩
  | _ => cases h

theorem mem_children_of_mem_header (h : f.kind.function? = some parts) (hn : n ∈ f.kind.header) :
    n ∈ f.children := by
  obtain ⟨names, hchildren⟩ := children_of_function? h
  simp [hchildren, hn]

theorem body_mem_children (h : f.kind.function? = some parts) : parts.body ∈ f.children := by
  obtain ⟨names, hchildren⟩ := children_of_function? h
  simp [hchildren]

/-- A node of a tree is the tree itself or a child of another node of it. -/
theorem eq_or_mem_children (h : m ∈ n.nodes) : m = n ∨ ∃ p ∈ n.nodes, m ∈ p.children := by
  rcases List.mem_append.mp (n.perm_nodes.mem_iff.mpr h) with h | h
  · exact .inr (List.mem_flatMap.mp h)
  · exact .inl (List.mem_singleton.mp h)

variable {t : Tree}

/-- The header and the body of a function have different nodes. -/
theorem InHeader.not_inBody (ht : t.Numbered) (hf : f ∈ t.root.nodes) {i : NodeId} (h : f.InHeader i) :
    ¬ f.InBody i := by
  rintro ⟨parts, hparts, m', hm', rfl⟩
  obtain ⟨part, hpart, m, hm, hid⟩ := h
  obtain ⟨names, hchildren⟩ := children_of_function? hparts
  have hnodup : (f.nodes.map Node.id).Nodup := ht.nodup_ids.sublist ((sublist_nodes_of_mem hf).map _)
  rw [nodes_eq, hchildren, List.map_append (f := nodes), List.flatten_append, List.map_append, List.map_append]
    at hnodup
  refine (List.nodup_append.mp (List.nodup_append.mp hnodup).1).2.2 m.id ?_ m'.id ?_ hid
  · exact List.mem_map_of_mem (List.mem_flatten.mpr
      ⟨_, List.mem_map_of_mem (List.mem_append_right _ hpart), hm⟩)
  · simpa using ⟨m', hm', rfl⟩

/-- The header of a function is entered from the function only. -/
theorem InHeader.of_child (ht : t.Numbered) (hf : f ∈ t.root.nodes) (hparts : f.kind.function? = some parts)
    (hn : n ∈ t.root.nodes) (hc : c ∈ n.children) (h : f.InHeader c.id) : n = f ∨ f.InHeader n.id := by
  obtain ⟨part, hpart, m, hm, hid⟩ := h
  have hchild := mem_children_of_mem_header hparts hpart
  have hparent := ht.parent?_id hn hc
  rcases eq_or_mem_children hm with rfl | ⟨p, hp, hmp⟩
  · rw [← hid, ht.parent?_id hf hchild] at hparent
    refine .inl (Option.some.inj ?_)
    rw [← ht.node?_id hn, ← ht.node?_id hf, Option.some.inj hparent]
  · have hp' : p ∈ t.root.nodes :=
      nodes_subset_of_mem_nodes hf (nodes_subset_of_mem_children hchild hp)
    rw [← hid, ht.parent?_id hp' hmp] at hparent
    exact .inr ⟨part, hpart, p, hp, Option.some.inj hparent⟩

end Node

end Ast

namespace Scoping

open Ast

variable {t : Tree} {f n c : Node Place} {parts : FunctionParts (Node Place)} {as bs : List Action}

theorem mem_map_id {β : Type} {b : β} {bs : List β} (h : b ∈ bs) : b ∈ bs.map id := by
  rwa [List.map_id]

theorem mem_toList_map_id {β : Type} {b : β} {b? : Option β} (h : b ∈ b?) : b ∈ (b?.map id).toList := by
  rwa [Option.map_id_fun, id, Option.mem_toList]

/-! ### Framed actions -/

/-- The actions of the header of a function. -/
def headerActions (f : Node Place) (parts : FunctionParts (Node Place)) : List Action :=
  Action.ofParams f.id parts.params ++ Action.ofType? parts.returnType?

/-- Actions that refer to names of the header of a function only where the function is walked. -/
inductive Framed (f : Node Place) (parts : FunctionParts (Node Place)) : List Action → Prop where
  /-- No action. -/
  | nil : Framed f parts []
  /-- A declared name. -/
  | define (isHoisted : Bool) (name : String) (d : Definition) {as : List Action} (h : Framed f parts as) :
    Framed f parts (.define isHoisted name d :: as)
  /-- A reference from somewhere else. -/
  | refer (name : String) {identifier : NodeId} (use : Use) {as : List Action}
    (hi : ¬ f.InHeader identifier) (h : Framed f parts as) :
    Framed f parts (.refer name identifier use :: as)
  /-- A scope. -/
  | scope (type : ScopeType) (block : NodeId) (startsStrict : Bool) {as bs : List Action}
    (has : Framed f parts as) (hbs : Framed f parts bs) :
    Framed f parts (.openScope type block startsStrict :: (as ++ .closeScope :: bs))
  /-- The function itself. -/
  | function (startsStrict : Bool) {bs : List Action} (hbody : Framed f parts (Action.ofBody parts.body))
    (hbs : Framed f parts bs) :
    Framed f parts (.openScope .function f.id startsStrict ::
      (headerActions f parts ++ (Action.ofBody parts.body ++ .closeScope :: bs)))

theorem Framed.append (has : Framed f parts as) (hbs : Framed f parts bs) : Framed f parts (as ++ bs) := by
  induction has with
  | nil => exact hbs
  | define isHoisted name d _ ih => exact .define isHoisted name d ih
  | refer name use hi _ ih => exact .refer name use hi ih
  | scope type block startsStrict has' _ _ ih =>
    rw [List.cons_append, List.append_assoc, List.cons_append]
    exact .scope type block startsStrict has' ih
  | function startsStrict hbody _ _ ih =>
    rw [List.cons_append, List.append_assoc, List.append_assoc, List.cons_append]
    exact .function startsStrict hbody ih

theorem framed_ofDefinition (isHoisted : Bool) (name : String) (d : Definition) :
    Framed f parts (Action.ofDefinition isHoisted name d) := by
  rw [Action.ofDefinition]
  split
  · exact .nil
  · exact .define isHoisted name d .nil

theorem framed_ofReference (name : String) {identifier : NodeId} (use : Use) (hi : ¬ f.InHeader identifier) :
    Framed f parts (Action.ofReference name identifier use) := by
  rw [Action.ofReference]
  split
  · exact .nil
  · exact .refer name use hi .nil

/-- The actions of a scope and nothing else. -/
theorem Framed.enclosed (has : Framed f parts as) (type : ScopeType) (block : NodeId) (startsStrict : Bool) :
    Framed f parts (.openScope type block startsStrict :: (as ++ [.closeScope])) :=
  .scope type block startsStrict has .nil

theorem framed_ofTypes {ns : List (Node Place)} (h : ∀ n ∈ ns, Framed f parts (Action.ofType n)) :
    Framed f parts (Action.ofTypes ns) := by
  induction ns with
  | nil => exact .nil
  | cons n ns ih =>
    exact (h n List.mem_cons_self).append (ih fun m hm => h m (List.mem_cons_of_mem _ hm))

theorem framed_ofNodes {ns : List (Node Place)} (h : ∀ n ∈ ns, Framed f parts (Action.ofNode n)) :
    Framed f parts (Action.ofNodes ns) := by
  induction ns with
  | nil =>
    rw [Action.ofNodes]
    exact .nil
  | cons n ns ih =>
    rw [Action.ofNodes]
    exact (h n List.mem_cons_self).append (ih fun m hm => h m (List.mem_cons_of_mem _ hm))

theorem framed_ofNode? {n? : Option (Node Place)} (h : ∀ n ∈ n?, Framed f parts (Action.ofNode n)) :
    Framed f parts (Action.ofNode? n?) := by
  cases n? with
  | none =>
    rw [Action.ofNode?]
    exact .nil
  | some n =>
    rw [Action.ofNode?]
    exact h n rfl

/-! ### The actions of a tree -/

/-- A node of a tree that is in the header of the function neither itself nor with what is around it, short of
the function. -/
structure Outside (t : Tree) (f n : Node Place) : Prop where
  mem : n ∈ t.root.nodes
  out : ¬ f.InHeader n.id

/-- What holds of a tree and of one of its functions. -/
structure FunctionOf (t : Tree) (f : Node Place) (parts : FunctionParts (Node Place)) : Prop where
  numbered : t.Numbered
  mem : f ∈ t.root.nodes
  function : f.kind.function? = some parts

section

variable (hf : FunctionOf t f parts)

include hf

theorem Outside.child (h : Outside t f n) (hne : n ≠ f) (hc : c ∈ n.children) : Outside t f c where
  mem := Stands.mem_child h.mem hc
  out hin := (hin.of_child hf.numbered hf.mem hf.function h.mem hc).elim hne h.out

/-- The body of the function is no part of its header. -/
theorem outside_body : Outside t f parts.body where
  mem := Stands.mem_child hf.mem (Node.body_mem_children hf.function)
  out hin := hin.not_inBody hf.numbered hf.mem
    ⟨parts, hf.function, parts.body, parts.body.mem_nodes_self, rfl⟩

/-- The body of a function is outside with the function. -/
theorem Outside.body (h : Outside t f n) {ps : FunctionParts (Node Place)} (hn : n.kind.function? = some ps) :
    Outside t f ps.body := by
  by_cases hne : n = f
  · have hps := hf.function
    rw [← hne, hn] at hps
    cases hps
    exact outside_body hf
  · exact h.child hf hne (Node.body_mem_children hn)

/-- The children of a node that is no function are outside with the node. -/
theorem Outside.below {l : Place} {k : Kind (Name Place (Node Place)) (Node Place)} (h : Outside t f (.mk l k))
    (hk : k.function? = none) (hc : c ∈ (k.map Name.toNode id).children) : Outside t f c := by
  refine h.child hf ?_ hc
  rintro rfl
  have hfunction := hf.function
  rw [Node.kind_mk, hk] at hfunction
  cases hfunction

/-- The actions of a type that is no part of the header are framed. -/
theorem framed_ofType (n : Node Place) (h : Outside t f n) : Framed f parts (Action.ofType n) := by
  induction n using Node.induction_children with
  | h n ih =>
    obtain ⟨l, k⟩ := n
    have hchild : k.function? = none → ∀ c ∈ (k.map Name.toNode id).children,
        Outside t f c ∧ Framed f parts (Action.ofType c) := fun hk c hc =>
      ⟨h.below hf hk hc, ih c hc (h.below hf hk hc)⟩
    cases k
    case ascription type | arrayType type =>
      rw [Action.ofType]
      exact (hchild rfl type (.head _)).2
    case typeReference name =>
      rw [Action.ofType]
      exact framed_ofReference _ _ (hchild rfl name.toNode (.head _)).1.out
    case unionType members =>
      rw [Action.ofType]
      exact framed_ofTypes fun n hn => (hchild rfl n (mem_map_id hn)).2
    all_goals
      simp only [Action.ofType]
      exact .nil

theorem framed_ofType? {n? : Option (Node Place)} (h : ∀ n ∈ n?, Outside t f n) :
    Framed f parts (Action.ofType? n?) := by
  cases n? with
  | none => exact .nil
  | some n => exact framed_ofType hf n (h n rfl)

/-- What stands after a name refers to nothing in the header. -/
theorem framed_ascription (name : Name Place (Node Place)) (h : Outside t f name.toNode) :
    Framed f parts (Action.ofType? name.ascription?) :=
  framed_ofType? hf fun _ hn => h.below hf rfl (mem_toList_map_id hn)

theorem framed_ofDeclarators (isHoisted : Bool) (declaration : NodeId) {ns : List (Node Place)}
    (h : ∀ n ∈ ns, Outside t f n ∧ Framed f parts (Action.ofNode n)) :
    Framed f parts (Action.ofDeclarators isHoisted declaration ns) := by
  induction ns with
  | nil =>
    rw [Action.ofDeclarators]
    exact .nil
  | cons n ns ih =>
    have hns := ih fun m hm => h m (List.mem_cons_of_mem _ hm)
    obtain ⟨hn, hactions⟩ := h n List.mem_cons_self
    obtain ⟨l, k⟩ := n
    cases k
    case variableDeclarator name init? =>
      have hname := hn.below hf (c := name.toNode) rfl (.head _)
      have htype := framed_ascription hf _ hname
      cases init? with
      | none =>
        rw [Action.ofDeclarators]
        exact (framed_ofDefinition _ _ _).append (htype.append hns)
      | some init =>
        rw [Action.ofNode, Action.ofNode?] at hactions
        rw [Action.ofDeclarators]
        exact (framed_ofDefinition _ _ _).append
          (htype.append ((framed_ofReference _ _ hname.out).append (hactions.append hns)))
    all_goals
      simp only [Action.ofDeclarators]
      exact hns

theorem framed_ofParams (function : NodeId) {ns : List (Node Place)}
    (h : ∀ n ∈ ns, Outside t f n ∧ Framed f parts (Action.ofNode n)) :
    Framed f parts (Action.ofParams function ns) := by
  induction ns with
  | nil =>
    rw [Action.ofParams]
    exact .nil
  | cons n ns ih =>
    have hns := ih fun m hm => h m (List.mem_cons_of_mem _ hm)
    obtain ⟨hn, hactions⟩ := h n List.mem_cons_self
    obtain ⟨l, k⟩ := n
    cases k
    case assignmentPattern name value =>
      have hname := hn.below hf (c := name.toNode) rfl (.head _)
      rw [Action.ofNode] at hactions
      rw [Action.ofParams]
      exact (framed_ofDefinition _ _ _).append ((framed_ascription hf _ hname).append
        ((framed_ofReference _ _ hname.out).append (hactions.append hns)))
    case identifier name type? =>
      rw [Action.ofParams]
      exact (framed_ofDefinition _ _ _).append
        ((framed_ascription hf ⟨l, name, type?⟩ hn).append hns)
    all_goals
      simp only [Action.ofParams]
      exact hns

/-- A function is walked as one that has nothing to do with the header, or it is the function of the header. -/
theorem framed_function (ps : FunctionParts (Node Place)) (hn : n.kind.function? = some ps)
    (h : Outside t f n) (hparams : ∀ c ∈ n.children, Outside t f c → Framed f parts (Action.ofNode c))
    (hbody : Framed f parts (Action.ofBody ps.body)) (startsStrict : Bool) :
    Framed f parts (.openScope .function n.id startsStrict :: (Action.ofParams n.id ps.params ++
      (Action.ofType? ps.returnType? ++ (Action.ofBody ps.body ++ [.closeScope])))) := by
  by_cases hne : n = f
  · -- the function of the header: of its parts only the body has to be looked into
    have hps := hf.function
    rw [← hne, hn] at hps
    cases hps
    rw [← List.append_assoc, hne]
    exact .function startsStrict hbody .nil
  · have hheader : ∀ c ∈ ps.params ++ ps.returnType?.toList, c ∈ n.children ∧ Outside t f c := fun c hc =>
      have hc := Node.mem_children_of_mem_header hn (Kind.header_eq hn ▸ hc)
      ⟨hc, h.child hf hne hc⟩
    have hparams : Framed f parts (Action.ofParams n.id ps.params) := framed_ofParams hf n.id fun c hc =>
      have ⟨hchild, hout⟩ := hheader c (List.mem_append_left _ hc)
      ⟨hout, hparams c hchild hout⟩
    have htype : Framed f parts (Action.ofType? ps.returnType?) := framed_ofType? hf fun c hc =>
      (hheader c (List.mem_append_right _ (Option.mem_toList.mpr hc))).2
    rw [← List.append_assoc, ← List.append_assoc]
    exact ((hparams.append htype).append hbody).enclosed _ _ _

/-- The actions of a node that is no part of the header are framed. -/
theorem framed_of_outside (n : Node Place) :
    Outside t f n → Framed f parts (Action.ofNode n) ∧ Framed f parts (Action.ofBody n) := by
  induction n using Node.induction_children with
  | h n ih =>
    intro h
    have hnode : ∀ c ∈ n.children, Outside t f c → Framed f parts (Action.ofNode c) := fun c hc hout =>
      (ih c hc hout).1
    have hbody : ∀ {ps : FunctionParts (Node Place)}, n.kind.function? = some ps →
        Framed f parts (Action.ofBody ps.body) := fun hn =>
      (ih _ (Node.body_mem_children hn) (h.body hf hn)).2
    clear ih
    obtain ⟨l, k⟩ := n
    have hchild : k.function? = none → ∀ c ∈ (k.map Name.toNode id).children,
        Outside t f c ∧ Framed f parts (Action.ofNode c) := fun hk c hc =>
      ⟨h.below hf hk hc, hnode c hc (h.below hf hk hc)⟩
    cases k
    case blockStatement body =>
      have hstatements : Framed f parts (Action.ofNodes body) :=
        framed_ofNodes fun n hn => (hchild rfl n (mem_map_id hn)).2
      rw [Action.ofNode, Action.ofBody]
      exact ⟨hstatements.enclosed _ _ _, hstatements⟩
    all_goals
      rw [ofBody_of_not_isBlock rfl, and_self_iff]
    case program body | arrayExpression body =>
      rw [Action.ofNode]
      exact framed_ofNodes fun n hn => (hchild rfl n (mem_map_id hn)).2
    case variableDeclaration keyword declarators =>
      rw [Action.ofNode]
      exact framed_ofDeclarators hf _ _ fun n hn => hchild rfl n (mem_map_id hn)
    case variableDeclarator name init? =>
      rw [Action.ofNode]
      exact framed_ofNode? fun n hn => (hchild rfl n (.tail _ (mem_toList_map_id hn))).2
    case functionDeclaration name params returnType? body =>
      rw [Action.ofNode]
      exact (framed_ofDefinition _ _ _).append
        (framed_function hf ⟨params, returnType?, body⟩ rfl h hnode (hbody rfl) _)
    case arrowFunction params returnType? body isExpression =>
      rw [Action.ofNode]
      exact framed_function hf ⟨params, returnType?, body⟩ rfl h hnode (hbody rfl) _
    case typeAlias name type =>
      rw [Action.ofNode]
      exact (framed_ofDefinition _ _ _).append
        ((framed_ofType hf type (hchild rfl type (.tail _ (.head _))).1).enclosed _ _ _)
    case expressionStatement expr | unaryExpression expr | memberExpression expr _ =>
      rw [Action.ofNode]
      exact (hchild rfl _ (.head _)).2
    case assignmentPattern left right =>
      rw [Action.ofNode]
      exact (hchild rfl right (.tail _ (.head _))).2
    case returnStatement argument? =>
      rw [Action.ofNode]
      exact framed_ofNode? fun n hn => (hchild rfl n (mem_toList_map_id hn)).2
    case ifStatement test consequent alternate? =>
      rw [Action.ofNode]
      exact (hchild rfl test (.head _)).2.append ((hchild rfl consequent (.tail _ (.head _))).2.append
        (framed_ofNode? fun n hn => (hchild rfl n (.tail _ (.tail _ (mem_toList_map_id hn)))).2))
    case whileStatement test body =>
      rw [Action.ofNode]
      exact (hchild rfl test (.head _)).2.append (hchild rfl body (.tail _ (.head _))).2
    case identifier name type? =>
      rw [Action.ofNode]
      exact framed_ofReference _ _ h.out
    case callExpression callee arguments =>
      rw [Action.ofNode]
      exact (hchild rfl callee (.head _)).2.append
        (framed_ofNodes fun n hn => (hchild rfl n (.tail _ (mem_map_id hn))).2)
    case binaryExpression op left right =>
      obtain ⟨hleft, hactions⟩ := hchild rfl left (.head _)
      have hright := (hchild rfl right (.tail _ (.head _))).2
      obtain ⟨l', k⟩ := left
      cases k
      case identifier name type? =>
        rw [Action.ofNode]
        refine .append ?_ hright
        split
        · exact framed_ofReference _ _ hleft.out
        · exact hactions
      all_goals
        rw [Action.ofNode]
        · exact hactions.append hright
        · simp
    case ascription type | arrayType type =>
      rw [Action.ofNode]
      exact framed_ofType hf type (hchild rfl type (.head _)).1
    case typeReference name =>
      rw [Action.ofNode]
      exact framed_ofReference _ _ (hchild rfl name.toNode (.head _)).1.out
    case unionType members =>
      rw [Action.ofNode]
      exact framed_ofTypes fun n hn => framed_ofType hf n (hchild rfl n (mem_map_id hn)).1
    all_goals
      rw [Action.ofNode]
      exact .nil

end

/-- The statements of a program refer to names of the header of a function only where the function is walked. -/
theorem framed_body (ht : t.Indexed) (hf : f ∈ t.root.nodes) (hparts : f.kind.function? = some parts) :
    Framed f parts (Action.ofNodes t.body) := by
  have hfunction : FunctionOf t f parts := ⟨ht.toNumbered, hf, hparts⟩
  have hroot : Outside t f t.root := by
    refine ⟨t.root.mem_nodes_self, ?_⟩
    rintro ⟨part, hpart, m, hm, hid⟩
    -- every node of the header has a parent
    have hchild := Node.mem_children_of_mem_header hparts hpart
    have hparent : ∃ p ∈ t.root.nodes, m ∈ p.children := by
      rcases Node.eq_or_mem_children hm with rfl | ⟨p, hp, hmp⟩
      · exact ⟨f, hf, hchild⟩
      · exact ⟨p, Node.nodes_subset_of_mem_nodes hf (Node.nodes_subset_of_mem_children hchild hp), hmp⟩
    obtain ⟨p, hp, hmp⟩ := hparent
    have h := ht.parent?_id hp hmp
    rw [hid, ht.parent?_root] at h
    cases h
  refine framed_ofNodes fun n hn =>
    (framed_of_outside hfunction n (hroot.child hfunction ?_ ((children_root ht).symm ▸ hn))).1
  rintro rfl
  rw [ht.program] at hparts
  cases hparts

end Scoping

end ScriptAnalysis

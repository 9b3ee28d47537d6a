import ScriptAnalysis.Proofs.Scoping.Sites

/-!
# Where the strict rules hold

The action that opens a scope says whether the strict rules begin there, and a scope has them when they begin
there or around it (`OpenedWith`). What it says depends on the opened node and the type of the scope alone, so
the strict rules hold in a scope exactly when they begin with it or with a scope around it
(`ScopeGraph.isStrictAt_ofTree_iff`).
-/

namespace ScriptAnalysis

namespace Ast

/-- The statements that a program or a function runs. -/
def Node.ownStatements {α : Type} (n : Node α) : List (Node α) :=
  match n.kind with
  | .program body => body
  | .functionDeclaration _ _ _ body | .arrowFunction _ _ body _ => body.statements
  | _ => []

open Scoping in
/-- Whether the strict rules begin with a scope of a type that the node opens. -/
def Node.startsStrict (type : ScopeType) (n : Node Place) : Bool :=
  match type with
  | .module => true
  | .global | .function => Action.startsStrict n.ownStatements
  | .block | .typeAlias => false

end Ast

namespace Scoping

open Ast

/-! ### Scopes and the actions that open them -/

namespace ScopeGraph

/-- Every scope was opened by one of the actions: its strict rules begin there or hold around it. -/
def OpenedWith (g : ScopeGraph) (as : List Action) : Prop :=
  ∀ (s : ScopeId) x, g.scopes[s]? = some x →
    ∃ b, .openScope x.type x.block b ∈ as ∧ x.isStrict = (b || (g.upperOf? s).any g.isStrictAt)

section

variable {g g' : ScopeGraph} {as : List Action}

theorem OpenedWith.append (h : g.OpenedWith as) (bs : List Action) : g.OpenedWith (as ++ bs) := fun s x hx => by
  obtain ⟨b, hb, hstrict⟩ := h s x hx
  exact ⟨b, List.mem_append_left _ hb, hstrict⟩

theorem OpenedWith.of_same (h : g.OpenedWith as) (hsame : SameScopes g g') : g'.OpenedWith as := by
  intro s x hx
  have hold := hsame.scope (fun x => (x.type, x.block, x.isStrict)) (fun _ _ _ _ => rfl) s
  rw [hx, Option.map_some, eq_comm, Option.map_eq_some_iff] at hold
  obtain ⟨y, hy, heq⟩ := hold
  obtain ⟨htype, hblock, hisStrict⟩ : y.type = x.type ∧ y.block = x.block ∧ y.isStrict = x.isStrict := by
    simpa using heq
  obtain ⟨b, hb, hstrict⟩ := h s y hy
  rw [htype, hblock] at hb
  exact ⟨b, hb, by rw [← hisStrict, hstrict, hsame.upperOf?, funext hsame.isStrictAt]⟩

theorem isStrictAt_addScope_of_ne (type : ScopeType) (block : NodeId) (upper? : Option ScopeId) (b : Bool)
    {s : ScopeId} (hs : s ≠ g.scopes.size) :
    (g.addScope type block upper? b).isStrictAt s = g.isStrictAt s := by
  rw [isStrictAt, map_getElem?_addScope g _ _ _ _ fun _ _ => rfl, Array.getElem?_push, if_neg hs]
  rfl

theorem OpenedWith.addScope (h : g.OpenedWith as) (hg : g.Upward) (type : ScopeType) (block : NodeId)
    {upper? : Option ScopeId} (hupper : ∀ u ∈ upper?, u < g.scopes.size) (b : Bool) :
    (g.addScope type block upper? b).OpenedWith (as ++ [.openScope type block b]) := by
  intro s x hx
  have hnew := map_getElem?_addScope g type block upper? b (k := fun x => (x.type, x.block, x.isStrict))
    (fun _ _ => rfl) s
  rw [hx, Option.map_some, Array.getElem?_push] at hnew
  -- the scopes around are strict as they were
  have haround : ∀ {u? : Option ScopeId}, (∀ u ∈ u?, u < g.scopes.size) →
      u?.any (g.addScope type block upper? b).isStrictAt = u?.any g.isStrictAt := by
    intro u? hu?
    cases u? with
    | none => rfl
    | some u => exact isStrictAt_addScope_of_ne type block upper? b (Nat.ne_of_lt (hu? u rfl))
  rw [upperOf?_addScope]
  split at hnew
  · obtain ⟨htype, hblock, hstrict⟩ : x.type = type ∧ x.block = block ∧
        x.isStrict = (b || (upper?.bind fun u => g.scopes[u]?).any (·.isStrict)) := by
      simpa [newScope] using hnew
    refine ⟨b, by simp [htype, hblock], ?_⟩
    rw [if_pos ‹_›, haround hupper, hstrict]
    cases upper? with
    | none => rfl
    | some u =>
      rw [Option.bind_some, Option.any_some, isStrictAt]
      cases g.scopes[u]? <;> rfl
  · obtain ⟨y, hy, heq⟩ := Option.map_eq_some_iff.mp hnew.symm
    obtain ⟨htype, hblock, hisStrict⟩ : y.type = x.type ∧ y.block = x.block ∧ y.isStrict = x.isStrict := by
      simpa using heq
    obtain ⟨b', hb', hstrict⟩ := h s y hy
    have hs : s < g.scopes.size := (Array.getElem?_eq_some_iff.mp hy).1
    rw [htype, hblock] at hb'
    refine ⟨b', List.mem_append_left _ hb', ?_⟩
    rw [if_neg ‹_›, haround fun u hu => Nat.lt_trans (hg s u hu) hs, ← hisStrict, hstrict]

/-- A step opens at most the scope that the action says. -/
theorem OpenedWith.step {p : Progress} {t : Names.Trace NodeId} (h : p.graph.OpenedWith as) (hp : Names.Passes p t)
    (a : Action) : (p.step a).graph.OpenedWith (as ++ [a]) := by
  have hupward := hp.upward
  have hlinked := hp.linked
  obtain ⟨g, os⟩ := p
  cases a with
  | openScope type block b =>
    refine h.addScope hupward type block (fun u hu => ?_) b
    cases os with
    | nil => cases hu
    | cons o os =>
      cases hu
      exact hlinked.1.1
  | closeScope =>
    cases os with
    | nil => exact h.append _
    | cons o os => exact (h.append _).of_same (sameScopes_settle g o.scope o.waiting)
  | define isHoisted name d =>
    cases os with
    | nil => exact h.append _
    | cons o os => exact (h.append _).of_same (sameScopes_addDefinition g _ name d)
  | refer name identifier use =>
    cases os with
    | nil => exact h.append _
    | cons o os => exact (h.append _).of_same (sameScopes_addReference g o.scope name identifier use)

theorem OpenedWith.follow {p : Progress} {t : Names.Trace NodeId} (h : p.graph.OpenedWith as)
    (hp : Names.Passes p t) (bs : List Action) : (p.follow bs).graph.OpenedWith (as ++ bs) := by
  induction bs generalizing p t as with
  | nil =>
    rw [List.append_nil]
    exact h
  | cons b bs ih =>
    rw [Progress.follow_cons, List.append_cons]
    exact ih (h.step hp b) (hp.step b)

/-- The scopes of a program are those that its actions open. -/
theorem openedWith_ofTree (options : Options) (t : Tree) :
    (ofTree options t).OpenedWith (Action.ofProgram options t) := by
  have hempty : ({ options } : ScopeGraph).OpenedWith [] := fun s x hx => by simp at hx
  exact hempty.follow (Names.passes_empty options) (Action.ofProgram options t)

/-- When the opened node and the type of a scope say whether the strict rules begin there, they hold in a scope
when they begin with it or with one around it. -/
theorem OpenedWith.isStrictAt_iff (h : g.OpenedWith as) (hg : g.Upward) {begins : ScopeType → NodeId → Bool}
    (hbegins : ∀ type block b, Action.openScope type block b ∈ as → b = begins type block) {s : ScopeId}
    (hs : s < g.scopes.size) : g.isStrictAt s = true ↔
      ∃ u ∈ g.chain s, ∃ x, g.scopes[u]? = some x ∧ begins x.type x.block = true := by
  induction s using Nat.strongRecOn with
  | ind s ih =>
    have hscope : g.scopes[s]? = some g.scopes[s] := Array.getElem?_eq_getElem hs
    obtain ⟨b, hb, hstrict⟩ := h s _ hscope
    -- the chain is the scope and the chain of the scope around it
    have hself : (∃ x, g.scopes[s]? = some x ∧ begins x.type x.block = true) ↔ b = true := by
      simp [hscope, hbegins _ _ _ hb]
    have haround : (g.upperOf? s).any g.isStrictAt = true ↔
        ∃ u ∈ (g.upperOf? s).elim [] g.chain, ∃ x, g.scopes[u]? = some x ∧ begins x.type x.block = true := by
      cases hu : g.upperOf? s with
      | none => simp
      | some u =>
        have hlt := hg s u hu
        exact ih u hlt (Nat.lt_trans hlt hs)
    rw [isStrictAt, hscope, Option.map_some, Option.getD_some, hstrict, Bool.or_eq_true, hg.chain_eq hs,
      List.exists_mem_cons_iff, hself, haround]

end

end ScopeGraph

/-! ### The nodes that open scopes -/

namespace Action

variable {type : ScopeType} {block : NodeId} {b : Bool}

/-- The body of a function asks for the strict rules when its statements do. -/
theorem bodyStartsStrict_eq (body : Node Place) : bodyStartsStrict body = startsStrict body.statements := by
  obtain ⟨l, k⟩ := body
  cases k <;> rfl

theorem not_mem_of_openedBlocks_eq_nil {as : List Action} (h : openedBlocks as = []) :
    Action.openScope type block b ∉ as := by
  intro hmem
  have hblock : block ∈ openedBlocks as := List.mem_filterMap.mpr ⟨_, hmem, rfl⟩
  rw [h] at hblock
  cases hblock

@[simp] theorem openScope_mem_ofDefinition (isHoisted : Bool) (name : String) (d : Definition) :
    openScope type block b ∈ ofDefinition isHoisted name d ↔ False :=
  iff_false_intro (not_mem_of_openedBlocks_eq_nil (openedBlocks_ofDefinition isHoisted name d))

@[simp] theorem openScope_mem_ofReference (name : String) (identifier : NodeId) (use : Use) :
    openScope type block b ∈ ofReference name identifier use ↔ False :=
  iff_false_intro (not_mem_of_openedBlocks_eq_nil (openedBlocks_ofReference name identifier use))

@[simp] theorem openScope_mem_ofType (n : Node Place) : openScope type block b ∈ ofType n ↔ False :=
  iff_false_intro (not_mem_of_openedBlocks_eq_nil (openedBlocks_ofType n))

@[simp] theorem openScope_mem_ofTypes (ns : List (Node Place)) : openScope type block b ∈ ofTypes ns ↔ False :=
  iff_false_intro (not_mem_of_openedBlocks_eq_nil (openedBlocks_ofTypes ns))

@[simp] theorem openScope_mem_ofType? (n? : Option (Node Place)) :
    openScope type block b ∈ ofType? n? ↔ False :=
  iff_false_intro (not_mem_of_openedBlocks_eq_nil (openedBlocks_ofType? n?))

@[simp] theorem openScope_mem_toNode (name : Name Place (Node Place)) :
    openScope type block b ∈ ofNode name.toNode ↔ False := by
  rw [Name.toNode, ofNode, openScope_mem_ofReference]

theorem mem_ofNodes_iff {a : Action} {ns : List (Node Place)} : a ∈ ofNodes ns ↔ ∃ n ∈ ns, a ∈ ofNode n := by
  induction ns with
  | nil => simp [ofNodes]
  | cons n ns ih => rw [ofNodes, List.mem_append, ih, List.exists_mem_cons_iff]

theorem mem_ofNode?_iff {a : Action} {n? : Option (Node Place)} : a ∈ ofNode? n? ↔ ∃ n ∈ n?, a ∈ ofNode n := by
  cases n? <;> simp [ofNode?]

theorem mem_ofNode_of_mem_ofBody {a : Action} {n : Node Place} (h : a ∈ ofBody n) : a ∈ ofNode n := by
  cases hblock : n.kind.isBlock with
  | false => rwa [ofBody_of_not_isBlock hblock] at h
  | true =>
    rw [ofBody_of_isBlock hblock] at h
    obtain ⟨l, k⟩ := n
    cases k <;> simp only [Node.kind_mk, Kind.isBlock, Bool.false_eq_true] at hblock
    rw [ofNode]
    exact List.mem_cons_of_mem _ (List.mem_append_left _ h)

/-- The declarators of a declaration open scopes in their values alone. -/
theorem exists_of_mem_ofDeclarators {isHoisted : Bool} {declaration : NodeId} {ns : List (Node Place)}
    (h : openScope type block b ∈ ofDeclarators isHoisted declaration ns) :
    ∃ n ∈ ns, openScope type block b ∈ ofNode n := by
  induction ns with
  | nil => simp [ofDeclarators] at h
  | cons n ns ih =>
    rw [List.exists_mem_cons_iff]
    obtain ⟨l, k⟩ := n
    cases k
    case variableDeclarator name init? =>
      cases init? with
      | none =>
        simp only [ofDeclarators, List.mem_append, openScope_mem_ofDefinition, openScope_mem_ofType?,
          false_or] at h
        exact .inr (ih h)
      | some init =>
        simp only [ofDeclarators, List.mem_append, openScope_mem_ofDefinition, openScope_mem_ofType?,
          openScope_mem_ofReference, false_or] at h
        refine h.imp (fun h => ?_) ih
        rw [ofNode, ofNode?]
        exact h
    all_goals
      simp only [ofDeclarators] at h
      exact .inr (ih h)

/-- The parameters of a function open scopes in their default values alone. -/
theorem exists_of_mem_ofParams {function : NodeId} {ns : List (Node Place)}
    (h : openScope type block b ∈ ofParams function ns) : ∃ n ∈ ns, openScope type block b ∈ ofNode n := by
  induction ns with
  | nil => simp [ofParams] at h
  | cons n ns ih =>
    rw [List.exists_mem_cons_iff]
    obtain ⟨l, k⟩ := n
    cases k
    case assignmentPattern name value =>
      simp only [ofParams, List.mem_append, openScope_mem_ofDefinition, openScope_mem_ofType?,
        openScope_mem_ofReference, false_or] at h
      refine h.imp (fun h => ?_) ih
      rw [ofNode]
      exact h
    all_goals
      simp only [ofParams, List.mem_append, openScope_mem_ofDefinition, openScope_mem_ofType?, false_or] at h
      exact .inr (ih h)

theorem openScope_mem_binaryExpression {l : Place} {op : Syntax.BinaryOperator} {left right : Node Place}
    (h : openScope type block b ∈ ofNode (.mk l (.binaryExpression op left right))) :
    openScope type block b ∈ ofNode left ∨ openScope type block b ∈ ofNode right := by
  obtain ⟨l', k⟩ := left
  cases k
  case identifier name type? =>
    rw [ofNode, List.mem_append] at h
    refine h.imp_left fun h => ?_
    split at h
    · simp at h
    · exact h
  all_goals
    rw [ofNode] at h
    · exact List.mem_append.mp h
    · simp

/-- A scope is opened by a node itself or by one of its children. -/
theorem opens_or_child_of_mem_ofNode {n : Node Place} (h : openScope type block b ∈ ofNode n) :
    (n.id = block ∧ b = n.startsStrict type) ∨ ∃ c ∈ n.children, openScope type block b ∈ ofNode c := by
  obtain ⟨l, k⟩ := n
  simp only [mem_children_mk_iff]
  cases k
  case functionDeclaration name params returnType? body | arrowFunction params returnType? body isExpression =>
    simp only [ofNode, List.mem_append, List.mem_cons, openScope_mem_ofDefinition, openScope_mem_ofType?, false_or,
      openScope.injEq, reduceCtorEq, List.not_mem_nil, or_false] at h
    rcases h with ⟨rfl, rfl, rfl⟩ | h | h
    · exact .inl ⟨rfl, bodyStartsStrict_eq body⟩
    · obtain ⟨c, hc, h⟩ := exists_of_mem_ofParams h
      exact .inr ⟨c, by simp [Kind.map, Kind.children, hc], h⟩
    · exact .inr ⟨body, by simp [Kind.map, Kind.children], mem_ofNode_of_mem_ofBody h⟩
  case binaryExpression op left right =>
    refine .inr ?_
    simpa [Kind.map, Kind.children] using openScope_mem_binaryExpression h
  case variableDeclaration keyword declarators =>
    rw [ofNode] at h
    obtain ⟨c, hc, h⟩ := exists_of_mem_ofDeclarators h
    exact .inr ⟨c, by simpa [Kind.map, Kind.children] using hc, h⟩
  case typeAlias name type' =>
    simp only [ofNode, List.mem_append, List.mem_cons, openScope_mem_ofDefinition, openScope_mem_ofType, false_or,
      openScope.injEq, reduceCtorEq, List.not_mem_nil, or_false] at h
    obtain ⟨rfl, rfl, rfl⟩ := h
    exact .inl ⟨rfl, rfl⟩
  case blockStatement body =>
    simp only [ofNode, List.mem_append, List.mem_cons, openScope.injEq, reduceCtorEq, List.not_mem_nil,
      or_false, mem_ofNodes_iff] at h
    rcases h with ⟨rfl, rfl, rfl⟩ | h
    · exact .inl ⟨rfl, rfl⟩
    · exact .inr (by simpa [Kind.map, Kind.children] using h)
  -- names, types and literals open nothing
  case emptyStatement | literal | keywordType | identifier | typeReference | ascription | arrayType | unionType =>
    simp [ofNode] at h
  all_goals
    refine .inr ?_
    simpa [ofNode, mem_ofNodes_iff, mem_ofNode?_iff, Kind.map, Kind.children] using h

/-- A scope is opened by a node that says whether the strict rules begin there. -/
theorem exists_node_of_mem_ofNode {n : Node Place} (h : openScope type block b ∈ ofNode n) :
    ∃ m ∈ n.nodes, m.id = block ∧ b = m.startsStrict type := by
  induction n using Node.induction_children with
  | h n ih =>
    rcases opens_or_child_of_mem_ofNode h with h | ⟨c, hc, h⟩
    · exact ⟨n, n.mem_nodes_self, h⟩
    · obtain ⟨m, hm, h⟩ := ih c hc h
      exact ⟨m, Node.nodes_subset_of_mem_children hc hm, h⟩

theorem exists_node_of_mem_ofProgram {t : Tree} (ht : t.Indexed) {options : Options}
    (h : openScope type block b ∈ ofProgram options t) :
    ∃ m ∈ t.root.nodes, m.id = block ∧ b = m.startsStrict type := by
  have hroot : t.root.ownStatements = t.body := by rw [Node.ownStatements, ht.program]
  rw [ofProgram, List.mem_append, List.mem_append] at h
  rcases h with h | h | h
  · refine ⟨t.root, t.root.mem_nodes_self, ?_⟩
    simp only [ofHeader, List.mem_cons, List.mem_append, List.mem_ite_nil_right, List.not_mem_nil, or_false,
      openScope.injEq] at h
    obtain ⟨rfl, rfl, rfl⟩ | ⟨-, rfl, rfl, rfl⟩ | ⟨-, rfl, rfl, rfl⟩ := h
    · exact ⟨rfl, by rw [Node.startsStrict, hroot]⟩
    · exact ⟨rfl, by rw [Node.startsStrict, hroot]⟩
    · exact ⟨rfl, rfl⟩
  · obtain ⟨n, hn, h⟩ := mem_ofNodes_iff.mp h
    obtain ⟨m, hm, h⟩ := exists_node_of_mem_ofNode h
    exact ⟨m, Node.nodes_subset_of_mem_children ((children_root ht).symm ▸ hn) hm, h⟩
  · simp at h

end Action

/-- **Where the strict rules hold.** They hold in a scope when they begin with it or with a scope around it. -/
theorem ScopeGraph.isStrictAt_ofTree_iff {t : Tree} (ht : t.Indexed) (options : Options) {s : ScopeId}
    (hs : s < (ofTree options t).scopes.size) : (ofTree options t).isStrictAt s = true ↔
      ∃ u ∈ (ofTree options t).chain s, ∃ x, (ofTree options t).scopes[u]? = some x ∧
        ∃ m, t.node? x.block = some m ∧ m.startsStrict x.type = true := by
  have hupward := ((Names.passes_empty options).follow (Action.ofProgram options t)).upward
  have hbegins : ∀ type block b, Action.openScope type block b ∈ Action.ofProgram options t →
      b = (t.node? block).any (·.startsStrict type) := by
    intro type block b h
    obtain ⟨m, hm, rfl, rfl⟩ := Action.exists_node_of_mem_ofProgram ht h
    rw [ht.node?_id hm, Option.any_some]
  refine ((openedWith_ofTree options t).isStrictAt_iff hupward hbegins hs).trans ?_
  simp only [Option.any_eq_true]

end Scoping

end ScriptAnalysis

import ScriptAnalysis.Proofs.Collections
import ScriptAnalysis.Proofs.Scoping.Passing
import ScriptAnalysis.Scoping.Tables

/-!
# The tables show the graph

Following the walk with tables gives what following it with a graph gives: `Shows t g` says that the
scopes, variables and references are the same and that every other table of `t` holds what `g` reads off
them. There is one lemma for each change of the tables, and `keepsPace_ofTree` is the induction over the
walk. At its end all scopes are closed, so no reference waits any more (`waitingIn_ofTree`).
-/

namespace ScriptAnalysis.Scoping

open Ast (NodeId)

/-! ### What a graph looks up -/

namespace ScopeGraph

variable (g : ScopeGraph)

/-- The graph with one more scope, which no other one lists. -/
def pushScope (x : Scope) : ScopeGraph := { g with scopes := g.scopes.push x }

/-- A new scope comes last among those that its node opens. -/
theorem scopesOf_pushScope (x : Scope) (node : NodeId) :
    (g.pushScope x).scopesOf node =
      if node = x.block then g.scopesOf node ++ [g.scopes.size] else g.scopesOf node := by
  have hold : (List.range g.scopes.size).filter (fun s =>
      ((g.scopes.push x)[s]?.map (·.block)) == some node) = g.scopesOf node := by
    refine List.filter_congr fun s hs => ?_
    rw [Array.getElem?_push, if_neg (Nat.ne_of_lt (List.mem_range.mp hs))]
  rw [scopesOf, pushScope, Array.size_push, List.range_succ, List.filter_append, hold]
  by_cases hnode : node = x.block
  · simp [hnode]
  · simp [hnode, Ne.symm hnode]

theorem alike_pushScope {x : Scope} (hx : x.vars = []) : Alike g (g.pushScope x) where
  varsOf s := by
    show ((g.scopes.push x)[s]?.map _).getD [] = _
    rw [varsOf, Array.getElem?_push]
    by_cases hs : s = g.scopes.size
    · rw [if_pos hs, hs, Array.getElem?_size, Option.map_some, hx]
      rfl
    · rw [if_neg hs]
  core _ := rfl

/-- What nodes open depends on the blocks of the scopes alone. -/
theorem scopesOf_congr {g g' : ScopeGraph} (hsize : g'.scopes.size = g.scopes.size)
    (hblock : ∀ s : ScopeId, g'.scopes[s]?.map (·.block) = g.scopes[s]?.map (·.block))
    (node : NodeId) : g'.scopesOf node = g.scopesOf node := by
  simp only [scopesOf, hsize, hblock]

/-- A definition is declared by its node and by the declaration around it. -/
theorem declaredBy_push {g g' : ScopeGraph} {v : VariableId} {d : Definition}
    (h : g'.definitions = g.definitions.push (v, d)) (node : NodeId) :
    g'.declaredBy node =
      if d.isBy node ∧ v ∉ g.declaredBy node then g.declaredBy node ++ [v]
      else g.declaredBy node := by
  rw [declaredBy, h, Array.toList_push, List.filter_append, List.map_append, declaredBy]
  by_cases hby : d.isBy node = true
  · have hfilter : [(v, d)].filter (·.2.isBy node) = [(v, d)] := by simp [hby]
    rw [hfilter, List.map_singleton, eraseDups_concat]
    simp only [hby, true_and, List.mem_eraseDups, ite_not]
  · have hfilter : [(v, d)].filter (·.2.isBy node) = [] := by simp [hby]
    rw [hfilter, List.map_nil, List.append_nil, if_neg fun h => hby h.1]

/-! ### Answering references one by one -/

theorem answer?_resolve (answered : ReferenceId × VariableId) (s : ScopeId) (i : ReferenceId) :
    (g.resolve answered).answer? s i = g.answer? s i := by
  have hreferences : (g.resolve answered).references[i]? = g.references[i]?.map fun r =>
      if answered.1 = i then { r with target? := some answered.2 } else r := by
    show (g.references.modify answered.1 _)[i]? = _
    rw [Array.getElem?_modify]
    by_cases hi : answered.1 = i
    · simp [hi]
    · simp [hi]
  rw [answer?_eq, answer?_eq, hreferences, Option.bind_map]
  refine congrArg (Option.bind _) (funext fun r => ?_)
  simp only [Function.comp_apply, (alike_resolve g answered).answerTo?]
  by_cases hi : answered.1 = i
  · rw [if_pos hi]
  · rw [if_neg hi]

/-- The graph with references let through by a scope. -/
def letThrough (s : ScopeId) (references : List ReferenceId) : ScopeGraph :=
  g.modifyScope s fun x => { x with through := x.through ++ references }

theorem answer?_letThrough (s s' : ScopeId) (references : List ReferenceId) (i : ReferenceId) :
    (g.letThrough s references).answer? s' i = g.answer? s' i := by
  rw [answer?_eq, answer?_eq]
  refine congrArg (Option.bind _) (funext fun r => ?_)
  have halike : Alike g (g.letThrough s references) := alike_modifyScope g s fun _ => rfl
  exact halike.answerTo? s' r.name r.use

theorem settle_eq (s : ScopeId) (waiting : List ReferenceId) :
    g.settle s waiting =
      ((g.answered s waiting).foldl resolve g).letThrough s (g.unanswered s waiting) := rfl

theorem settle_nil (s : ScopeId) : g.settle s [] = g := by
  have hscopes : g.scopes.modify s (fun x => { x with through := x.through ++ [] }) = g.scopes :=
    modify_of_eq (fun x => by rw [List.append_nil]) g.scopes s
  exact congrArg (fun scopes => { g with scopes }) hscopes

/-- What is answered and what is not depend on the answers alone. -/
theorem answered_congr {g g' : ScopeGraph} {s : ScopeId} (h : ∀ i, g'.answer? s i = g.answer? s i)
    (waiting : List ReferenceId) :
    g'.answered s waiting = g.answered s waiting ∧ g'.unanswered s waiting = g.unanswered s waiting := by
  simp only [answered, unanswered, h, and_self]

theorem settle_cons_of_some {s : ScopeId} {i : ReferenceId} {v : VariableId}
    (h : g.answer? s i = some v) (waiting : List ReferenceId) :
    g.settle s (i :: waiting) = (g.resolve (i, v)).settle s waiting := by
  obtain ⟨hanswered, hunanswered⟩ := answered_congr (g.answer?_resolve (i, v) s) waiting
  rw [settle_eq, settle_eq, hanswered, hunanswered]
  simp [answered, unanswered, h]

theorem foldl_resolve_letThrough (s : ScopeId) (references : List ReferenceId)
    (answered : List (ReferenceId × VariableId)) :
    answered.foldl resolve (g.letThrough s references) =
      (answered.foldl resolve g).letThrough s references := by
  induction answered generalizing g with
  | nil => rfl
  | cons a answered ih => exact ih (g.resolve a)

theorem settle_cons_of_none {s : ScopeId} {i : ReferenceId} (h : g.answer? s i = none)
    (waiting : List ReferenceId) :
    g.settle s (i :: waiting) = (g.letThrough s [i]).settle s waiting := by
  obtain ⟨hanswered, hunanswered⟩ := answered_congr (g.answer?_letThrough s s [i]) waiting
  have hcons : g.answered s (i :: waiting) = g.answered s waiting ∧
      g.unanswered s (i :: waiting) = i :: g.unanswered s waiting := by
    simp [answered, unanswered, h]
  rw [settle_eq, settle_eq, hanswered, hunanswered, hcons.1, hcons.2, foldl_resolve_letThrough]
  simp only [letThrough, modifyScope, modify_modify, List.append_assoc, List.singleton_append]

end ScopeGraph

/-! ### Tables that show a graph -/

namespace ScopeTables

/-- The references that wait in a scope. -/
def waitingIn (t : ScopeTables) (s : ScopeId) : List ReferenceId :=
  (t.scopes[s]?.map (·.waiting)).getD []

/-- The tables hold what the graph has and what it looks up. -/
structure Shows (t : ScopeTables) (g : ScopeGraph) : Prop where
  options : t.options = g.options
  scopes : t.scopes.map (·.toScope) = g.scopes
  vars : t.vars.map (·.toVariable) = g.vars
  references : t.references = g.references
  find? : ∀ s name, t.find? s name = g.variableIn? s name
  stands : ∀ x ∈ t.vars, x.names = x.toVariable.identifiers ∧
    x.standsForValue = x.toVariable.isValue ∧ x.standsForType = x.toVariable.isType
  opened : t.opened = g.scopesOf
  declared : t.declared = g.declaredBy

theorem shows_empty (options : Options) : Shows { options } { options } where
  options := rfl
  scopes := by simp
  vars := by simp
  references := rfl
  find? _ _ := rfl
  stands _ hx := by simp at hx
  opened := by
    funext node
    simp [ScopeGraph.scopesOf]
  declared := by
    funext node
    simp [ScopeGraph.declaredBy]

/-- A change of a scope that leaves the names of its variables. -/
theorem find?_modifyScope (t : ScopeTables) (scope : ScopeId) {f : ScopeRow → ScopeRow}
    (hf : ∀ x, (f x).byName = x.byName) (s : ScopeId) (name : String) :
    (t.modifyScope scope f).find? s name = t.find? s name := by
  show (t.scopes.modify scope f)[s]?.bind _ = t.scopes[s]?.bind _
  rw [Array.getElem?_modify]
  by_cases hs : scope = s
  · rw [if_pos hs, Option.bind_map]
    exact congrArg (Option.bind _) (funext fun x => by rw [Function.comp_apply, hf])
  · rw [if_neg hs]

theorem waitingIn_modifyScope (t : ScopeTables) (scope : ScopeId) {f : ScopeRow → ScopeRow}
    (hf : ∀ x, (f x).waiting = x.waiting) (s : ScopeId) :
    (t.modifyScope scope f).waitingIn s = t.waitingIn s := by
  show ((t.scopes.modify scope f)[s]?.map _).getD [] = _
  rw [waitingIn, Array.getElem?_modify]
  by_cases hs : scope = s
  · rw [if_pos hs, Option.map_map]
    exact congrArg (fun f => (Option.map f t.scopes[s]?).getD []) (funext hf)
  · rw [if_neg hs]

variable {t : ScopeTables} {g : ScopeGraph}

namespace Shows

theorem getElem?_scopes (h : t.Shows g) (s : ScopeId) :
    t.scopes[s]?.map (·.toScope) = g.scopes[s]? := by rw [← h.scopes, Array.getElem?_map]

theorem getElem?_vars (h : t.Shows g) (v : VariableId) :
    t.vars[v]?.map (·.toVariable) = g.vars[v]? := by rw [← h.vars, Array.getElem?_map]

theorem size_scopes (h : t.Shows g) : t.scopes.size = g.scopes.size := by
  rw [← h.scopes, Array.size_map]

theorem size_vars (h : t.Shows g) : t.vars.size = g.vars.size := by rw [← h.vars, Array.size_map]

/-- What the tables say of a scope is what the graph says of it. -/
theorem map_scopes (h : t.Shows g) {β : Type} (k : Scope → β) (s : ScopeId) :
    (t.scopes[s]?.map fun x => k x.toScope) = g.scopes[s]?.map k := by
  rw [← h.getElem?_scopes, Option.map_map]
  rfl

/-- A changed scope; what the graph looks up does not depend on what is changed. -/
theorem modifyScope (h : t.Shows g) (s : ScopeId) (f : ScopeRow → ScopeRow) (f' : Scope → Scope)
    (hf : ∀ x, (f x).toScope = f' x.toScope) (hname : ∀ x, (f x).byName = x.byName)
    (hblock : ∀ x, (f' x).block = x.block) (hvars : ∀ x, (f' x).vars = x.vars) :
    (t.modifyScope s f).Shows (g.modifyScope s f') where
  options := h.options
  scopes := by
    show (t.scopes.modify s f).map _ = g.scopes.modify s f'
    rw [map_modify hf, h.scopes]
  vars := h.vars
  references := h.references
  find? s' name := by
    rw [find?_modifyScope t s hname, h.find?]
    exact ((ScopeGraph.alike_modifyScope g s hvars).variableIn? s' name).symm
  stands := h.stands
  opened := by
    refine h.opened.trans (funext fun node => ?_)
    exact (ScopeGraph.scopesOf_congr Array.size_modify
      (ScopeGraph.map_getElem?_modifyScope g s (·.block) hblock) node).symm
  declared := h.declared

/-- A change of a scope that the graph does not see. -/
theorem modifyScope_of_eq (h : t.Shows g) (s : ScopeId) {f : ScopeRow → ScopeRow}
    (hf : ∀ x, (f x).toScope = x.toScope) (hname : ∀ x, (f x).byName = x.byName) :
    (t.modifyScope s f).Shows g := by
  have hsame := h.modifyScope s f id hf hname (fun _ => rfl) fun _ => rfl
  have hid : g.modifyScope s id = g :=
    congrArg (fun scopes => { g with scopes }) (modify_of_eq (fun _ => rfl) g.scopes s)
  rwa [hid] at hsame

theorem answer? (h : t.Shows g) (s : ScopeId) (i : ReferenceId) : t.answer? s i = g.answer? s i := by
  have hanswers : ∀ (v : VariableId) (use : Use),
      t.vars[v]?.any (·.answers use) = g.vars[v]?.any (·.answers use) := by
    intro v use
    rw [← h.getElem?_vars]
    cases hx : t.vars[v]? with
    | none => rfl
    | some x =>
      obtain ⟨-, hvalue, htype⟩ := h.stands x (Array.mem_of_getElem? hx)
      rw [Option.map_some, Option.any_some, Option.any_some, VariableRow.answers, hvalue, htype]
      rfl
  simp only [ScopeTables.answer?, ScopeGraph.answer?, h.references, h.find?, hanswers]

/-! ### Opening a scope -/

section PushScope

variable (h : t.Shows g) (type : ScopeType) (block : NodeId) (upper? : Option ScopeId)
  (startsStrict : Bool)

include h

/-- Whether the strict rules hold in a new scope. -/
theorem toScope_newRow :
    (t.newRow type block upper?
      ((upper?.bind fun s => t.scopes[s]?).any (·.isStrict) || startsStrict)).toScope =
        g.newScope type block upper? startsStrict := by
  have haround : (upper?.bind fun s => t.scopes[s]?).map (·.toScope) =
      upper?.bind fun s => g.scopes[s]? := by
    cases upper? with
    | none => rfl
    | some upper => exact h.getElem?_scopes upper
  unfold newRow ScopeGraph.newScope
  rw [← haround, h.size_scopes, Bool.or_comm]
  cases upper?.bind fun s => t.scopes[s]? <;> rfl

/-- A scope that no other one lists yet. -/
theorem push (isStrict : Bool)
    (hrow : (t.newRow type block upper? isStrict).toScope =
      g.newScope type block upper? startsStrict) :
    ({ t with
      scopes := t.scopes.push (t.newRow type block upper? isStrict)
      opened := fun node =>
        if node = block then t.opened node ++ [t.scopes.size] else t.opened node } : ScopeTables).Shows
      (g.pushScope (g.newScope type block upper? startsStrict)) := by
  constructor
  case options => exact h.options
  case scopes => rw [Array.map_push, h.scopes, hrow, ScopeGraph.pushScope]
  case vars => exact h.vars
  case references => exact h.references
  case find? =>
    intro s name
    rw [(g.alike_pushScope rfl).variableIn?, ← h.find?]
    show (t.scopes.push _)[s]?.bind _ = t.scopes[s]?.bind _
    rw [Array.getElem?_push]
    by_cases hs : s = t.scopes.size
    · rw [if_pos hs, hs, Array.getElem?_size]
      rfl
    · rw [if_neg hs]
  case stands => exact h.stands
  case opened =>
    funext node
    rw [g.scopesOf_pushScope, h.opened, h.size_scopes]
    rfl
  case declared => exact h.declared

theorem pushScope :
    (t.pushScope type block upper?
      ((upper?.bind fun s => t.scopes[s]?).any (·.isStrict) || startsStrict)).Shows
        (g.addScope type block upper? startsStrict) := by
  have hpush :=
    h.push type block upper? startsStrict _ (h.toScope_newRow type block upper? startsStrict)
  cases upper? with
  | none => exact hpush
  | some upper =>
    have hmodify := hpush.modifyScope upper
      (fun s => { s with children := s.children ++ [t.scopes.size] })
      (fun s => { s with children := s.children ++ [t.scopes.size] }) (fun _ => rfl) (fun _ => rfl) (fun _ => rfl) fun _ => rfl
    rw [h.size_scopes] at hmodify
    unfold ScopeTables.pushScope
    rw [h.size_scopes]
    exact hmodify

end PushScope

/-! ### Declaring a name -/

/-- Nodes that declare a variable have it in their lists once. -/
theorem foldl_declareOn (t : ScopeTables) (v : VariableId) (nodes : List NodeId) :
    nodes.foldl (·.declareOn v) t =
      { t with declared := fun n =>
          if n ∈ nodes ∧ v ∉ t.declared n then t.declared n ++ [v] else t.declared n } := by
  induction nodes generalizing t with
  | nil => simp
  | cons node nodes ih =>
    rw [List.foldl_cons, ih]
    refine congrArg (fun declared => { t with declared }) (funext fun n => ?_)
    simp only [declareOn]
    by_cases hv : v ∈ t.declared n
    · simp [hv]
    · by_cases hn : n = node
      · simp [hn, hn ▸ hv]
      · simp [hn, hv]

theorem isBy_iff (d : Definition) (node : NodeId) :
    d.isBy node = true ↔ node ∈ d.node :: d.parent?.toList := by
  rw [Definition.isBy, Bool.or_eq_true, beq_iff_eq, beq_iff_eq, List.mem_cons, Option.mem_toList,
    eq_comm (a := node)]

/-- One more definition of a variable that is there. -/
theorem addDefinition (h : t.Shows g) {g' : ScopeGraph} {v : VariableId} {d : Definition}
    (hsame : g' = { g with
      vars := g.vars.modify v fun x => { x with definitions := x.definitions ++ [d] }
      definitions := g.definitions.push (v, d) }) :
    ((d.node :: d.parent?.toList).foldl (·.declareOn v)
      (t.modifyVariable v (·.addDefinition d))).Shows g' := by
  subst hsame
  have halike : ∀ s name, ScopeGraph.variableIn? { g with
      vars := g.vars.modify v fun x => { x with definitions := x.definitions ++ [d] }
      definitions := g.definitions.push (v, d) } s name = g.variableIn? s name := by
    intro s name
    rw [ScopeGraph.variableIn?_eq, ScopeGraph.variableIn?_eq]
    refine List.find?_congr fun w _ => ?_
    rw [Array.getElem?_modify]
    by_cases hw : v = w
    · rw [if_pos hw, Option.map_map]
      rfl
    · rw [if_neg hw]
  rw [foldl_declareOn]
  constructor
  case options => exact h.options
  case scopes => exact h.scopes
  case vars =>
    simp only [modifyVariable, ← h.vars]
    exact map_modify (by intro _; rfl) t.vars v
  case references => exact h.references
  case find? =>
    intro s name
    rw [halike, ← h.find?]
    rfl
  case stands =>
    intro x hx
    obtain ⟨w, hw⟩ := Array.mem_iff_getElem?.mp hx
    replace hw : (t.vars.modify v _)[w]? = some x := hw
    rw [Array.getElem?_modify] at hw
    by_cases hvw : v = w
    · rw [if_pos hvw, Option.map_eq_some_iff] at hw
      obtain ⟨y, hy, rfl⟩ := hw
      obtain ⟨hnames, hvalue, htype⟩ := h.stands y (Array.mem_of_getElem? hy)
      simp [VariableRow.addDefinition, hnames, hvalue, htype, Variable.identifiers,
        Variable.isValue, Variable.isType]
    · rw [if_neg hvw] at hw
      exact h.stands x (Array.mem_of_getElem? hw)
  case opened => exact h.opened
  case declared =>
    funext node
    show (if _ ∧ _ then _ else _) = _
    rw [ScopeGraph.declaredBy_push (g := g) rfl, ← h.declared]
    simp only [isBy_iff]
    rfl

/-- A variable that is not defined yet. -/
theorem pushVariable (h : t.Shows g) {scope : ScopeId} (hscope : scope < g.scopes.size)
    (hsound : g.Sound) {name : String} (hnone : g.variableIn? scope name = none) (d : Definition) :
    (t.pushVariable scope name).Shows
      ({ g with vars := g.vars.push ⟨name, scope, [], []⟩ }.modifyScope scope
        fun s => { s with vars := s.vars ++ [g.vars.size] }) := by
  constructor
  case options => exact h.options
  case scopes =>
    simp only [ScopeTables.pushVariable, ScopeTables.modifyScope, ScopeGraph.modifyScope,
      ← h.scopes, ← h.size_vars]
    exact map_modify (by intro _; rfl) t.scopes scope
  case vars =>
    show (t.vars.push _).map _ = g.vars.push _
    rw [Array.map_push, h.vars]
    rfl
  case references => exact h.references
  case find? =>
    intro s n
    have hsame : ScopeGraph.variableIn?
        ({ g with vars := g.vars.push ⟨name, scope, [], []⟩ }.modifyScope scope
          fun s => { s with vars := s.vars ++ [g.vars.size] }) s n =
        (g.addDefinition scope name d).variableIn? s n := by
      rw [ScopeGraph.addDefinition_of_none d hnone, ScopeGraph.variableIn?_eq,
        ScopeGraph.variableIn?_eq]
      refine List.find?_congr fun w _ => ?_
      simp only [ScopeGraph.modifyScope, Array.getElem?_push]
      split <;> rfl
    rw [hsame, hsound.variableIn?_addDefinition d hscope, ScopeGraph.variableFor, hnone, ← h.find?]
    simp only [ScopeTables.find?, ScopeTables.pushVariable, ScopeTables.modifyScope,
      Array.getElem?_modify]
    by_cases hs : s = scope
    · subst hs
      have hrow := Array.getElem?_eq_getElem (h.size_scopes ▸ hscope : s < t.scopes.size)
      by_cases hn : n = name
      · simp [hrow, Table.get?_insert, hn, h.size_vars]
      · simp [hrow, Table.get?_insert, hn]
    · simp [hs, Ne.symm hs]
  case stands =>
    intro x hx
    rcases Array.mem_push.mp hx with hx | rfl
    · exact h.stands x hx
    · exact ⟨rfl, rfl, rfl⟩
  case opened =>
    refine h.opened.trans (funext fun node => ?_)
    refine (ScopeGraph.scopesOf_congr Array.size_modify ?_ node).symm
    exact g.map_getElem?_modifyScope scope (·.block) fun _ => rfl
  case declared => exact h.declared

theorem define (h : t.Shows g) {scope : ScopeId} (hscope : scope < g.scopes.size)
    (hsound : g.Sound) (name : String) (d : Definition) :
    (t.define scope name d).Shows (g.addDefinition scope name d) := by
  unfold ScopeTables.define
  rw [h.find?]
  cases hv : g.variableIn? scope name with
  | some v => exact h.addDefinition (ScopeGraph.addDefinition_of_some d hv)
  | none =>
    refine (h.pushVariable hscope hsound hv d).addDefinition ?_
    rw [ScopeGraph.addDefinition_of_none d hv]
    simp only [ScopeGraph.modifyScope, h.size_vars, push_modify_size]
    rfl

/-! ### Referring to a name -/

theorem pushReference (h : t.Shows g) (scope : ScopeId) (name : String) (identifier : NodeId)
    (use : Use) :
    (t.pushReference scope name identifier use).Shows
      (g.addReference scope name identifier use) := by
  have hpush : Shows { t with references := t.references.push ⟨identifier, name, scope, use, none⟩ }
      { g with references := g.references.push ⟨identifier, name, scope, use, none⟩ } :=
    ⟨h.options, h.scopes, h.vars, by rw [h.references], h.find?, h.stands, h.opened, h.declared⟩
  exact hpush.modifyScope scope
    (fun s => { s with
      references := s.references ++ [t.references.size]
      waiting := s.waiting ++ [t.references.size] })
    (fun s => { s with references := s.references ++ [g.references.size] })
    (fun _ => by rw [h.references]) (fun _ => rfl) (fun _ => rfl) fun _ => rfl

/-! ### Closing a scope -/

theorem settle_of_some (h : t.Shows g) {scope : ScopeId} (upper? : Option ScopeId) {i : ReferenceId}
    {v : VariableId} (hv : g.answer? scope i = some v) :
    (ScopeTables.settle scope upper? t i).Shows (g.resolve (i, v)) := by
  have hfind : ∀ s name, (g.resolve (i, v)).variableIn? s name = g.variableIn? s name :=
    (ScopeGraph.alike_resolve g (i, v)).variableIn?
  rw [ScopeTables.settle, h.answer?, hv]
  constructor
  case options => exact h.options
  case scopes => exact h.scopes
  case vars =>
    simp only [modifyVariable, ScopeGraph.resolve, ← h.vars]
    exact map_modify (by intro _; rfl) t.vars v
  case references => simp only [modifyVariable, ScopeGraph.resolve, h.references]
  case find? =>
    intro s name
    rw [hfind, ← h.find?]
    rfl
  case stands =>
    intro x hx
    obtain ⟨w, hw⟩ := Array.mem_iff_getElem?.mp hx
    replace hw : (t.vars.modify v _)[w]? = some x := hw
    rw [Array.getElem?_modify] at hw
    by_cases hvw : v = w
    · rw [if_pos hvw, Option.map_eq_some_iff] at hw
      obtain ⟨y, hy, rfl⟩ := hw
      exact h.stands y (Array.mem_of_getElem? hy)
    · rw [if_neg hvw] at hw
      exact h.stands x (Array.mem_of_getElem? hw)
  case opened => exact h.opened
  case declared => exact h.declared

theorem settle_of_none (h : t.Shows g) {scope : ScopeId} (upper? : Option ScopeId) {i : ReferenceId}
    (hnone : g.answer? scope i = none) :
    (ScopeTables.settle scope upper? t i).Shows (g.letThrough scope [i]) := by
  have hthrough := h.modifyScope scope (fun s => { s with through := s.through ++ [i] })
    (fun s => { s with through := s.through ++ [i] })
    (fun _ => rfl) (fun _ => rfl) (fun _ => rfl) fun _ => rfl
  rw [ScopeTables.settle, h.answer?, hnone]
  cases upper? with
  | none => exact hthrough
  | some upper => exact hthrough.modifyScope_of_eq upper (fun _ => rfl) fun _ => rfl

end Shows

/-- A scope that waits for more references. -/
theorem waitingIn_wait (t : ScopeTables) {scope : ScopeId} (hscope : scope < t.scopes.size)
    (references : List ReferenceId) {f : ScopeRow → ScopeRow}
    (hf : ∀ x, (f x).waiting = x.waiting ++ references) (s : ScopeId) :
    (t.modifyScope scope f).waitingIn s =
      t.waitingIn s ++ if scope = s then references else [] := by
  rw [waitingIn, waitingIn, ScopeTables.modifyScope, Array.getElem?_modify]
  by_cases h : scope = s
  · subst h
    simp [Array.getElem?_eq_getElem hscope, hf]
  · simp [h]

theorem size_scopes_settle (scope : ScopeId) (upper? : Option ScopeId) (t : ScopeTables)
    (i : ReferenceId) : (settle scope upper? t i).scopes.size = t.scopes.size := by
  unfold settle
  split
  · rfl
  · cases upper? with
    | none => exact Array.size_modify
    | some upper => exact Array.size_modify.trans Array.size_modify

/-- A reference that is not answered waits in the scope around. -/
theorem waitingIn_settle (t : ScopeTables) (scope : ScopeId) {upper? : Option ScopeId}
    (hupper : ∀ u, upper? = some u → u < t.scopes.size) (i : ReferenceId) (s : ScopeId) :
    (settle scope upper? t i).waitingIn s =
      t.waitingIn s ++ if upper? = some s ∧ t.answer? scope i = none then [i] else [] := by
  unfold settle
  cases ha : t.answer? scope i with
  | some v =>
    rw [if_neg (fun h => by cases h.2), List.append_nil]
    rfl
  | none =>
    have hthrough := t.waitingIn_modifyScope scope
      (f := fun s => { s with through := s.through ++ [i] }) (fun _ => rfl) s
    cases upper? with
    | none =>
      rw [if_neg (fun h => by cases h.1), List.append_nil]
      exact hthrough
    | some upper =>
      have hlt : ∀ f, upper < (t.modifyScope scope f).scopes.size := fun f => by
        rw [ScopeTables.modifyScope, Array.size_modify]
        exact hupper upper rfl
      refine (waitingIn_wait _ (hlt _) [i] (fun _ => rfl) s).trans ?_
      rw [← hthrough]
      simp only [Option.some.injEq, and_true]

/-- Waiting references that are answered one by one. -/
theorem Shows.foldl_settle (h : t.Shows g) (scope : ScopeId) {upper? : Option ScopeId}
    (hupper : ∀ u, upper? = some u → u < t.scopes.size) (waiting : List ReferenceId) :
    (waiting.foldl (settle scope upper?) t).Shows (g.settle scope waiting) ∧
      ∀ s, (waiting.foldl (settle scope upper?) t).waitingIn s =
        t.waitingIn s ++ if upper? = some s then g.unanswered scope waiting else [] := by
  induction waiting generalizing t g with
  | nil =>
    rw [ScopeGraph.settle_nil]
    exact ⟨h, fun s => by simp [ScopeGraph.unanswered]⟩
  | cons i waiting ih =>
    have hupper' : ∀ u, upper? = some u → u < (settle scope upper? t i).scopes.size := by
      rw [size_scopes_settle]
      exact hupper
    have hwait := t.waitingIn_settle scope hupper i
    cases ha : g.answer? scope i with
    | some v =>
      obtain ⟨hshows, hwaiting⟩ := ih (h.settle_of_some upper? ha) hupper'
      have hsame := ScopeGraph.answered_congr (g.answer?_resolve (i, v) scope) waiting
      refine ⟨?_, fun s => ?_⟩
      · rw [g.settle_cons_of_some ha]
        exact hshows
      · rw [List.foldl_cons, hwaiting, hwait, hsame.2]
        simp [ScopeGraph.unanswered, h.answer?, ha]
    | none =>
      obtain ⟨hshows, hwaiting⟩ := ih (h.settle_of_none upper? ha) hupper'
      have hsame := ScopeGraph.answered_congr (g.answer?_letThrough scope scope [i]) waiting
      refine ⟨?_, fun s => ?_⟩
      · rw [g.settle_cons_of_none ha]
        exact hshows
      · rw [List.foldl_cons, hwaiting, hwait, hsame.2]
        by_cases hu : upper? = some s
        · simp [ScopeGraph.unanswered, h.answer?, ha, hu]
        · simp [hu]

/-- A scope in which nothing waits yet. -/
theorem waitingIn_push {t t' : ScopeTables} {row : ScopeRow} (h : t'.scopes = t.scopes.push row)
    (hrow : row.waiting = []) (s : ScopeId) : t'.waitingIn s = t.waitingIn s := by
  rw [waitingIn, waitingIn, h, Array.getElem?_push]
  by_cases hs : s = t.scopes.size
  · rw [if_pos hs, hs, Array.getElem?_size, Option.map_some, hrow]
    rfl
  · rw [if_neg hs]

theorem waitingIn_pushScope (t : ScopeTables) (type : ScopeType) (block : NodeId)
    (upper? : Option ScopeId) (isStrict : Bool) (s : ScopeId) :
    (t.pushScope type block upper? isStrict).waitingIn s = t.waitingIn s := by
  unfold pushScope
  cases upper? with
  | none => exact waitingIn_push rfl rfl s
  | some upper =>
    rw [Option.elim_some, waitingIn_modifyScope]
    · exact waitingIn_push rfl rfl s
    · exact fun _ => rfl

theorem waitingIn_define (t : ScopeTables) (scope : ScopeId) (name : String) (d : Definition)
    (s : ScopeId) : (t.define scope name d).waitingIn s = t.waitingIn s := by
  have hdeclare : ∀ (t : ScopeTables) v,
      ((d.node :: d.parent?.toList).foldl (·.declareOn v)
        (t.modifyVariable v (·.addDefinition d))).waitingIn s = t.waitingIn s := by
    intro t v
    rw [Shows.foldl_declareOn]
    rfl
  unfold define
  cases t.find? scope name with
  | some v => exact hdeclare t v
  | none =>
    refine (hdeclare _ _).trans ?_
    unfold pushVariable
    rw [waitingIn_modifyScope]
    · rfl
    · exact fun _ => rfl

end ScopeTables

/-! ### The walk -/

/-- The references that wait in a scope, if it is open. -/
def waitingAt (os : List OpenScope) (s : ScopeId) : List ReferenceId :=
  ((os.find? (·.scope == s)).map (·.waiting)).getD []

theorem waitingAt_cons (o : OpenScope) (os : List OpenScope) (s : ScopeId) :
    waitingAt (o :: os) s = if o.scope = s then o.waiting else waitingAt os s := by
  rw [waitingAt, List.find?_cons]
  by_cases h : o.scope = s
  · simp [h]
  · rw [beq_eq_false_iff_ne.mpr h, if_neg h, waitingAt]

theorem waitingAt_of_notMem {os : List OpenScope} {s : ScopeId} (h : s ∉ os.map (·.scope)) :
    waitingAt os s = [] := by
  have hnone : os.find? (·.scope == s) = none := by
    rw [List.find?_eq_none]
    intro o ho heq
    exact h (beq_iff_eq.mp heq ▸ List.mem_map_of_mem ho)
  rw [waitingAt, hnone]
  rfl

theorem waitingAt_addWaiting (references : List ReferenceId) (os : List OpenScope) (s : ScopeId) :
    waitingAt (Progress.addWaiting references os) s =
      waitingAt os s ++ if os.head?.map (·.scope) = some s then references else [] := by
  cases os with
  | nil => simp [Progress.addWaiting, waitingAt]
  | cons o os =>
    rw [Progress.addWaiting, waitingAt_cons, waitingAt_cons]
    by_cases h : o.scope = s
    · simp [h]
    · simp [h]

/-- The walk with tables has got as far as the one with a graph. -/
structure TableWalk.KeepsPace (w : TableWalk) (p : Progress) : Prop where
  shows : w.tables.Shows p.graph
  current? : w.current? = p.openScopes.head?.map (·.scope)
  waiting : ∀ s, w.tables.waitingIn s = waitingAt p.openScopes s

namespace TableWalk.KeepsPace

variable {w : TableWalk} {g : ScopeGraph} {os : List OpenScope} {o : OpenScope}
  {t : Names.Trace NodeId}

theorem openScope (h : w.KeepsPace ⟨g, os⟩) (hp : Names.Passes ⟨g, os⟩ t) (type : ScopeType)
    (block : NodeId) (startsStrict : Bool) :
    (w.step (.openScope type block startsStrict)).KeepsPace
      (Progress.step ⟨g, os⟩ (.openScope type block startsStrict)) := by
  obtain ⟨tables, current?⟩ := w
  obtain rfl : current? = os.head?.map (·.scope) := h.current?
  have hstep : TableWalk.step ⟨tables, os.head?.map (·.scope)⟩ (.openScope type block startsStrict) =
      ⟨tables.pushScope type block (os.head?.map (·.scope))
        (((os.head?.map (·.scope)).bind fun s => tables.scopes[s]?).any (·.isStrict) || startsStrict),
        some tables.scopes.size⟩ := by
    cases os <;> rfl
  rw [hstep]
  constructor
  case shows => exact h.shows.pushScope type block _ startsStrict
  case current? => exact congrArg some h.shows.size_scopes
  case waiting =>
    intro s
    refine (tables.waitingIn_pushScope type block _ _ s).trans ((h.waiting s).trans ?_)
    refine Eq.trans ?_ (waitingAt_cons ⟨g.scopes.size, []⟩ os s).symm
    by_cases hs : g.scopes.size = s
    · -- no scope that was open has the new number
      rw [if_pos hs]
      exact waitingAt_of_notMem fun hmem => Nat.ne_of_lt (hp.linked.lt hmem) hs.symm
    · rw [if_neg hs]

theorem closeScope (h : w.KeepsPace ⟨g, o :: os⟩) (hp : Names.Passes ⟨g, o :: os⟩ t) :
    (w.step .closeScope).KeepsPace (Progress.step ⟨g, o :: os⟩ .closeScope) := by
  obtain ⟨tables, current?⟩ := w
  obtain rfl : current? = some o.scope := h.current?
  have hnodup : (o.scope :: os.map (·.scope)).Nodup := by
    have := hp.follows.trace.nested.nodup
    rwa [← hp.follows.openScopes] at this
  have hlt : o.scope < tables.scopes.size := h.shows.size_scopes ▸ hp.linked.1.1
  obtain ⟨row, hrow⟩ : ∃ row, tables.scopes[o.scope]? = some row :=
    ⟨_, Array.getElem?_eq_getElem hlt⟩
  have hupper : row.upper? = os.head?.map (·.scope) := by
    have hlinked := hp.linked.1.2
    rw [ScopeGraph.upperOf?, ← h.shows.map_scopes, hrow, Option.map_some, Option.join_some] at hlinked
    rw [hlinked, List.head?_map]
  have hwaiting : row.waiting = o.waiting := by
    have := h.waiting o.scope
    rwa [ScopeTables.waitingIn, hrow, waitingAt_cons, if_pos rfl] at this
  have hcleared := h.shows.modifyScope_of_eq o.scope (f := fun s => { s with waiting := [] })
    (fun _ => rfl) fun _ => rfl
  have hlinked : ∀ u, row.upper? = some u →
      u < (tables.modifyScope o.scope fun s => { s with waiting := [] }).scopes.size := by
    intro u hu
    rw [hupper, ← List.head?_map] at hu
    rw [hcleared.size_scopes]
    exact hp.linked.2.lt (List.mem_of_head? hu)
  obtain ⟨hshows, hwait⟩ := hcleared.foldl_settle o.scope hlinked row.waiting
  have hstep : TableWalk.step ⟨tables, some o.scope⟩ .closeScope =
      ⟨row.waiting.foldl (ScopeTables.settle o.scope row.upper?)
        (tables.modifyScope o.scope fun s => { s with waiting := [] }), row.upper?⟩ := by
    simp only [TableWalk.step, ScopeTables.close, hrow, Option.bind_some]
  rw [hstep]
  constructor
  case shows => exact hwaiting ▸ hshows
  case current? =>
    show row.upper? = (Progress.addWaiting _ os).head?.map (·.scope)
    rw [hupper, ← List.head?_map, ← List.head?_map, Names.map_scope_addWaiting]
  case waiting =>
    intro s
    refine (hwait s).trans (Eq.trans ?_ (waitingAt_addWaiting _ os s).symm)
    rw [hwaiting, hupper]
    refine congrArg (· ++ _) ?_
    have hold := h.waiting s
    rw [waitingAt_cons] at hold
    rw [ScopeTables.waitingIn, ScopeTables.modifyScope, Array.getElem?_modify]
    by_cases hs : o.scope = s
    · subst hs
      rw [waitingAt_of_notMem (List.nodup_cons.mp hnodup).1, hrow, if_pos rfl]
      rfl
    · rw [if_neg hs] at hold ⊢
      exact hold

theorem define (h : w.KeepsPace ⟨g, o :: os⟩) (hp : Names.Passes ⟨g, o :: os⟩ t) (isHoisted : Bool)
    (name : String) (d : Definition) :
    (w.step (.define isHoisted name d)).KeepsPace
      (Progress.step ⟨g, o :: os⟩ (.define isHoisted name d)) := by
  obtain ⟨tables, current?⟩ := w
  obtain rfl : current? = some o.scope := h.current?
  have hhome : (if isHoisted then (tables.scopes[o.scope]?).elim o.scope (·.variableScope)
      else o.scope) = Names.home g isHoisted o.scope := by
    rw [Names.home, ← h.shows.getElem?_scopes]
    cases tables.scopes[o.scope]? <;> rfl
  have hstep : TableWalk.step ⟨tables, some o.scope⟩ (.define isHoisted name d) =
      ⟨tables.define (Names.home g isHoisted o.scope) name d, some o.scope⟩ := by
    rw [← hhome]
    rfl
  rw [hstep]
  constructor
  case shows => exact h.shows.define (hp.follows.home_lt isHoisted) hp.follows.graph name d
  case current? => rfl
  case waiting =>
    intro s
    refine Eq.trans ?_ (h.waiting s)
    exact tables.waitingIn_define _ name d s

theorem refer (h : w.KeepsPace ⟨g, o :: os⟩) (hp : Names.Passes ⟨g, o :: os⟩ t) (name : String)
    (identifier : NodeId) (use : Use) :
    (w.step (.refer name identifier use)).KeepsPace
      (Progress.step ⟨g, o :: os⟩ (.refer name identifier use)) := by
  obtain ⟨tables, current?⟩ := w
  obtain rfl : current? = some o.scope := h.current?
  constructor
  case shows => exact h.shows.pushReference o.scope name identifier use
  case current? => rfl
  case waiting =>
    intro s
    have hlt : o.scope < tables.scopes.size := h.shows.size_scopes ▸ hp.linked.1.1
    refine Eq.trans ?_ (waitingAt_addWaiting [g.references.size] (o :: os) s).symm
    rw [← h.waiting s, ← h.shows.references]
    refine (ScopeTables.waitingIn_wait { tables with references := _ } hlt
      [tables.references.size] (fun _ => rfl) s).trans ?_
    simp only [List.head?_cons, Option.map_some, Option.some.injEq]

/-- An action keeps both walks at one pace. -/
theorem step {p : Progress} (h : w.KeepsPace p) (hp : Names.Passes p t) (a : Action) :
    (w.step a).KeepsPace (p.step a) := by
  obtain ⟨g, _ | ⟨o, os⟩⟩ := p
  · -- without an open scope only opening one does anything
    obtain ⟨tables, current?⟩ := w
    obtain rfl : current? = none := h.current?
    cases a with
    | openScope type block startsStrict => exact h.openScope hp type block startsStrict
    | closeScope => exact h
    | define isHoisted name d => exact h
    | refer name identifier use => exact h
  · cases a with
    | openScope type block startsStrict => exact h.openScope hp type block startsStrict
    | closeScope => exact h.closeScope hp
    | define isHoisted name d => exact h.define hp isHoisted name d
    | refer name identifier use => exact h.refer hp name identifier use

theorem follow {p : Progress} (h : w.KeepsPace p) (hp : Names.Passes p t) (as : List Action) :
    (w.follow as).KeepsPace (p.follow as) := by
  induction as generalizing w p t with
  | nil => exact h
  | cons a as ih => exact ih (h.step hp a) (hp.step a)

end TableWalk.KeepsPace

namespace ScopeTables

variable (options : Options) (t : Ast.Tree)

theorem keepsPace_ofTree : (TableWalk.follow { tables := { options } } (Action.ofProgram options t)).KeepsPace
    (Progress.follow { graph := { options } } (Action.ofProgram options t)) :=
  .follow ⟨shows_empty options, rfl, fun _ => rfl⟩ (Names.passes_empty options) (Action.ofProgram options t)

/-- The tables of a program show its graph. -/
theorem shows_ofTree : (ScopeTables.ofTree options t).Shows (ScopeGraph.ofTree options t) :=
  (keepsPace_ofTree options t).shows

/-- When the walk over a program ends, no scope has references left that wait. -/
theorem waitingIn_ofTree (s : ScopeId) : (ScopeTables.ofTree options t).waitingIn s = [] := by
  have hpasses := (Names.passes_empty options).follow (Action.ofProgram options t)
  rw [Names.follow_ofProgram] at hpasses
  rw [ofTree, (keepsPace_ofTree options t).waiting, List.map_eq_nil_iff.mp hpasses.follows.openScopes]
  rfl

end ScopeTables

end ScriptAnalysis.Scoping

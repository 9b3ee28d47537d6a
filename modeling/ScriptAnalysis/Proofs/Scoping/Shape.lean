import ScriptAnalysis.Proofs.Collections
import ScriptAnalysis.Proofs.Scoping.Lookup

/-!
# The shape of a scope graph

How the scopes, the variables and the definitions of a graph hang together: a scope lists exactly the
scopes directly inside it, the strict rules reach inwards, variables declared with `var` belong to the
nearest scope that takes them, a variable is listed by its scope alone, and it has the definitions that
were met for it. `Shaped` holds from the first scope on, and each step of a walk keeps it.
-/

namespace ScriptAnalysis

namespace Scoping.ScopeGraph

variable {g g' : ScopeGraph}

/-- The scopes directly inside a scope. -/
def childrenOf (g : ScopeGraph) (s : ScopeId) : List ScopeId :=
  (g.scopes[s]?.map (·.children)).getD []

/-- Whether a scope is run under the strict rules. -/
def isStrictAt (g : ScopeGraph) (s : ScopeId) : Bool := (g.scopes[s]?.map (·.isStrict)).getD false

/-- Whether variables declared with `var` belong to a scope. -/
def takesVariables (g : ScopeGraph) (s : ScopeId) : Bool :=
  (g.scopes[s]?.map (·.type.isVariableScope)).getD false

/-- The definitions that were met for a variable. -/
def definitionsOf (g : ScopeGraph) (v : VariableId) : List Definition :=
  (g.definitions.toList.filter (·.1 = v)).map (·.2)

/-- How scopes, variables and definitions hang together. -/
structure Shaped (g : ScopeGraph) : Prop where
  first : g.upperOf? 0 = none
  children : ∀ u c, c ∈ g.childrenOf u ↔ g.upperOf? c = some u
  nodup_children : ∀ u, (g.childrenOf u).Nodup
  strict : ∀ s u, g.upperOf? s = some u → g.isStrictAt u = true → g.isStrictAt s = true
  nearest : ∀ s < g.scopes.size, (g.chain s).find? g.takesVariables = g.variableScopeOf? s
  listed : ∀ (v : VariableId) x, g.vars[v]? = some x → v ∈ g.varsOf x.scope
  nodup_vars : ∀ s, (g.varsOf s).Nodup
  defined : ∀ (v : VariableId) x, g.vars[v]? = some x →
    x.definitions = g.definitionsOf v ∧ x.definitions ≠ []
  logged : ∀ e ∈ g.definitions, e.1 < g.vars.size

/-! ### Steps that leave the scopes as they are -/

/-- What a graph says of its scopes apart from their variables and references. -/
structure SameScopes (g g' : ScopeGraph) : Prop where
  size : g'.scopes.size = g.scopes.size
  scope : ∀ {β : Type} (k : Scope → β), (∀ x vars references through,
    k { x with vars, references, through } = k x) →
      ∀ s : ScopeId, g'.scopes[s]?.map k = g.scopes[s]?.map k

namespace SameScopes

theorem upperOf? (h : SameScopes g g') (s : ScopeId) : g'.upperOf? s = g.upperOf? s :=
  congrArg Option.join (h.scope (·.upper?) (fun _ _ _ _ => rfl) s)

theorem childrenOf (h : SameScopes g g') (s : ScopeId) : g'.childrenOf s = g.childrenOf s :=
  congrArg (Option.getD · []) (h.scope (·.children) (fun _ _ _ _ => rfl) s)

theorem isStrictAt (h : SameScopes g g') (s : ScopeId) : g'.isStrictAt s = g.isStrictAt s :=
  congrArg (Option.getD · false) (h.scope (·.isStrict) (fun _ _ _ _ => rfl) s)

theorem takesVariables (h : SameScopes g g') : g'.takesVariables = g.takesVariables :=
  funext fun s =>
    congrArg (Option.getD · false) (h.scope (·.type.isVariableScope) (fun _ _ _ _ => rfl) s)

theorem variableScopeOf? (h : SameScopes g g') (s : ScopeId) :
    g'.variableScopeOf? s = g.variableScopeOf? s := h.scope (·.variableScope) (fun _ _ _ _ => rfl) s

theorem chain (h : SameScopes g g') (hg : g.Upward) {s : ScopeId} (hs : s < g.scopes.size) :
    g'.chain s = g.chain s :=
  hg.chain_congr (fun s _ => h.upperOf? s) (Nat.le_of_eq h.size.symm) hs

end SameScopes

/-- A step that leaves the scopes as they are keeps the shape when it keeps that of the variables. -/
theorem Shaped.of_same (h : g.Shaped) (hg : g.Upward) (hsame : SameScopes g g')
    (hlisted : ∀ (v : VariableId) x, g'.vars[v]? = some x → v ∈ g'.varsOf x.scope)
    (hnodup : ∀ s, (g'.varsOf s).Nodup)
    (hdefined : ∀ (v : VariableId) x, g'.vars[v]? = some x →
      x.definitions = g'.definitionsOf v ∧ x.definitions ≠ [])
    (hlogged : ∀ e ∈ g'.definitions, e.1 < g'.vars.size) : g'.Shaped where
  first := (hsame.upperOf? 0).trans h.first
  children u c := by rw [hsame.childrenOf, hsame.upperOf?, h.children]
  nodup_children u := by
    rw [hsame.childrenOf]
    exact h.nodup_children u
  strict s u hu := by
    rw [hsame.isStrictAt, hsame.isStrictAt]
    exact h.strict s u ((hsame.upperOf? s).symm.trans hu)
  nearest s hs := by
    rw [hsame.size] at hs
    rw [hsame.chain hg hs, hsame.takesVariables, hsame.variableScopeOf?, h.nearest s hs]
  listed := hlisted
  nodup_vars := hnodup
  defined := hdefined
  logged := hlogged

/-- What is declared does not change, so neither does the shape of the variables. -/
theorem Shaped.of_alike (h : g.Shaped) (hg : g.Upward) (hsame : SameScopes g g')
    (halike : Alike g g') (hdefinitions : g'.definitions = g.definitions) : g'.Shaped := by
  have hold : ∀ (v : VariableId) x, g'.vars[v]? = some x →
      ∃ y, g.vars[v]? = some y ∧ y.scope = x.scope ∧ y.definitions = x.definitions := by
    intro v x hx
    have hcore := halike.core v
    rw [hx, Option.map_some, eq_comm, Option.map_eq_some_iff] at hcore
    obtain ⟨y, hy, hyx⟩ := hcore
    have hscope : y.core.scope = x.core.scope := congrArg Variable.scope hyx
    have hdefinitions : y.core.definitions = x.core.definitions := congrArg Variable.definitions hyx
    exact ⟨y, hy, hscope, hdefinitions⟩
  refine h.of_same hg hsame ?_ ?_ ?_ ?_
  · intro v x hx
    obtain ⟨y, hy, hscope, -⟩ := hold v x hx
    rw [halike.varsOf, ← hscope]
    exact h.listed v y hy
  · intro s
    rw [halike.varsOf]
    exact h.nodup_vars s
  · intro v x hx
    obtain ⟨y, hy, -, hdefs⟩ := hold v x hx
    rw [← hdefs, definitionsOf, hdefinitions]
    exact h.defined v y hy
  · intro e he
    obtain ⟨y, hy⟩ : ∃ y, g.vars[e.1]? = some y :=
      ⟨_, Array.getElem?_eq_getElem (h.logged e (hdefinitions ▸ he))⟩
    have hcore := halike.core e.1
    rw [hy, Option.map_some, Option.map_eq_some_iff] at hcore
    obtain ⟨x, hx, -⟩ := hcore
    exact (Array.getElem?_eq_some_iff.mp hx).1

theorem sameScopes_addReference (g : ScopeGraph) (scope : ScopeId) (name : String)
    (identifier : Ast.NodeId) (use : Use) : SameScopes g (g.addReference scope name identifier use) where
  size := g.size_scopes_addReference scope name identifier use
  scope _ hk := g.map_getElem?_addReference (fun x references => hk x x.vars references x.through) scope
    name identifier use

theorem sameScopes_settle (g : ScopeGraph) (s : ScopeId) (waiting : List ReferenceId) :
    SameScopes g (g.settle s waiting) where
  size := Names.size_scopes_settle g s waiting
  scope _ hk := g.map_getElem?_settle (fun x through => hk x x.vars x.references through) s waiting

theorem sameScopes_addDefinition (g : ScopeGraph) (scope : ScopeId) (name : String) (d : Definition) :
    SameScopes g (g.addDefinition scope name d) where
  size := size_scopes_addDefinition d
  scope _ hk := map_getElem?_addDefinition d fun x vars => hk x vars x.references x.through

theorem Shaped.addReference (h : g.Shaped) (hg : g.Upward) (scope : ScopeId) (name : String)
    (identifier : Ast.NodeId) (use : Use) : (g.addReference scope name identifier use).Shaped :=
  h.of_alike hg (sameScopes_addReference g scope name identifier use)
    (alike_addReference g scope name identifier use) rfl

theorem definitions_foldl_resolve (answered : List (ReferenceId × VariableId)) :
    (answered.foldl resolve g).definitions = g.definitions := by
  induction answered generalizing g with
  | nil => rfl
  | cons a answered ih => exact ih

theorem Shaped.settle (h : g.Shaped) (hg : g.Upward) (s : ScopeId) (waiting : List ReferenceId) :
    (g.settle s waiting).Shaped :=
  h.of_alike hg (sameScopes_settle g s waiting) (alike_settle g s waiting) (definitions_foldl_resolve _)

/-! ### Definitions -/

theorem definitionsOf_addDefinition (scope : ScopeId) (name : String) (d : Definition)
    (v : VariableId) :
    (g.addDefinition scope name d).definitionsOf v =
      g.definitionsOf v ++ if v = g.variableFor scope name then [d] else [] := by
  rw [definitionsOf, definitions_addDefinition, Array.toList_push, List.filter_append, List.map_append, definitionsOf]
  by_cases hv : v = g.variableFor scope name
  · simp [hv]
  · simp [hv, Ne.symm hv]

theorem Shaped.addDefinition (h : g.Shaped) (hg : g.Upward) (hsound : g.Sound) {scope : ScopeId}
    (hscope : scope < g.scopes.size) (name : String) (d : Definition) :
    (g.addDefinition scope name d).Shaped := by
  have hlog := definitionsOf_addDefinition (g := g) scope name d
  have hdefinitions : (g.addDefinition scope name d).definitions =
      g.definitions.push (g.variableFor scope name, d) := definitions_addDefinition d
  have hsame := sameScopes_addDefinition g scope name d
  cases hv : g.variableIn? scope name with
  | some w =>
    have hvars := addDefinition_of_some d hv
    have hfor : g.variableFor scope name = w := by rw [variableFor, hv]; rfl
    rw [hfor] at hlog hdefinitions
    have hold : ∀ (v : VariableId) x, (g.addDefinition scope name d).vars[v]? = some x →
        ∃ y, g.vars[v]? = some y ∧ y.scope = x.scope ∧
          x.definitions = y.definitions ++ if v = w then [d] else [] := by
      intro v x hx
      rw [hvars] at hx
      replace hx : (g.vars.modify w _)[v]? = some x := hx
      rw [Array.getElem?_modify] at hx
      by_cases hw : w = v
      · rw [if_pos hw, Option.map_eq_some_iff] at hx
        obtain ⟨y, hy, rfl⟩ := hx
        exact ⟨y, hy, rfl, by rw [if_pos hw.symm]⟩
      · rw [if_neg hw] at hx
        exact ⟨x, hx, rfl, by rw [if_neg (Ne.symm hw), List.append_nil]⟩
    refine h.of_same hg hsame ?_ ?_ ?_ ?_
    · intro v x hx
      obtain ⟨y, hy, hscope, -⟩ := hold v x hx
      rw [varsOf_addDefinition_of_some d hv, ← hscope]
      exact h.listed v y hy
    · intro s
      rw [varsOf_addDefinition_of_some d hv]
      exact h.nodup_vars s
    · intro v x hx
      obtain ⟨y, hy, -, hdefs⟩ := hold v x hx
      obtain ⟨hdefined, hne⟩ := h.defined v y hy
      exact ⟨by rw [hdefs, hlog, hdefined], by simp [hdefs, hne]⟩
    · intro e he
      have hsize : (g.addDefinition scope name d).vars.size = g.vars.size := by
        rw [hvars]
        exact Array.size_modify
      obtain ⟨y, hy, -⟩ := hsound.of_variableIn? hv
      rw [hsize]
      rcases Array.mem_push.mp (hdefinitions ▸ he) with he | rfl
      · exact h.logged e he
      · exact (Array.getElem?_eq_some_iff.mp hy).1
  | none =>
    have hvars : (g.addDefinition scope name d).vars = g.vars.push ⟨name, scope, [d], []⟩ := by
      rw [addDefinition_of_none d hv]
      rfl
    have hfor : g.variableFor scope name = g.vars.size := by rw [variableFor, hv]; rfl
    rw [hfor] at hlog hdefinitions
    have hlisted := varsOf_addDefinition_of_none d hscope hv
    refine h.of_same hg hsame ?_ ?_ ?_ ?_
    · intro v x hx
      rw [hvars, Array.getElem?_push] at hx
      rw [hlisted]
      by_cases hnew : v = g.vars.size
      · rw [if_pos hnew, Option.some.injEq] at hx
        subst hx
        simp [hnew]
      · rw [if_neg hnew] at hx
        exact List.mem_append_left _ (h.listed v x hx)
    · intro s
      rw [hlisted]
      by_cases hs : s = scope
      · rw [if_pos hs, ← List.concat_eq_append]
        exact List.Nodup.concat (fun hmem => Nat.lt_irrefl _ (hsound.lt_size hmem)) (h.nodup_vars s)
      · rw [if_neg hs, List.append_nil]
        exact h.nodup_vars s
    · intro v x hx
      rw [hvars, Array.getElem?_push] at hx
      rw [hlog]
      by_cases hnew : v = g.vars.size
      · rw [if_pos hnew, Option.some.injEq] at hx
        have hnone : g.definitionsOf v = [] := by
          rw [definitionsOf, List.map_eq_nil_iff, List.filter_eq_nil_iff]
          intro e he hev
          have hlt := h.logged e (Array.mem_toList_iff.mp he)
          exact Nat.ne_of_lt hlt ((of_decide_eq_true hev).trans hnew)
        subst hx
        simp [hnew ▸ hnone, hnew]
      · rw [if_neg hnew] at hx
        rw [if_neg hnew, List.append_nil]
        exact h.defined v x hx
    · intro e he
      rw [hvars, Array.size_push]
      rcases Array.mem_push.mp (hdefinitions ▸ he) with he | rfl
      · exact Nat.lt_succ_of_lt (h.logged e he)
      · exact Nat.lt_succ_self _

/-! ### New scopes -/

/-- The scopes of a chain have numbers up to that of its first scope. -/
theorem Upward.le_of_mem_chain (hg : g.Upward) {s s' : ScopeId} (hs : s < g.scopes.size)
    (h : s' ∈ g.chain s) : s' ≤ s := by
  induction s using Nat.strongRecOn with
  | ind s ih =>
    rw [hg.chain_eq hs] at h
    rcases List.mem_cons.mp h with rfl | h
    · exact Nat.le_refl _
    · cases hu : g.upperOf? s with
      | none => simp [hu] at h
      | some u =>
        have hlt := hg s u hu
        rw [hu, Option.elim_some] at h
        exact Nat.le_trans (ih u hlt (Nat.lt_trans hlt hs) h) (Nat.le_of_lt hlt)

/-- A scope outside the graph stands in none. -/
theorem upperOf?_of_size_le {s : ScopeId} (hs : g.scopes.size ≤ s) : g.upperOf? s = none := by
  rw [upperOf?, Array.getElem?_eq_none hs]
  rfl

section AddScope

variable (type : ScopeType) (block : Ast.NodeId) (startsStrict : Bool) {u : ScopeId}

theorem childrenOf_addScope (hu : u < g.scopes.size) (s : ScopeId) :
    (g.addScope type block (some u) startsStrict).childrenOf s =
      g.childrenOf s ++ if s = u then [g.scopes.size] else [] := by
  show (((g.scopes.push (g.newScope type block (some u) startsStrict)).modify u
    fun x => { x with children := x.children ++ [g.scopes.size] })[s]?.map (·.children)).getD [] = _
  rw [Array.getElem?_modify, Array.getElem?_push, childrenOf]
  by_cases hsize : s = g.scopes.size
  · have hne : u ≠ s := Nat.ne_of_lt (hsize ▸ hu)
    rw [if_neg hne, if_pos hsize, if_neg (Ne.symm hne), hsize, Array.getElem?_size]
    rfl
  · rw [if_neg hsize]
    by_cases hs : u = s
    · subst hs
      simp [Array.getElem?_eq_getElem hu]
    · simp [hs, Ne.symm hs]

theorem isStrictAt_addScope (s : ScopeId) :
    (g.addScope type block (some u) startsStrict).isStrictAt s =
      if s = g.scopes.size then startsStrict || g.isStrictAt u else g.isStrictAt s := by
  rw [isStrictAt, map_getElem?_addScope g _ _ _ _ fun _ _ => rfl, Array.getElem?_push]
  by_cases hs : s = g.scopes.size
  · rw [if_pos hs, if_pos hs, Option.map_some, Option.getD_some, isStrictAt, newScope,
      Option.bind_some]
    cases g.scopes[u]? <;> rfl
  · rw [if_neg hs, if_neg hs]
    rfl

theorem takesVariables_addScope (upper? : Option ScopeId) (s : ScopeId) :
    (g.addScope type block upper? startsStrict).takesVariables s =
      if s = g.scopes.size then type.isVariableScope else g.takesVariables s := by
  rw [takesVariables, map_getElem?_addScope g _ _ _ _ fun _ _ => rfl, Array.getElem?_push]
  by_cases hs : s = g.scopes.size
  · rw [if_pos hs, if_pos hs]
    rfl
  · rw [if_neg hs, if_neg hs]
    rfl

theorem Upward.addScope (hg : g.Upward) (hu : u < g.scopes.size) :
    (g.addScope type block (some u) startsStrict).Upward := by
  intro s u' hs
  rw [upperOf?_addScope] at hs
  by_cases hsize : s = g.scopes.size
  · rw [if_pos hsize, Option.some.injEq] at hs
    rw [← hs, hsize]
    exact hu
  · rw [if_neg hsize] at hs
    exact hg s u' hs

theorem Shaped.addScope (h : g.Shaped) (hg : g.Upward) (hu : u < g.scopes.size) :
    (g.addScope type block (some u) startsStrict).Shaped := by
  have hupper := upperOf?_addScope g type block (some u) startsStrict
  have hchildren := childrenOf_addScope type block startsStrict hu
  have halike := alike_addScope g type block (some u) startsStrict
  have hnone : g.upperOf? g.scopes.size = none := upperOf?_of_size_le (Nat.le_refl _)
  have hdefinitions : (g.addScope type block (some u) startsStrict).definitions = g.definitions := rfl
  have hvars : (g.addScope type block (some u) startsStrict).vars = g.vars := rfl
  constructor
  case first =>
    rw [hupper, if_neg (Nat.ne_of_lt (Nat.zero_lt_of_lt hu))]
    exact h.first
  case children =>
    intro u' c
    rw [hchildren, hupper, List.mem_append, h.children]
    by_cases hc : c = g.scopes.size
    · rw [if_pos hc, hc, hnone]
      by_cases hu' : u' = u
      · simp [hu']
      · simp [hu', Ne.symm hu']
    · rw [if_neg hc]
      by_cases hu' : u' = u
      · simp [hu', hc]
      · simp [hu']
  case nodup_children =>
    intro u'
    rw [hchildren]
    by_cases hu' : u' = u
    · rw [if_pos hu', ← List.concat_eq_append]
      refine List.Nodup.concat (fun hmem => ?_) (h.nodup_children u')
      rw [h.children, hnone] at hmem
      cases hmem
    · rw [if_neg hu', List.append_nil]
      exact h.nodup_children u'
  case strict =>
    intro s u' hs hstrict
    rw [hupper] at hs
    rw [isStrictAt_addScope] at hstrict ⊢
    by_cases hsize : s = g.scopes.size
    · rw [if_pos hsize, Option.some.injEq] at hs
      rw [← hs, if_neg (Nat.ne_of_lt hu)] at hstrict
      rw [if_pos hsize, hstrict, Bool.or_true]
    · rw [if_neg hsize] at hs ⊢
      by_cases hu' : u' = g.scopes.size
      · -- a scope that was there stands in none that is new
        have hle : g.scopes.size ≤ s := Nat.le_of_lt (hu' ▸ hg s u' hs)
        rw [upperOf?_of_size_le hle] at hs
        cases hs
      · rw [if_neg hu'] at hstrict
        exact h.strict s u' hs hstrict
  case nearest =>
    have hold : ∀ s < g.scopes.size, (g.addScope type block (some u) startsStrict).chain s = g.chain s :=
      fun s hs => hg.chain_congr (fun s hs => by rw [hupper, if_neg (Nat.ne_of_lt hs)])
        (Nat.le_of_lt (by rw [size_scopes_addScope]; exact Nat.lt_succ_self _)) hs
    have hfind : ∀ s < g.scopes.size,
        (g.chain s).find? (g.addScope type block (some u) startsStrict).takesVariables =
          g.variableScopeOf? s := by
      intro s hs
      rw [← h.nearest s hs]
      refine List.find?_congr fun s' hs' => ?_
      have hle := hg.le_of_mem_chain hs hs'
      rw [takesVariables_addScope, if_neg (Nat.ne_of_lt (Nat.lt_of_le_of_lt hle hs))]
    intro s hs
    rw [size_scopes_addScope] at hs
    rw [variableScopeOf?_addScope]
    by_cases hsize : s = g.scopes.size
    · rw [if_pos hsize, hsize, (hg.addScope type block startsStrict hu).chain_eq (by simp), hupper,
        if_pos rfl, Option.elim_some, hold u hu, List.find?_cons, takesVariables_addScope, if_pos rfl]
      cases type.isVariableScope with
      | true => rfl
      | false =>
        have hsome : g.variableScopeOf? u = some (g.scopes[u]).variableScope := by
          rw [variableScopeOf?, Array.getElem?_eq_getElem hu]
          rfl
        simp only [Bool.false_eq_true, if_false, Option.bind_some, hfind u hu, hsome, Option.getD_some]
    · have hlt : s < g.scopes.size := Nat.lt_of_le_of_ne (Nat.le_of_lt_succ hs) hsize
      rw [if_neg hsize, hold s hlt, hfind s hlt]
  case listed =>
    intro v x hx
    rw [halike.varsOf]
    exact h.listed v x (hvars ▸ hx)
  case nodup_vars =>
    intro s
    rw [halike.varsOf]
    exact h.nodup_vars s
  case defined => exact h.defined
  case logged => exact h.logged

theorem shaped_addScope (options : Options) :
    (({ options } : ScopeGraph).addScope .global block none startsStrict).Shaped where
  first := rfl
  children u c := by
    cases u <;> cases c <;> simp [addScope, childrenOf, upperOf?]
  nodup_children u := by cases u <;> simp [addScope, childrenOf]
  strict s u hu := by cases s <;> simp [addScope, upperOf?] at hu
  nearest s hs := by
    obtain rfl : s = 0 := Nat.lt_one_iff.mp (by simpa [addScope] using hs)
    rfl
  listed v x hx := by simp [addScope] at hx
  nodup_vars s := by cases s <;> simp [addScope, varsOf]
  defined v x hx := by simp [addScope] at hx
  logged e he := by simp [addScope] at he

end AddScope

/-! ### The graph of a program -/

/-- A step inside a scope keeps the shape. -/
theorem Shaped.step {p : Progress} (h : p.graph.Shaped) {t : Names.Trace Ast.NodeId}
    (hp : Names.Passes p t) (hopen : p.openScopes ≠ []) (a : Action) : (p.step a).graph.Shaped := by
  obtain ⟨g, _ | ⟨o, os⟩⟩ := p
  · exact absurd rfl hopen
  · cases a with
    | openScope type block startsStrict =>
      exact h.addScope type block startsStrict hp.upward hp.linked.1.1
    | closeScope => exact h.settle hp.upward o.scope o.waiting
    | define isHoisted name d =>
      exact h.addDefinition hp.upward hp.follows.graph (hp.follows.home_lt isHoisted) name d
    | refer name identifier use => exact h.addReference hp.upward o.scope name identifier use

/-- The scope graph of every program is shaped. -/
theorem shaped_ofTree (options : Options) (t : Ast.Tree) : (ofTree options t).Shaped := by
  refine (Names.preserves_ofProgram (I := fun p => p.graph.Shaped ∧ ∃ t, Names.Passes p t)
    (fun p a h hopen => ?_) options t ?_).1
  · obtain ⟨hshaped, t, hp⟩ := h
    exact ⟨hshaped.step hp hopen a, _, hp.step a⟩
  · exact ⟨shaped_addScope _ _ options, _, (Names.passes_empty options).step _⟩

end Scoping.ScopeGraph

end ScriptAnalysis

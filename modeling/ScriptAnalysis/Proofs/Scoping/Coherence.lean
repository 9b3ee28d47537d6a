import ScriptAnalysis.Proofs.Scoping.Homes
import ScriptAnalysis.Proofs.Scoping.Tables

/-!
# The tables of scope analysis belong together

What is stored about the scopes and variables of a program says the same in every place: `Coherent` lists
what the scopes know of one another, what they know of their variables, what a variable knows of its
definitions, and what nodes know of both. The shape of the graph (`shaped_ofTree`), where variables belong
(`belongs_ofTree`) and that the tables show the graph (`shows_ofTree`) are put together here.
-/

namespace ScriptAnalysis

namespace Scoping

open Ast (NodeId)

namespace ScopeTables

/-- From the first scope outwards, the second is the nearest that variables declared with `var` belong
to. -/
inductive Hoists (m : ScopeTables) : ScopeId → ScopeId → Prop where
  /-- The scope takes them itself. -/
  | here {s : ScopeId} {x : ScopeRow} (hx : m.scopes[s]? = some x) (htakes : x.type.isVariableScope = true) :
    Hoists m s s
  /-- The scope does not, and the scope around it has the nearest. -/
  | around {s u v : ScopeId} {x : ScopeRow} (hx : m.scopes[s]? = some x)
    (htakes : x.type.isVariableScope = false) (hu : x.upper? = some u) (h : Hoists m u v) : Hoists m s v

/-- The tables of a tree belong together. -/
structure Coherent (m : ScopeTables) (t : Ast.Tree) : Prop where
  /-- There is a first scope. -/
  first : 0 < m.scopes.size
  /-- It is the only one without a scope around it. -/
  root : ∀ (s : ScopeId) x, m.scopes[s]? = some x → (x.upper? = none ↔ s = 0)
  /-- The scope around another one has a smaller number and lists the other one once. -/
  upper : ∀ (s : ScopeId) x u, m.scopes[s]? = some x → x.upper? = some u →
    u < s ∧ ∃ y, m.scopes[u]? = some y ∧ y.children.count s = 1
  /-- What a scope lists stands directly inside it. -/
  children : ∀ (u : ScopeId) y, m.scopes[u]? = some y → ∀ s ∈ y.children,
    ∃ x, m.scopes[s]? = some x ∧ x.upper? = some u
  /-- A scope knows the nearest one that takes variables declared with `var`. -/
  variableScope : ∀ (s : ScopeId) x, m.scopes[s]? = some x → m.Hoists s x.variableScope
  /-- The strict rules reach inwards. -/
  strict : ∀ (s : ScopeId) x u y, m.scopes[s]? = some x → x.upper? = some u → m.scopes[u]? = some y →
    y.isStrict = true → x.isStrict = true
  /-- A variable belongs to a scope. -/
  scope : ∀ (v : VariableId) x, m.vars[v]? = some x → x.scope < m.scopes.size
  /-- Its scope lists it once and no other scope lists it. -/
  listed : ∀ (v : VariableId) x (s : ScopeId) y, m.vars[v]? = some x → m.scopes[s]? = some y →
    y.vars.count v = if s = x.scope then 1 else 0
  /-- What a scope lists are its variables. -/
  vars : ∀ (s : ScopeId) y, m.scopes[s]? = some y → ∀ v ∈ y.vars, ∃ x, m.vars[v]? = some x ∧ x.scope = s
  /-- Different variables of a scope have different names. -/
  names : ∀ (v w : VariableId) x y, m.vars[v]? = some x → m.vars[w]? = some y → x.scope = y.scope →
    x.name = y.name → v = w
  /-- By a name a scope finds its variable of that name, and no other. -/
  find? : ∀ s name v, m.find? s name = some v ↔
    ∃ x, m.vars[v]? = some x ∧ x.scope = s ∧ x.name = name
  /-- A variable is defined, and it knows the names of its definitions and what they stand for. -/
  defined : ∀ (v : VariableId) x, m.vars[v]? = some x → x.definitions ≠ [] ∧
    x.names = x.definitions.map (·.name) ∧
    (x.standsForType = true ↔ ∃ d ∈ x.definitions, d.isType = true) ∧
    (x.standsForValue = true ↔ ∃ d ∈ x.definitions, d.isType = false)
  /-- What a declaration declares belongs to the scope that the declaration stands in, or for `var` to the
  one where such variables of that scope belong. -/
  home : ∀ (v : VariableId) x, m.vars[v]? = some x → ∀ d ∈ x.definitions, ∀ declaration,
    d.kind = .variableOf declaration → ∃ l keyword declarators s y,
      t.node? declaration = some (.mk l (.variableDeclaration keyword declarators)) ∧
      t.StandsIn m.opened declaration s ∧ m.scopes[s]? = some y ∧
      x.scope = if keyword.isBlockScoped then s else y.variableScope
  /-- A node knows the scopes that it opens, in order. -/
  opened : ∀ node, (m.opened node).Pairwise (· < ·) ∧
    ∀ s, s ∈ m.opened node ↔ ∃ x, m.scopes[s]? = some x ∧ x.block = node
  /-- A node knows the variables that it declares, each once. -/
  declared : ∀ node, (m.declared node).Nodup ∧ ∀ v, v ∈ m.declared node ↔
    ∃ x, m.vars[v]? = some x ∧ ∃ d ∈ x.definitions, d.node = node ∨ d.parent? = some node

variable {m : ScopeTables} {g : ScopeGraph}

namespace Shows

theorem scope (h : m.Shows g) {s : ScopeId} {x : ScopeRow} (hx : m.scopes[s]? = some x) :
    g.scopes[s]? = some x.toScope := by
  rw [← h.getElem?_scopes, hx]
  rfl

theorem exists_scope (h : m.Shows g) {s : ScopeId} (hs : s < g.scopes.size) :
    ∃ x, m.scopes[s]? = some x ∧ g.scopes[s]? = some x.toScope := by
  rw [← h.size_scopes] at hs
  exact ⟨_, Array.getElem?_eq_getElem hs, h.scope (Array.getElem?_eq_getElem hs)⟩

theorem var (h : m.Shows g) {v : VariableId} {x : VariableRow} (hx : m.vars[v]? = some x) :
    g.vars[v]? = some x.toVariable := by
  rw [← h.getElem?_vars, hx]
  rfl

theorem exists_var (h : m.Shows g) {v : VariableId} {y : Variable} (hy : g.vars[v]? = some y) :
    ∃ x, m.vars[v]? = some x ∧ x.toVariable = y := by
  rw [← h.getElem?_vars, Option.map_eq_some_iff] at hy
  exact hy

end Shows

end ScopeTables

namespace ScopeGraph

variable {g : ScopeGraph}

theorem upperOf?_eq {s : ScopeId} {x : Scope} (hx : g.scopes[s]? = some x) : g.upperOf? s = x.upper? := by
  rw [upperOf?, hx]
  rfl

theorem childrenOf_eq {s : ScopeId} {x : Scope} (hx : g.scopes[s]? = some x) :
    g.childrenOf s = x.children := by
  rw [childrenOf, hx]
  rfl

theorem varsOf_eq {s : ScopeId} {x : Scope} (hx : g.scopes[s]? = some x) : g.varsOf s = x.vars := by
  rw [varsOf, hx]
  rfl

theorem lt_of_upperOf? {s u : ScopeId} (h : g.upperOf? s = some u) : s < g.scopes.size := by
  refine Nat.lt_of_not_le fun hle => ?_
  rw [upperOf?_of_size_le hle] at h
  cases h

theorem lt_of_mem_varsOf {s : ScopeId} {v : VariableId} (h : v ∈ g.varsOf s) : s < g.scopes.size := by
  refine Nat.lt_of_not_le fun hle => ?_
  rw [varsOf, Array.getElem?_eq_none hle] at h
  cases h

/-- A variable is listed by its scope and by no other one. -/
theorem Shaped.mem_varsOf_iff (h : g.Shaped) (hsound : g.Sound) {v : VariableId} {x : Variable}
    (hx : g.vars[v]? = some x) (s : ScopeId) : v ∈ g.varsOf s ↔ s = x.scope := by
  constructor
  · intro hv
    obtain ⟨y, hy, hscope⟩ := hsound s v hv
    cases hx.symm.trans hy
    exact hscope.symm
  · rintro rfl
    exact h.listed v x hx

/-- The variable that a scope finds for a name is its variable of that name. -/
theorem Shaped.variableIn?_eq_some_iff (h : g.Shaped) (hsound : g.Sound) (hnamed : g.Named) {s : ScopeId}
    {name : String} {v : VariableId} :
    g.variableIn? s name = some v ↔ ∃ x, g.vars[v]? = some x ∧ x.scope = s ∧ x.name = name := by
  refine ⟨hsound.of_variableIn?, ?_⟩
  rintro ⟨x, hx, rfl, rfl⟩
  have hv := h.listed v x hx
  cases hin : g.variableIn? x.scope x.name with
  | none =>
    rw [variableIn?_eq, List.find?_eq_none] at hin
    exact absurd (by simp [hx]) (hin v hv)
  | some w =>
    obtain ⟨y, hy, -, hname⟩ := hsound.of_variableIn? hin
    rw [variableIn?_eq] at hin
    refine congrArg some (hnamed x.scope w (List.mem_of_find?_eq_some hin) v hv ?_)
    rw [hx, hy, Option.map_some, Option.map_some, hname]

/-- A node declares the variables that have a definition by it. -/
theorem Shaped.mem_declaredBy_iff (h : g.Shaped) {node : NodeId} {v : VariableId} :
    v ∈ g.declaredBy node ↔
      ∃ x, g.vars[v]? = some x ∧ ∃ d ∈ x.definitions, d.node = node ∨ d.parent? = some node := by
  have hdefs : ∀ {d : Definition}, d ∈ g.definitionsOf v ↔ (v, d) ∈ g.definitions := by
    intro d
    simp only [definitionsOf, List.mem_map, List.mem_filter, decide_eq_true_iff, Array.mem_toList_iff,
      Prod.exists, exists_eq_right]
  rw [declaredBy, List.mem_eraseDups, List.mem_map]
  constructor
  · rintro ⟨⟨w, d⟩, he, rfl⟩
    rw [List.mem_filter, Array.mem_toList_iff] at he
    obtain ⟨x, hx⟩ : ∃ x, g.vars[w]? = some x := ⟨_, Array.getElem?_eq_getElem (h.logged _ he.1)⟩
    refine ⟨x, hx, d, ?_, ?_⟩
    · rw [(h.defined w x hx).1]
      exact hdefs.mpr he.1
    · simpa [Definition.isBy] using he.2
  · rintro ⟨x, hx, d, hd, hby⟩
    rw [(h.defined v x hx).1] at hd
    refine ⟨(v, d), List.mem_filter.mpr ⟨Array.mem_toList_iff.mpr (hdefs.mp hd), ?_⟩, rfl⟩
    simpa [Definition.isBy] using hby

end ScopeGraph

namespace ScopeTables

variable {m : ScopeTables} {g : ScopeGraph}

/-- The nearest scope for `var` is the first one of the chain that takes such variables. -/
theorem Shows.hoists (h : m.Shows g) (hg : g.Upward) {s v : ScopeId} (hs : s < g.scopes.size)
    (hv : (g.chain s).find? g.takesVariables = some v) : m.Hoists s v := by
  induction s using Nat.strongRecOn with
  | ind s ih =>
    obtain ⟨x, hx, hx'⟩ := h.exists_scope hs
    have htakes : g.takesVariables s = x.type.isVariableScope := by
      rw [ScopeGraph.takesVariables, hx']
      rfl
    rw [hg.chain_eq hs, List.find?_cons, htakes] at hv
    cases hself : x.type.isVariableScope with
    | true =>
      rw [hself] at hv
      cases hv
      exact .here hx hself
    | false =>
      rw [hself] at hv
      cases hu : g.upperOf? s with
      | none => simp [hu] at hv
      | some u =>
        have hlt := hg s u hu
        rw [hu] at hv
        refine .around hx hself ?_ (ih u hlt (Nat.lt_trans hlt hs) hv)
        rw [← ScopeGraph.upperOf?_eq hx', hu]

theorem Shows.coherent (h : m.Shows g) {t : Ast.Tree} (hfirst : 0 < g.scopes.size) (hshaped : g.Shaped)
    (hsound : g.Sound) (hupward : g.Upward) (hnamed : g.Named) (hrooted : Names.Rooted g)
    (hbelongs : ∀ e ∈ g.definitions, ∀ declaration, e.2.kind = .variableOf declaration →
      ∃ l keyword declarators s,
        t.node? declaration = some (.mk l (.variableDeclaration keyword declarators)) ∧
        t.StandsIn g.scopesOf declaration s ∧ s < g.scopes.size ∧
        g.vars[e.1]?.map (·.scope) = some (Names.home g (!keyword.isBlockScoped) s)) :
    m.Coherent t where
  first := h.size_scopes ▸ hfirst
  root s x hx := by
    have hx' := h.scope hx
    have hlt := (Array.getElem?_eq_some_iff.mp hx').1
    rw [← ScopeGraph.upperOf?_eq hx']
    exact ⟨hrooted s hlt, fun hs => hs ▸ hshaped.first⟩
  upper s x u hx hu := by
    have hx' := h.scope hx
    have hupper : g.upperOf? s = some u := (ScopeGraph.upperOf?_eq hx').trans hu
    have hlt := hupward s u hupper
    obtain ⟨y, hy, hy'⟩ := h.exists_scope (Nat.lt_trans hlt (ScopeGraph.lt_of_upperOf? hupper))
    refine ⟨hlt, y, hy, ?_⟩
    rw [← ScopeGraph.childrenOf_eq hy']
    exact List.count_eq_one_of_mem (hshaped.nodup_children u) ((hshaped.children u s).mpr hupper)
  children u y hy s hs := by
    rw [← ScopeGraph.childrenOf_eq (h.scope hy)] at hs
    have hupper := (hshaped.children u s).mp hs
    obtain ⟨x, hx, hx'⟩ := h.exists_scope (ScopeGraph.lt_of_upperOf? hupper)
    exact ⟨x, hx, (ScopeGraph.upperOf?_eq hx').symm.trans hupper⟩
  variableScope s x hx := by
    have hx' := h.scope hx
    have hlt := (Array.getElem?_eq_some_iff.mp hx').1
    refine h.hoists hupward hlt ((hshaped.nearest s hlt).trans ?_)
    rw [ScopeGraph.variableScopeOf?, hx']
    rfl
  strict s x u y hx hu hy hstrict := by
    have hx' := h.scope hx
    have hup := hshaped.strict s u ((ScopeGraph.upperOf?_eq hx').trans hu)
    rw [ScopeGraph.isStrictAt, ScopeGraph.isStrictAt, h.scope hy, hx'] at hup
    exact hup hstrict
  scope v x hx := by
    have hv := hshaped.listed v _ (h.var hx)
    rw [h.size_scopes]
    exact ScopeGraph.lt_of_mem_varsOf hv
  listed v x s y hx hy := by
    have hmem := hshaped.mem_varsOf_iff hsound (h.var hx) s
    have hnodup := hshaped.nodup_vars s
    rw [ScopeGraph.varsOf_eq (h.scope hy)] at hmem hnodup
    split
    · rename_i hs
      exact List.count_eq_one_of_mem hnodup (hmem.mpr hs)
    · rename_i hs
      exact List.count_eq_zero.mpr fun hv => hs (hmem.mp hv)
  vars s y hy v hv := by
    rw [← ScopeGraph.varsOf_eq (h.scope hy)] at hv
    obtain ⟨x, hx, hscope⟩ := hsound s v hv
    obtain ⟨x', hx', rfl⟩ := h.exists_var hx
    exact ⟨x', hx', hscope⟩
  names v w x y hx hy hscope hname := by
    have hv := hshaped.listed v _ (h.var hx)
    have hw := hshaped.listed w _ (h.var hy)
    refine hnamed x.scope v hv w (hscope ▸ hw) ?_
    rw [h.var hx, h.var hy]
    exact congrArg some hname
  find? s name v := by
    rw [h.find?, hshaped.variableIn?_eq_some_iff hsound hnamed]
    constructor
    · rintro ⟨y, hy, hscope, hname⟩
      obtain ⟨x, hx, rfl⟩ := h.exists_var hy
      exact ⟨x, hx, hscope, hname⟩
    · rintro ⟨x, hx, hscope, hname⟩
      exact ⟨_, h.var hx, hscope, hname⟩
  defined v x hx := by
    obtain ⟨hnames, hvalue, htype⟩ := h.stands x (Array.mem_of_getElem? hx)
    refine ⟨(hshaped.defined v _ (h.var hx)).2, hnames, ?_, ?_⟩
    · rw [htype, Variable.isType, List.any_eq_true]
    · rw [hvalue, Variable.isValue, List.any_eq_true]
      simp only [Bool.not_eq_true']
  home v x hx d hd declaration hkind := by
    have hx' := h.var hx
    have hd' : d ∈ x.toVariable.definitions := hd
    rw [(hshaped.defined v _ hx').1, ScopeGraph.definitionsOf, List.mem_map] at hd'
    obtain ⟨e, he, rfl⟩ := hd'
    rw [List.mem_filter, Array.mem_toList_iff, decide_eq_true_iff] at he
    obtain ⟨l, keyword, declarators, s, hnode, hstands, hs, hscope⟩ := hbelongs e he.1 declaration hkind
    obtain ⟨y, hy, hy'⟩ := h.exists_scope hs
    refine ⟨l, keyword, declarators, s, y, hnode, h.opened ▸ hstands, hy, ?_⟩
    rw [he.2, hx', Option.map_some, Option.some.injEq, Names.home, hy', Option.elim_some] at hscope
    cases hkeyword : keyword.isBlockScoped <;> rw [hkeyword] at hscope <;> exact hscope
  opened node := by
    rw [h.opened]
    refine ⟨List.pairwise_lt_range.filter _, fun s => ?_⟩
    rw [ScopeGraph.scopesOf, List.mem_filter, List.mem_range, beq_iff_eq, Option.map_eq_some_iff]
    constructor
    · rintro ⟨hs, y, hy, hblock⟩
      obtain ⟨x, hx, hx'⟩ := h.exists_scope hs
      cases hy.symm.trans hx'
      exact ⟨x, hx, hblock⟩
    · rintro ⟨x, hx, hblock⟩
      have hx' := h.scope hx
      exact ⟨(Array.getElem?_eq_some_iff.mp hx').1, _, hx', hblock⟩
  declared node := by
    rw [h.declared]
    refine ⟨nodup_eraseDups _, fun v => hshaped.mem_declaredBy_iff.trans ?_⟩
    constructor
    · rintro ⟨y, hy, hd⟩
      obtain ⟨x, hx, rfl⟩ := h.exists_var hy
      exact ⟨x, hx, hd⟩
    · rintro ⟨x, hx, hd⟩
      exact ⟨_, h.var hx, hd⟩

/-- What is stored about the program of a common tree belongs together. -/
theorem coherent_ofTree {t : Ast.Tree} (ht : t.Indexed) (options : Options) :
    (ofTree options t).Coherent t := by
  have hpasses := (Names.passes_empty options).follow (Action.ofProgram options t)
  have hsize : 0 < (ScopeGraph.ofTree options t).scopes.size := by
    obtain ⟨last, -, hblocks⟩ := located_ofTree ht options
    rw [← ScopeGraph.length_blocks, hblocks, List.length_append, List.length_replicate]
    exact Nat.lt_of_lt_of_le (Nat.succ_pos last) (Nat.le_add_right _ _)
  exact (shows_ofTree options t).coherent hsize (ScopeGraph.shaped_ofTree options t) hpasses.follows.graph
    hpasses.upward hpasses.named (Names.rooted_ofTree options t) (belongs_ofTree ht options)

end ScopeTables

end Scoping

/-- The common tree of a file lists the nodes of a program. -/
theorem Ast.Conversion.indexed_ofTree {tree : Syntax.Tree} {settings : Settings} {conversion : Conversion}
    (h : ofTree tree settings = .ok conversion) : conversion.tree.Indexed where
  toNumbered := numbered_ofTree h
  program := by
    obtain ⟨f, -, hroot, -⟩ := of_ofTree_eq_ok h
    have hkind : ∃ body, conversion.tree.root.kind = .program body := hroot ▸ ⟨_, rfl⟩
    obtain ⟨body, hbody⟩ := hkind
    rw [Tree.body, hbody]

/-- **What scope analysis stores belongs together.** A file without syntax errors has a common tree, and in
the tables that scope analysis builds for it the scopes, the variables, the definitions and what nodes know
of them agree. The tables hold the scope graph of the tree. -/
theorem Scoping.ScopeTables.coherent_parse (fileName text : String) (settings : Ast.Settings)
    (options : Options) (herrors : (Syntax.Tree.parse fileName text).errors = []) :
    ∃ conversion, Ast.Conversion.ofTree (.parse fileName text) settings = .ok conversion ∧
      (ofTree options conversion.tree).Coherent conversion.tree ∧
      (ofTree options conversion.tree).Shows (.ofTree options conversion.tree) := by
  obtain ⟨conversion, h⟩ := Ast.Conversion.exists_ofTree herrors settings
  exact ⟨conversion, h, coherent_ofTree (Ast.Conversion.indexed_ofTree h) options, shows_ofTree options _⟩

/-- A module that declares a name again with `var`, inside a block of a function. -/
theorem Scoping.ScopeTables.coherent_parse_var :
    ∃ conversion, Ast.Conversion.ofTree
        (.parse "a" "function f(x) { var x; { var y = x; let z; } } type x = y;")
        (.ofTree (.parse "a" "function f(x) { var x; { var y = x; let z; } } type x = y;")) = .ok conversion ∧
      (ofTree { sourceType := .module } conversion.tree).Coherent conversion.tree ∧
      (ofTree { sourceType := .module } conversion.tree).Shows
        (.ofTree { sourceType := .module } conversion.tree) :=
  coherent_parse "a" "function f(x) { var x; { var y = x; let z; } } type x = y;" _ { sourceType := .module }
    (by decide +kernel)

end ScriptAnalysis

import ScriptAnalysis.Proofs.Scoping.Shape
import ScriptAnalysis.Proofs.Scoping.Sites

/-!
# Where variables belong

`StandsIn` goes up from a declaration to the first node that opens a scope. A variable belongs to the
scope that is found there, or to the one that this scope has for `var` (`belongs_ofTree`): the actions of
a tree declare it while that scope is the current one (`Located`), and no other scope is opened by the
same node later on.
-/

namespace ScriptAnalysis

/-- The scope that a node stands in: the innermost of those that the first node above opens that opens
any. -/
inductive Ast.Tree.StandsIn (t : Ast.Tree) (opened : Ast.NodeId → List Scoping.ScopeId) :
    Ast.NodeId → Scoping.ScopeId → Prop where
  /-- The parent opens it. -/
  | parent {i p : Ast.NodeId} {s : Scoping.ScopeId} (hparent : t.parent? i = some p)
    (hopened : (opened p).getLast? = some s) : StandsIn t opened i s
  /-- The parent opens none and stands in it. -/
  | above {i p : Ast.NodeId} {s : Scoping.ScopeId} (hparent : t.parent? i = some p)
    (hopened : opened p = []) (h : StandsIn t opened p s) : StandsIn t opened i s

namespace Scoping

open Ast

/-! ### The nodes of scopes -/

namespace ScopeGraph

variable {g g' : ScopeGraph}

/-- The nodes that open the scopes. -/
def blocks (g : ScopeGraph) : List NodeId := g.scopes.toList.map (·.block)

theorem getElem?_blocks (g : ScopeGraph) (s : ScopeId) :
    g.blocks[s]? = g.scopes[s]?.map (·.block) := by
  rw [blocks, List.getElem?_map, Array.getElem?_toList]

theorem length_blocks (g : ScopeGraph) : g.blocks.length = g.scopes.size := by
  rw [blocks, List.length_map, Array.length_toList]

theorem SameScopes.blocks (h : SameScopes g g') : g'.blocks = g.blocks := by
  apply List.ext_getElem?
  intro s
  rw [getElem?_blocks, getElem?_blocks]
  exact h.scope (·.block) (fun _ _ _ _ => rfl) s

theorem blocks_addScope (type : ScopeType) (block : NodeId) (upper? : Option ScopeId)
    (startsStrict : Bool) : (g.addScope type block upper? startsStrict).blocks = g.blocks ++ [block] := by
  apply List.ext_getElem?
  intro s
  rw [getElem?_blocks, map_getElem?_addScope g _ _ _ _ fun _ _ => rfl, ← Array.getElem?_toList,
    ← List.getElem?_map, Array.toList_push, List.map_append]
  rfl

/-- The innermost scope that a node opens is the last one. -/
theorem getLast?_scopesOf {s : ScopeId} {b : NodeId} (hs : g.blocks[s]? = some b)
    (hmax : ∀ s' : ScopeId, g.blocks[s']? = some b → s' ≤ s) : (g.scopesOf b).getLast? = some s := by
  obtain ⟨hlt, -⟩ := List.getElem?_eq_some_iff.mp hs
  rw [length_blocks] at hlt
  refine getLast?_filter_range hlt ?_ fun s' hs' => hmax s' ?_
  · rw [← getElem?_blocks, hs, beq_self_eq_true]
  · rw [getElem?_blocks]
    exact eq_of_beq hs'

theorem scopesOf_eq_nil {b : NodeId} (h : b ∉ g.blocks) : g.scopesOf b = [] := by
  rw [scopesOf, List.filter_eq_nil_iff]
  intro s _ hs
  rw [beq_iff_eq, ← getElem?_blocks] at hs
  exact h (List.mem_of_getElem? hs)

/-! ### What a walk leaves -/

/-- What one graph says of a scope or of where a variable belongs, the other one says too. -/
structure Grows (g g' : ScopeGraph) : Prop where
  block : ∀ {s : ScopeId} {b}, g.blocks[s]? = some b → g'.blocks[s]? = some b
  variableScope : ∀ {s u}, g.variableScopeOf? s = some u → g'.variableScopeOf? s = some u
  scope : ∀ {v : VariableId} {u}, g.vars[v]?.map (·.scope) = some u → g'.vars[v]?.map (·.scope) = some u

namespace Grows

theorem refl (g : ScopeGraph) : Grows g g := ⟨fun h => h, fun h => h, fun h => h⟩

theorem trans {g'' : ScopeGraph} (h : Grows g g') (h' : Grows g' g'') : Grows g g'' where
  block hb := h'.block (h.block hb)
  variableScope hu := h'.variableScope (h.variableScope hu)
  scope hu := h'.scope (h.scope hu)

theorem of_same (h : SameScopes g g')
    (hscope : ∀ {v : VariableId} {u}, g.vars[v]?.map (·.scope) = some u →
      g'.vars[v]?.map (·.scope) = some u) : Grows g g' where
  block hb := h.blocks.symm ▸ hb
  variableScope {s _} hu := (h.variableScopeOf? s).trans hu
  scope := hscope

theorem of_alike (h : SameScopes g g') (halike : Alike g g') : Grows g g' :=
  .of_same h fun {v _} hu => (halike.map_eq (·.scope) (fun _ => rfl) v).trans hu

theorem addScope (g : ScopeGraph) (type : ScopeType) (block : NodeId) (upper? : Option ScopeId)
    (startsStrict : Bool) : Grows g (g.addScope type block upper? startsStrict) where
  block {s b} hb := by
    obtain ⟨hlt, -⟩ := List.getElem?_eq_some_iff.mp hb
    rw [blocks_addScope, List.getElem?_append_left hlt]
    exact hb
  variableScope {s u} hu := by
    rw [variableScopeOf?_addScope, if_neg]
    · exact hu
    · rintro rfl
      simp [variableScopeOf?] at hu
  scope {v u} hu :=
    ((alike_addScope g type block upper? startsStrict).map_eq (·.scope) (fun _ => rfl) v).trans hu

theorem addDefinition (g : ScopeGraph) (scope : ScopeId) (name : String) (d : Definition) :
    Grows g (g.addDefinition scope name d) := by
  refine .of_same (sameScopes_addDefinition g scope name d) fun {v u} hu => ?_
  have hlt : v < g.vars.size := by
    obtain ⟨x, hx, -⟩ := Option.map_eq_some_iff.mp hu
    exact (Array.getElem?_eq_some_iff.mp hx).1
  exact (map_vars_addDefinition d (fun _ _ => rfl) hlt).trans hu

/-- The scope that a name goes to stays the same. -/
theorem home_eq (h : Grows g g') {s : ScopeId} {b : NodeId} (hs : g.blocks[s]? = some b)
    (isHoisted : Bool) : Names.home g' isHoisted s = Names.home g isHoisted s := by
  rw [getElem?_blocks, Option.map_eq_some_iff] at hs
  obtain ⟨x, hx, -⟩ := hs
  have hx' : g'.variableScopeOf? s = some x.variableScope := h.variableScope (by rw [variableScopeOf?, hx]; rfl)
  rw [variableScopeOf?, Option.map_eq_some_iff] at hx'
  obtain ⟨y, hy, hyx⟩ := hx'
  rw [Names.home, Names.home, hx, hy, Option.elim_some, Option.elim_some, hyx]

end Grows

end ScopeGraph

namespace Progress

variable {p : Progress}

theorem grows_step (p : Progress) (a : Action) : ScopeGraph.Grows p.graph (p.step a).graph := by
  obtain ⟨g, os⟩ := p
  cases a with
  | openScope type block startsStrict => exact .addScope g type block _ startsStrict
  | closeScope =>
    cases os with
    | nil => exact .refl g
    | cons o os => exact .of_alike (g.sameScopes_settle o.scope o.waiting) (g.alike_settle o.scope o.waiting)
  | define isHoisted name d =>
    cases os with
    | nil => exact .refl g
    | cons o os => exact .addDefinition g _ name d
  | refer name identifier use =>
    cases os with
    | nil => exact .refl g
    | cons o os =>
      exact .of_alike (g.sameScopes_addReference o.scope name identifier use)
        (g.alike_addReference o.scope name identifier use)

theorem grows_follow (p : Progress) (as : List Action) : ScopeGraph.Grows p.graph (p.follow as).graph := by
  induction as generalizing p with
  | nil => exact .refl p.graph
  | cons a as ih => exact (p.grows_step a).trans (ih (p.step a))

/-- A step opens the scope that its action says. -/
theorem blocks_step (p : Progress) (a : Action) :
    (p.step a).graph.blocks = p.graph.blocks ++ openedBlocks [a] := by
  obtain ⟨g, os⟩ := p
  cases a with
  | openScope type block startsStrict => exact g.blocks_addScope type block _ startsStrict
  | closeScope =>
    refine Eq.trans ?_ (List.append_nil _).symm
    cases os with
    | nil => rfl
    | cons o os => exact (g.sameScopes_settle o.scope o.waiting).blocks
  | define isHoisted name d =>
    refine Eq.trans ?_ (List.append_nil _).symm
    cases os with
    | nil => rfl
    | cons o os => exact (g.sameScopes_addDefinition _ name d).blocks
  | refer name identifier use =>
    refine Eq.trans ?_ (List.append_nil _).symm
    cases os with
    | nil => rfl
    | cons o os => exact (g.sameScopes_addReference o.scope name identifier use).blocks

/-- The scopes are those of the nodes that have been opened, in this order. -/
theorem blocks_follow (p : Progress) (as : List Action) :
    (p.follow as).graph.blocks = p.graph.blocks ++ openedBlocks as := by
  induction as generalizing p with
  | nil => simp
  | cons a as ih =>
    rw [follow_cons, ih, blocks_step, List.append_assoc, ← openedBlocks_append, List.singleton_append]

end Progress

/-! ### Where the actions of a tree declare variables -/

section

variable {t : Tree} {b : NodeId} {last : ScopeId} {g g' : ScopeGraph}

/-- A scope is opened by a node and no scope of the node comes after it: the program has its last scope,
and every other node has one at most. -/
structure OpenedBy (t : Tree) (last : ScopeId) (g : ScopeGraph) (s : ScopeId) (b : NodeId) : Prop where
  block : g.blocks[s]? = some b
  root : b = t.root.id → s = last

theorem OpenedBy.mono {s : ScopeId} (h : OpenedBy t last g s b) (hg : g.Grows g') :
    OpenedBy t last g' s b :=
  ⟨hg.block h.block, h.root⟩

/-- A variable that a declaration declares belongs to the scope of the node that the declaration stands in,
or to the one that this scope has for `var`. -/
def Located (t : Tree) (last : ScopeId) (g : ScopeGraph) : Prop :=
  ∀ e ∈ g.definitions, ∀ declaration, e.2.kind = .variableOf declaration →
    ∃ b isHoisted s, DeclaredIn t b isHoisted declaration ∧ OpenedBy t last g s b ∧
      g.vars[e.1]?.map (·.scope) = some (Names.home g isHoisted s)

theorem Located.mono (h : Located t last g) (hg : g.Grows g') (hlog : g'.definitions = g.definitions) :
    Located t last g' := by
  intro e he declaration hkind
  obtain ⟨b, isHoisted, s, hd, hs, hx⟩ := h e (hlog ▸ he) declaration hkind
  refine ⟨b, isHoisted, s, hd, hs.mono hg, ?_⟩
  rw [hg.home_eq hs.block]
  exact hg.scope hx

/-- A name is declared in the scope that is the current one. -/
theorem Located.addDefinition (h : Located t last g) (hsound : g.Sound) {s : ScopeId} {isHoisted : Bool}
    (hhome : Names.home g isHoisted s < g.scopes.size) (hs : OpenedBy t last g s b) (name : String)
    {d : Definition}
    (hd : ∀ declaration, d.kind = .variableOf declaration → DeclaredIn t b isHoisted declaration) :
    Located t last (g.addDefinition (Names.home g isHoisted s) name d) := by
  have hgrows := ScopeGraph.Grows.addDefinition g (Names.home g isHoisted s) name d
  intro e he declaration hkind
  rw [ScopeGraph.definitions_addDefinition, Array.mem_push] at he
  rcases he with he | rfl
  · obtain ⟨b', isHoisted', s', hd', hs', hx⟩ := h e he declaration hkind
    refine ⟨b', isHoisted', s', hd', hs'.mono hgrows, ?_⟩
    rw [hgrows.home_eq hs'.block]
    exact hgrows.scope hx
  · have hin : (g.addDefinition (Names.home g isHoisted s) name d).variableIn? (Names.home g isHoisted s)
        name = some (g.variableFor (Names.home g isHoisted s) name) := by
      rw [hsound.variableIn?_addDefinition d hhome, if_pos ⟨rfl, rfl⟩]
    obtain ⟨x, hx, hscope, -⟩ := (hsound.addDefinition d hhome).of_variableIn? hin
    refine ⟨b, isHoisted, s, hd declaration hkind, hs.mono hgrows, ?_⟩
    rw [hgrows.home_eq hs.block, hx, Option.map_some, hscope]

/-- Actions that stand in the current scope declare variables where they belong. -/
theorem Sited.located {as : List Action} (has : Sited t b as) {p : Progress} {s : ScopeId}
    {around : List ScopeId} (hopen : p.openScopes.map (·.scope) = s :: around)
    (hs : OpenedBy t last p.graph s b) (hpasses : ∃ trace, Names.Passes p trace)
    (h : Located t last p.graph) :
    Located t last (p.follow as).graph ∧ (p.follow as).openScopes.map (·.scope) = s :: around ∧
      ∃ trace, Names.Passes (p.follow as) trace := by
  induction has generalizing p s around with
  | nil => exact ⟨h, hopen, hpasses⟩
  | define isHoisted name d hd _ ih =>
    obtain ⟨g, _ | ⟨o, os⟩⟩ := p
    · cases hopen
    · obtain ⟨rfl, rfl⟩ := List.cons.inj hopen
      obtain ⟨trace, hp⟩ := hpasses
      refine ih hopen (hs.mono ?_) ⟨_, hp.step (.define isHoisted name d)⟩ ?_
      · exact Progress.grows_step ⟨g, o :: os⟩ (.define isHoisted name d)
      · exact h.addDefinition hp.follows.graph (hp.follows.home_lt isHoisted) hs name hd
  | refer name identifier use _ ih =>
    obtain ⟨g, _ | ⟨o, os⟩⟩ := p
    · cases hopen
    · obtain ⟨trace, hp⟩ := hpasses
      have hgrows := Progress.grows_step ⟨g, o :: os⟩ (.refer name identifier use)
      exact ih hopen (hs.mono hgrows) ⟨_, hp.step _⟩ (h.mono hgrows rfl)
  | @scope b type n startsStrict as bs hn hopens hne _ _ ihas ihbs =>
    obtain ⟨g, _ | ⟨o, os⟩⟩ := p
    · cases hopen
    · obtain ⟨rfl, rfl⟩ := List.cons.inj hopen
      obtain ⟨trace, hp⟩ := hpasses
      have hgrows := Progress.grows_step ⟨g, o :: os⟩ (.openScope type n.id startsStrict)
      have hinner : OpenedBy t last (Progress.step ⟨g, o :: os⟩ (.openScope type n.id startsStrict)).graph
          g.scopes.size n.id := by
        refine ⟨?_, fun h => absurd h hne⟩
        rw [Progress.blocks_step, List.getElem?_append_right (g.length_blocks.le), g.length_blocks, Nat.sub_self]
        rfl
      have hopen' : (Progress.step ⟨g, o :: os⟩ (.openScope type n.id startsStrict)).openScopes.map (·.scope) =
          g.scopes.size :: (o :: os).map (·.scope) := rfl
      obtain ⟨hinside, hscopes, trace', hp'⟩ := ihas hopen' hinner ⟨_, hp.step _⟩ (h.mono hgrows rfl)
      have hgrows' := hgrows.trans (Progress.grows_follow _ as)
      rw [Progress.follow_cons, Progress.follow_append, Progress.follow_cons]
      generalize Progress.follow _ _ = q at hinside hscopes hp' hgrows' ⊢
      obtain ⟨g', _ | ⟨o', os'⟩⟩ := q
      · cases hscopes
      · have hgrows'' := Progress.grows_step ⟨g', o' :: os'⟩ .closeScope
        refine ihbs ?_ (hs.mono (hgrows'.trans hgrows'')) ⟨_, hp'.step .closeScope⟩
          (hinside.mono hgrows'' (ScopeGraph.definitions_foldl_resolve _))
        exact (Names.map_scope_addWaiting _ _).trans (List.cons.inj hscopes).2

/-! ### The graph of a program -/

/-- Before the first statement the scopes of the program are open, the last one innermost. -/
theorem header_spec (options : Options) (program : NodeId) (body : List (Node Place)) :
    let p := Progress.follow { graph := { options } } (Action.ofHeader options program body)
    ∃ last around, p.openScopes.map (·.scope) = last :: around ∧
      p.graph.blocks = List.replicate (last + 1) program ∧ p.graph.definitions = #[] := by
  obtain ⟨globalReturn, sourceType⟩ := options
  cases globalReturn <;> cases sourceType <;> exact ⟨_, _, rfl, rfl, rfl⟩

theorem openedBlocks_closing (header : List Action) :
    openedBlocks (header.map fun _ => .closeScope) = [] := by
  induction header with
  | nil => rfl
  | cons a header ih => exact ih

/-- Closing scopes declares nothing. -/
theorem Located.closing (header : List Action) {p : Progress} (h : Located t last p.graph) :
    Located t last (p.follow (header.map fun _ => .closeScope)).graph := by
  induction header generalizing p with
  | nil => exact h
  | cons a header ih =>
    refine ih (h.mono (p.grows_step .closeScope) ?_)
    obtain ⟨g, _ | ⟨o, os⟩⟩ := p
    · rfl
    · exact ScopeGraph.definitions_foldl_resolve _

/-- Where the variables of declarations belong, and the nodes that open the scopes of a program. -/
theorem located_ofTree (ht : t.Indexed) (options : Options) :
    ∃ last, Located t last (.ofTree options t) ∧ (ScopeGraph.ofTree options t).blocks =
      List.replicate (last + 1) t.root.id ++ openedBlocks (Action.ofNodes t.body) := by
  obtain ⟨last, around, hopen, hblocks, hlog⟩ := header_spec options t.root.id t.body
  have hpasses := (Names.passes_empty options).follow (Action.ofHeader options t.root.id t.body)
  rw [ScopeGraph.ofTree, Action.ofProgram, Progress.follow_append, Progress.follow_append]
  refine ⟨last, Located.closing _ ?_, ?_⟩
  · have hfirst : OpenedBy t last
        (Progress.follow { graph := { options } } (Action.ofHeader options t.root.id t.body)).graph last
        t.root.id := ⟨by simp [hblocks], fun _ => rfl⟩
    refine ((sited_body ht).located hopen hfirst ⟨_, hpasses⟩ ?_).1
    intro e he
    simp [hlog] at he
  · rw [Progress.blocks_follow, Progress.blocks_follow, hblocks, openedBlocks_closing, List.append_nil]

/-- No scope of a node comes after the one that its actions stand in. -/
theorem le_of_openedBy {bs : List NodeId} (hblocks : g.blocks = List.replicate (last + 1) t.root.id ++ bs)
    (hnodup : (t.root.id :: bs).Nodup) {s : ScopeId} (hs : OpenedBy t last g s b) {s' : ScopeId}
    (hs' : g.blocks[s']? = some b) : s' ≤ s := by
  obtain ⟨hroot, hbs⟩ := List.nodup_cons.mp hnodup
  have hblock := hs.block
  rw [hblocks] at hs' hblock
  by_cases hb : b = t.root.id
  · -- the scopes of the program come before all others
    rw [hs.root hb]
    rw [hb] at hs'
    exact Nat.le_of_lt_succ (lt_of_getElem?_replicate_append hroot hs')
  · exact Nat.le_of_eq (eq_of_getElem?_replicate_append hbs hb hs' hblock)

/-- Going up from a declaration leads to the scope that its actions stand in. -/
theorem standsIn_of_nearest {opened : NodeId → List ScopeId} {i : NodeId} {s : ScopeId}
    (hnone : ∀ p n, t.node? p = some n → t.opensScope n = false → opened p = [])
    (hs : (opened b).getLast? = some s) (h : t.Nearest i b) : t.StandsIn opened i s := by
  induction h with
  | parent hparent _ _ => exact .parent hparent hs
  | above hparent hn hopens _ ih => exact .above hparent (hnone _ _ hn hopens) (ih hs)

/-- **Variables belong where their declarations stand.** -/
theorem belongs_ofTree (ht : t.Indexed) (options : Options) :
    ∀ e ∈ (ScopeGraph.ofTree options t).definitions, ∀ declaration, e.2.kind = .variableOf declaration →
      ∃ l keyword declarators s,
        t.node? declaration = some (.mk l (.variableDeclaration keyword declarators)) ∧
        t.StandsIn (ScopeGraph.ofTree options t).scopesOf declaration s ∧
        s < (ScopeGraph.ofTree options t).scopes.size ∧
        (ScopeGraph.ofTree options t).vars[e.1]?.map (·.scope) =
          some (Names.home (.ofTree options t) (!keyword.isBlockScoped) s) := by
  intro e he declaration hkind
  obtain ⟨last, hlocated, hblocks⟩ := located_ofTree ht options
  generalize ScopeGraph.ofTree options t = g at *
  obtain ⟨b, isHoisted, s, ⟨⟨l, keyword, declarators, hnode, rfl⟩, hnearest⟩, hs, hx⟩ :=
    hlocated e he declaration hkind
  have hlast := g.getLast?_scopesOf hs.block fun s' => le_of_openedBy hblocks (nodup_openedBlocks_body ht) hs
  have hnone : ∀ p n, t.node? p = some n → t.opensScope n = false → g.scopesOf p = [] := by
    intro p n hn hopens
    refine g.scopesOf_eq_nil fun hmem => ?_
    rw [hblocks, List.mem_append] at hmem
    rcases hmem with hmem | hmem
    · rw [List.eq_of_mem_replicate hmem, ht.node?_id t.root.mem_nodes_self] at hn
      cases hn
      rw [opensScope_root ht] at hopens
      cases hopens
    · obtain ⟨n', hn', hopens'⟩ := (sited_body ht).opensScope hmem
      cases hn.symm.trans hn'
      rw [hopens] at hopens'
      cases hopens'
  refine ⟨l, keyword, declarators, s, hnode, standsIn_of_nearest hnone hlast hnearest, ?_, hx⟩
  rw [← g.length_blocks]
  exact (List.getElem?_eq_some_iff.mp hs.block).1

end

end Scoping

end ScriptAnalysis

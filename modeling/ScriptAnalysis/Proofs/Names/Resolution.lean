import ScriptAnalysis.Proofs.Names.Trace
import ScriptAnalysis.Proofs.Scoping.Variables

/-!
# What references refer to

Scope analysis answers references when scopes are closed. `Follows` relates how far it has got to the
trace of the same steps: the graph declares what the trace has noted, and a reference has been answered by
the innermost of the closed scopes around it that can answer it, or it waits in the innermost open one. No
declaration reaches a closed scope any more, so in the end every reference has been answered by the
innermost of all scopes around it that can (`Follows.target?`).
-/

namespace ScriptAnalysis.Names

open Ast (NodeId)
open Scoping

theorem findSome?_congr {β γ : Type} {f g : β → Option γ} {l : List β} (h : ∀ x ∈ l, f x = g x) :
    l.findSome? f = l.findSome? g := by
  rw [← List.head?_filterMap, ← List.head?_filterMap, List.filterMap_congr h]

/-! ### Answering references -/

@[simp] theorem scopes_foldl_resolve (answered : List (ReferenceId × VariableId)) (g : ScopeGraph) :
    (answered.foldl ScopeGraph.resolve g).scopes = g.scopes := by
  induction answered generalizing g with
  | nil => rfl
  | cons a as ih => exact ih _

@[simp] theorem size_references_foldl_resolve (answered : List (ReferenceId × VariableId))
    (g : ScopeGraph) : (answered.foldl ScopeGraph.resolve g).references.size = g.references.size := by
  induction answered generalizing g with
  | nil => rfl
  | cons a as ih => exact (ih _).trans Array.size_modify

/-- Answering references gives them their variables and leaves the other references as they are. -/
theorem references_foldl_resolve {answer : ReferenceId → Option VariableId}
    {answered : List (ReferenceId × VariableId)} (h : ∀ a ∈ answered, answer a.1 = some a.2)
    (g : ScopeGraph) (i : ReferenceId) :
    (answered.foldl ScopeGraph.resolve g).references[i]? = g.references[i]?.map fun r =>
      if i ∈ answered.map (·.1) then { r with target? := answer i } else r := by
  induction answered generalizing g with
  | nil => simp
  | cons a as ih =>
    obtain ⟨j, v⟩ := a
    have hv : answer j = some v := h _ List.mem_cons_self
    have hstep : (g.resolve (j, v)).references[i]? =
        if j = i then g.references[i]?.map fun r => { r with target? := some v }
        else g.references[i]? := Array.getElem?_modify
    rw [List.foldl_cons, ih fun a ha => h a (List.mem_cons_of_mem _ ha), hstep]
    by_cases hj : j = i
    · subst hj
      rw [if_pos rfl, Option.map_map]
      congr 1
      funext r
      rw [Function.comp_apply, if_pos (List.mem_map_of_mem List.mem_cons_self), hv]
      split <;> rfl
    · have hmem : i ∈ ((j, v) :: as).map (·.1) ↔ i ∈ as.map (·.1) := by
        rw [List.map_cons, List.mem_cons]
        exact or_iff_right (Ne.symm hj)
      rw [if_neg hj]
      simp only [hmem]

/-- When a scope is closed, its variables answer the waiting references that they can answer. -/
theorem references_settle (g : ScopeGraph) (s : ScopeId) (waiting : List ReferenceId)
    (i : ReferenceId) :
    (g.settle s waiting).references[i]? = g.references[i]?.map fun r =>
      if i ∈ waiting ∧ (g.answer? s i).isSome then { r with target? := g.answer? s i } else r := by
  have hanswered : ∀ a ∈ g.answered s waiting, g.answer? s a.1 = some a.2 := by
    intro a ha
    obtain ⟨j, -, hj⟩ := List.mem_filterMap.mp ha
    obtain ⟨v, hv, rfl⟩ := Option.map_eq_some_iff.mp hj
    exact hv
  have hmem : i ∈ (g.answered s waiting).map (·.1) ↔ i ∈ waiting ∧ (g.answer? s i).isSome := by
    constructor
    · intro h
      obtain ⟨a, ha, rfl⟩ := List.mem_map.mp h
      obtain ⟨j, hj, hj'⟩ := List.mem_filterMap.mp ha
      obtain ⟨v, hv, rfl⟩ := Option.map_eq_some_iff.mp hj'
      exact ⟨hj, by simp [hv]⟩
    · rintro ⟨hi, hsome⟩
      obtain ⟨v, hv⟩ := Option.isSome_iff_exists.mp hsome
      exact List.mem_map.mpr ⟨(i, v), List.mem_filterMap.mpr ⟨i, hi, by simp [hv]⟩, rfl⟩
  show ((g.answered s waiting).foldl ScopeGraph.resolve g).references[i]? = _
  rw [references_foldl_resolve hanswered]
  simp only [hmem]

@[simp] theorem size_references_settle (g : ScopeGraph) (s : ScopeId) (waiting : List ReferenceId) :
    (g.settle s waiting).references.size = g.references.size :=
  size_references_foldl_resolve _ g

@[simp] theorem size_scopes_settle (g : ScopeGraph) (s : ScopeId) (waiting : List ReferenceId) :
    (g.settle s waiting).scopes.size = g.scopes.size := by
  simp [ScopeGraph.settle, ScopeGraph.modifyScope]

theorem variableScopeOf?_settle (g : ScopeGraph) (s : ScopeId) (waiting : List ReferenceId)
    (s' : ScopeId) : (g.settle s waiting).variableScopeOf? s' = g.variableScopeOf? s' := by
  have h := ScopeGraph.map_getElem?_modifyScope
    ((g.answered s waiting).foldl ScopeGraph.resolve g) s
    (f := fun x => { x with through := x.through ++ g.unanswered s waiting }) (·.variableScope)
    (fun _ => rfl) s'
  rw [scopes_foldl_resolve] at h
  exact h

/-! ### Following a trace -/

/-- A definition as the declaration of a name. -/
def declaredAs (name : String) (d : Definition) : Declared NodeId := ⟨d.name, name, d.isType⟩

/-- The declarations of a name that go to a scope. -/
def Trace.declaredIn (t : Trace NodeId) (s : ScopeId) (name : String) : List (Declared NodeId) :=
  (t.declarations.filter fun x => x.1 = s ∧ x.2.name = name).map (·.2)

/-- A reference agrees with what has been noted of it. The first part of the scopes around it is closed,
and the innermost scope there that can has answered it; if none can it waits in the next scope. -/
def Standing (p : Progress) (i : ReferenceId) (x : List ScopeId × Referred NodeId) : Prop :=
  ∃ r closed around, p.graph.references[i]? = some r ∧
    (r.identifier = x.2.label ∧ r.name = x.2.name ∧ r.use.isType = x.2.isType ∧
      r.use.isInitialization = x.2.isInitial) ∧
    (x.1 = closed ++ around ∧ around <:+ p.openScopes.map (·.scope) ∧
      ∀ s ∈ closed, s ∉ p.openScopes.map (·.scope)) ∧
    r.target? = closed.findSome? (p.graph.answerTo? · r.name r.use) ∧
    ∀ o ∈ p.openScopes, i ∈ o.waiting ↔ r.target? = none ∧ around.head? = some o.scope

/-- The analysis has got as far as the trace. -/
structure Follows (p : Progress) (t : Trace NodeId) : Prop where
  graph : p.graph.Sound
  trace : t.Sound
  size_scopes : p.graph.scopes.size = t.count
  openScopes : p.openScopes.map (·.scope) = t.sites.map (·.id)
  variableScope : ∀ site ∈ t.sites, p.graph.variableScopeOf? site.id = some site.variableScope
  definitions : ∀ s name, (p.graph.definitionsIn s name).map (declaredAs name) = t.declaredIn s name
  waiting : ∀ o ∈ p.openScopes, ∀ i ∈ o.waiting, i < t.references.length
  size_references : p.graph.references.size = t.references.length
  references : ∀ i x, t.references[i]? = some x → Standing p i x

theorem follows_empty (options : Options) : Follows { graph := { options } } Trace.empty where
  graph s v hv := by simp [ScopeGraph.varsOf] at hv
  trace := Trace.sound_empty
  size_scopes := rfl
  openScopes := rfl
  variableScope := by simp [Trace.empty]
  definitions s name := by simp [ScopeGraph.definitionsIn, ScopeGraph.variableIn?, Trace.empty,
    Trace.declaredIn]
  waiting := by simp
  size_references := rfl
  references := by simp [Trace.empty]

variable {p p' : Progress} {t : Trace NodeId}

/-- Nothing changes for a reference when the closed scopes answer as before and the open ones let the same
references wait. -/
theorem Standing.of_same {i : ReferenceId} {x : List ScopeId × Referred NodeId} (h : Standing p i x)
    (hreference : p'.graph.references[i]? = p.graph.references[i]?)
    (hopen : p'.openScopes.map (·.scope) = p.openScopes.map (·.scope))
    (hanswer : ∀ s ∉ p.openScopes.map (·.scope), ∀ name use,
      p'.graph.answerTo? s name use = p.graph.answerTo? s name use)
    (hwaiting : ∀ o' ∈ p'.openScopes, ∃ o ∈ p.openScopes, o.scope = o'.scope ∧
      (i ∈ o'.waiting ↔ i ∈ o.waiting)) : Standing p' i x := by
  obtain ⟨r, closed, around, hr, hcore, ⟨hx, haround, hclosed⟩, htarget, hwait⟩ := h
  refine ⟨r, closed, around, hreference.trans hr, hcore, ⟨hx, hopen ▸ haround, ?_⟩, ?_, ?_⟩
  · intro s hs
    rw [hopen]
    exact hclosed s hs
  · rw [htarget]
    exact findSome?_congr fun s hs => (hanswer s (hclosed s hs) _ _).symm
  · intro o' ho'
    obtain ⟨o, ho, hscope, hiff⟩ := hwaiting o' ho'
    rw [hiff, hwait o ho, hscope]

theorem Follows.openScope (h : Follows p t) (type : ScopeType) (block : NodeId)
    (startsStrict : Bool) :
    Follows (p.step (.openScope type block startsStrict)) (t.step (.openScope type)) := by
  obtain ⟨g, os⟩ := p
  have halike := ScopeGraph.alike_addScope g type block (os.head?.map (·.scope)) startsStrict
  have hnested := h.trace.nested
  have hupper : (os.head?.map (·.scope)).bind g.variableScopeOf? =
      t.sites.head?.map (·.variableScope) := by
    have hopen := congrArg List.head? h.openScopes
    rw [List.head?_map, List.head?_map] at hopen
    rw [hopen]
    cases hsites : t.sites with
    | nil => rfl
    | cons site sites => exact h.variableScope site (hsites ▸ List.mem_cons_self)
  constructor
  case graph => exact halike.sound h.graph
  case trace => exact h.trace.step _
  case size_scopes => simpa [Progress.step, Trace.step] using h.size_scopes
  case openScopes =>
    show g.scopes.size :: os.map (·.scope) = t.count :: t.sites.map (·.id)
    rw [h.openScopes, ← h.size_scopes]
  case variableScope =>
    intro site hsite
    show (g.addScope type block _ startsStrict).variableScopeOf? site.id = _
    rw [ScopeGraph.variableScopeOf?_addScope, hupper, h.size_scopes]
    rcases List.mem_cons.mp hsite with rfl | hsite
    · exact if_pos rfl
    · rw [if_neg (Nat.ne_of_lt (hnested.lt (List.mem_map_of_mem hsite)))]
      exact h.variableScope site hsite
  case definitions =>
    intro s name
    show ((g.addScope type block _ startsStrict).definitionsIn s name).map _ = _
    rw [halike.definitionsIn]
    exact h.definitions s name
  case waiting =>
    intro o ho i hi
    rcases List.mem_cons.mp ho with rfl | ho
    · simp at hi
    · exact h.waiting o ho i hi
  case size_references => simpa [Progress.step, Trace.step] using h.size_references
  case references =>
    intro i x hx
    obtain ⟨r, closed, around, hr, hcore, ⟨hx', haround, hclosed⟩, htarget, hwait⟩ :=
      h.references i x hx
    have hlt : ∀ s ∈ x.1, s ≠ g.scopes.size := fun s hs =>
      h.size_scopes ▸ Nat.ne_of_lt (h.trace.references x (List.mem_of_getElem? hx) s hs)
    refine ⟨r, closed, around, by simpa [Progress.step] using hr, hcore,
      ⟨hx', haround.trans (List.suffix_cons _ _), ?_⟩, ?_, ?_⟩
    · intro s hs hmem
      rcases List.mem_cons.mp hmem with hs' | hmem
      · exact hlt s (hx' ▸ List.mem_append_left _ hs) hs'
      · exact hclosed s hs hmem
    · rw [htarget]
      exact findSome?_congr fun s _ => (halike.answerTo? s _ _).symm
    · intro o ho
      rcases List.mem_cons.mp ho with rfl | ho
      · refine ⟨fun hi => absurd hi List.not_mem_nil, fun hhead => ?_⟩
        have hmem : g.scopes.size ∈ x.1 := by
          rw [hx']
          exact List.mem_append_right _ (List.mem_of_head? hhead.2)
        exact absurd rfl (hlt _ hmem)
      · exact hwait o ho

/-- Open scopes of which the innermost lets more references wait. -/
theorem map_scope_addWaiting (references : List ReferenceId) (os : List OpenScope) :
    (Progress.addWaiting references os).map (·.scope) = os.map (·.scope) := by
  cases os <;> rfl

theorem mem_waiting_addWaiting {references : List ReferenceId} {os : List OpenScope}
    (hnodup : (os.map (·.scope)).Nodup) {o' : OpenScope}
    (ho' : o' ∈ Progress.addWaiting references os) :
    ∃ o ∈ os, o.scope = o'.scope ∧ ∀ i, i ∈ o'.waiting ↔
      i ∈ o.waiting ∨ i ∈ references ∧ os.head?.map (·.scope) = some o'.scope := by
  cases os with
  | nil => exact absurd ho' List.not_mem_nil
  | cons o os =>
    rcases List.mem_cons.mp ho' with rfl | ho'
    · exact ⟨o, List.mem_cons_self, rfl, fun i => by simp⟩
    · refine ⟨o', List.mem_cons_of_mem _ ho', rfl, fun i => ?_⟩
      have hmem : o'.scope ∈ os.map (·.scope) := List.mem_map_of_mem ho'
      have hne : o.scope ≠ o'.scope := by
        intro heq
        rw [← heq] at hmem
        exact (List.nodup_cons.mp hnodup).1 hmem
      simp [hne]

/-- When a scope is closed, the references that wait in it are answered or wait in the next scope. -/
theorem Standing.closeScope {g : ScopeGraph} {o : OpenScope} {os : List OpenScope}
    {i : ReferenceId} {x : List ScopeId × Referred NodeId} (h : Standing ⟨g, o :: os⟩ i x)
    (hnodup : (o.scope :: os.map (·.scope)).Nodup) :
    Standing (Progress.step ⟨g, o :: os⟩ .closeScope) i x := by
  obtain ⟨r, closed, around, hr, hcore, ⟨hx, haround, hclosed⟩, htarget, hwait⟩ := h
  obtain ⟨ho, hos⟩ := List.nodup_cons.mp hnodup
  have halike := ScopeGraph.alike_settle g o.scope o.waiting
  have hreference := references_settle g o.scope o.waiting i
  have hanswer : g.answer? o.scope i = g.answerTo? o.scope r.name r.use := by
    rw [ScopeGraph.answer?_eq, hr]
    rfl
  rw [hr, Option.map_some, hanswer] at hreference
  have hunanswered : i ∈ g.unanswered o.scope o.waiting ↔
      i ∈ o.waiting ∧ g.answerTo? o.scope r.name r.use = none := by
    rw [ScopeGraph.unanswered, List.mem_filter, hanswer, Option.isNone_iff_eq_none]
  have hopen : (Progress.addWaiting (g.unanswered o.scope o.waiting) os).map (·.scope) =
      os.map (·.scope) := map_scope_addWaiting _ _
  rcases List.suffix_cons_iff.mp haround with heq | haround'
  · -- the closed scope is the next one around the reference
    have hiff : i ∈ o.waiting ↔ r.target? = none := by
      rw [hwait o List.mem_cons_self, heq]
      simp
    obtain ⟨r', hr', hcore', hname', hr''⟩ : ∃ r' : Reference,
        (g.settle o.scope o.waiting).references[i]? = some r' ∧
        (r'.identifier = x.2.label ∧ r'.name = x.2.name ∧ r'.use.isType = x.2.isType ∧
          r'.use.isInitialization = x.2.isInitial) ∧ (r'.name = r.name ∧ r'.use = r.use) ∧
        r'.target? = r.target?.or (g.answerTo? o.scope r.name r.use) := by
      refine ⟨_, hreference, ?_⟩
      split
      · rename_i h
        exact ⟨hcore, ⟨rfl, rfl⟩, by rw [hiff.mp h.1, Option.none_or]⟩
      · rename_i h
        refine ⟨hcore, ⟨rfl, rfl⟩, ?_⟩
        cases htarget' : r.target? with
        | some v => rfl
        | none =>
          rw [Option.none_or, eq_comm, ← Option.not_isSome_iff_eq_none]
          exact fun hsome => h ⟨hiff.mpr htarget', hsome⟩
    refine ⟨r', closed ++ [o.scope], os.map (·.scope), hr', hcore', ⟨?_, ?_, ?_⟩, ?_, ?_⟩
    · rw [hx, heq]
      simp
    · exact hopen ▸ List.suffix_refl _
    · intro s hs hmem
      have hmem : s ∈ os.map (·.scope) := hopen ▸ hmem
      rcases List.mem_append.mp hs with hs | hs
      · exact hclosed s hs (List.mem_cons_of_mem _ hmem)
      · exact ho (List.mem_singleton.mp hs ▸ hmem)
    · rw [hr'', hname'.1, hname'.2, List.findSome?_append, htarget]
      congr 1
      · exact findSome?_congr fun s _ => (halike.answerTo? s _ _).symm
      · rw [List.findSome?_singleton]
        exact (halike.answerTo? o.scope _ _).symm
    · intro o' ho'
      obtain ⟨o'', ho'', hscope, hmem⟩ := mem_waiting_addWaiting hos ho'
      have hnot : i ∉ o''.waiting := by
        rw [hwait o'' (List.mem_cons_of_mem _ ho''), heq]
        rintro ⟨-, hhead⟩
        have hscope' : o.scope = o''.scope := Option.some.inj hhead
        exact ho (hscope' ▸ List.mem_map_of_mem ho'')
      rw [hmem, hunanswered, hiff, hr'', Option.or_eq_none_iff, List.head?_map]
      exact or_iff_right hnot
  · -- the closed scope is not around the reference
    have hi : i ∉ o.waiting := by
      rw [hwait o List.mem_cons_self]
      rintro ⟨-, hhead⟩
      exact ho (haround'.subset (List.mem_of_head? hhead))
    rw [if_neg fun h => hi h.1] at hreference
    refine ⟨r, closed, around, hreference, hcore, ⟨hx, hopen ▸ haround', ?_⟩, ?_, ?_⟩
    · intro s hs hmem
      have hmem : s ∈ os.map (·.scope) := hopen ▸ hmem
      exact hclosed s hs (List.mem_cons_of_mem _ hmem)
    · rw [htarget]
      exact findSome?_congr fun s _ => (halike.answerTo? s _ _).symm
    · intro o' ho'
      obtain ⟨o'', ho'', hscope, hiff⟩ := mem_waiting_addWaiting hos ho'
      rw [hiff, hwait o'' (List.mem_cons_of_mem _ ho''), hscope, hunanswered]
      exact or_iff_left fun h => hi h.1.1

theorem Follows.sites_eq_cons {g : ScopeGraph} {o : OpenScope} {os : List OpenScope}
    (h : Follows ⟨g, o :: os⟩ t) : ∃ site sites, t.sites = site :: sites := by
  have hopen := h.openScopes
  cases hsites : t.sites with
  | nil => simp [hsites] at hopen
  | cons site sites => exact ⟨site, sites, rfl⟩

theorem Follows.closeScope (h : Follows p t) :
    Follows (p.step .closeScope) (t.step .closeScope) := by
  obtain ⟨g, os⟩ := p
  have hopen := h.openScopes
  have hnested := h.trace.nested
  cases os with
  | nil =>
    have hsites : t.sites = [] := by simpa using hopen.symm
    have hstep : t.step .closeScope = t := by
      obtain ⟨n, sites, declarations, references⟩ := t
      cases hsites
      rfl
    rw [hstep]
    exact h
  | cons o os =>
    obtain ⟨site, sites, hsites⟩ := h.sites_eq_cons
    have halike := ScopeGraph.alike_settle g o.scope o.waiting
    have hnodup : (o.scope :: os.map (·.scope)).Nodup := by
      have := hnested.nodup
      rwa [← hopen] at this
    have hsites' : (t.step .closeScope).sites = sites := by
      show t.sites.tail = sites
      rw [hsites]
      rfl
    constructor
    case graph => exact halike.sound h.graph
    case trace => exact h.trace.step _
    case size_scopes => exact (size_scopes_settle g _ _).trans h.size_scopes
    case openScopes =>
      rw [hsites] at hopen
      rw [hsites']
      exact (map_scope_addWaiting _ _).trans (List.cons.inj hopen).2
    case variableScope =>
      intro s hs
      rw [hsites'] at hs
      exact (variableScopeOf?_settle g _ _ _).trans
        (h.variableScope s (hsites ▸ List.mem_cons_of_mem _ hs))
    case definitions =>
      intro s name
      show ((g.settle o.scope o.waiting).definitionsIn s name).map _ = _
      rw [halike.definitionsIn]
      exact h.definitions s name
    case waiting =>
      intro o' ho' i hi
      obtain ⟨o'', ho'', -, hiff⟩ := mem_waiting_addWaiting (List.nodup_cons.mp hnodup).2 ho'
      rcases (hiff i).mp hi with hi | ⟨hi, -⟩
      · exact h.waiting o'' (List.mem_cons_of_mem _ ho'') i hi
      · exact h.waiting o List.mem_cons_self i (List.mem_filter.mp hi).1
    case size_references => exact (size_references_settle g _ _).trans h.size_references
    case references =>
      intro i x hx
      exact (h.references i x hx).closeScope hnodup

/-- The scope that a name goes to when it is declared in a scope. -/
def home (g : ScopeGraph) (isHoisted : Bool) (s : ScopeId) : ScopeId :=
  if isHoisted then (g.scopes[s]?).elim s (·.variableScope) else s

section Home

variable {g : ScopeGraph} {o : OpenScope} {os : List OpenScope}

theorem Follows.exists_home (h : Follows ⟨g, o :: os⟩ t) (isHoisted : Bool) :
    ∃ site sites, t.sites = site :: sites ∧
      home g isHoisted o.scope = if isHoisted then site.variableScope else site.id := by
  have hopen := h.openScopes
  obtain ⟨site, sites, hsites⟩ := h.sites_eq_cons
  have hid : o.scope = site.id := by
    rw [hsites] at hopen
    exact (List.cons.inj hopen).1
  have hvariableScope := h.variableScope site (hsites ▸ List.mem_cons_self)
  rw [ScopeGraph.variableScopeOf?, Option.map_eq_some_iff] at hvariableScope
  obtain ⟨x, hx, hx'⟩ := hvariableScope
  exact ⟨site, sites, hsites, by rw [home, hid, hx, Option.elim_some, hx']⟩

/-- A declared name goes to an open scope. -/
theorem Follows.home_mem (h : Follows ⟨g, o :: os⟩ t) (isHoisted : Bool) :
    home g isHoisted o.scope ∈ (o :: os).map (·.scope) := by
  obtain ⟨site, sites, hsites, hhome⟩ := h.exists_home isHoisted
  rw [h.openScopes, hhome]
  split
  · exact h.trace.nested.variableScope_mem (hsites ▸ List.mem_cons_self)
  · exact hsites ▸ List.mem_cons_self

theorem Follows.home_lt (h : Follows ⟨g, o :: os⟩ t) (isHoisted : Bool) :
    home g isHoisted o.scope < g.scopes.size := by
  rw [h.size_scopes]
  exact h.trace.nested.lt (h.openScopes ▸ h.home_mem isHoisted)

theorem Follows.step_define (h : Follows ⟨g, o :: os⟩ t) (isHoisted : Bool) (name : String)
    (d : Definition) :
    ∃ scope ∈ (o :: os).map (·.scope), scope < g.scopes.size ∧
      Progress.step ⟨g, o :: os⟩ (.define isHoisted name d) = ⟨g.addDefinition scope name d, o :: os⟩ ∧
      t.step (.declare isHoisted (declaredAs name d)) =
        { t with declarations := t.declarations ++ [(scope, declaredAs name d)] } := by
  obtain ⟨site, sites, hsites, hhome⟩ := h.exists_home isHoisted
  exact ⟨_, h.home_mem isHoisted, h.home_lt isHoisted, rfl, by rw [Trace.step, hsites, hhome]⟩

end Home

theorem Follows.define (h : Follows p t) (isHoisted : Bool) (name : String) (d : Definition) :
    Follows (p.step (.define isHoisted name d)) (t.step (.declare isHoisted (declaredAs name d))) := by
  obtain ⟨g, os⟩ := p
  have hopen := h.openScopes
  cases os with
  | nil =>
    have hsites : t.sites = [] := by simpa using hopen.symm
    have hstep : t.step (.declare isHoisted (declaredAs name d)) = t := by
      rw [Trace.step, hsites]
    rw [hstep]
    exact h
  | cons o os =>
    obtain ⟨scope, hmem, hlt, hp, ht⟩ := h.step_define isHoisted name d
    have hsound := h.trace.step (.declare isHoisted (declaredAs name d))
    rw [hp, ht]
    rw [ht] at hsound
    constructor
    case graph => exact h.graph.addDefinition d hlt
    case trace => exact hsound
    case size_scopes => exact (ScopeGraph.size_scopes_addDefinition d).trans h.size_scopes
    case openScopes => exact hopen
    case variableScope =>
      intro s hs
      exact (ScopeGraph.variableScopeOf?_addDefinition d s.id).trans (h.variableScope s hs)
    case definitions =>
      intro s n
      show ((g.addDefinition scope name d).definitionsIn s n).map _ = _
      rw [h.graph.definitionsIn_addDefinition d hlt, List.map_append, h.definitions,
        Trace.declaredIn, Trace.declaredIn, List.filter_append, List.map_append]
      congr 1
      by_cases hs : s = scope ∧ n = name
      · rw [if_pos hs, hs.1, hs.2]
        simp [declaredAs]
      · have hs' : ¬(scope = s ∧ name = n) := fun h => hs ⟨h.1.symm, h.2.symm⟩
        rw [if_neg hs]
        simp [declaredAs, hs']
    case waiting => exact h.waiting
    case size_references =>
      exact (congrArg Array.size (ScopeGraph.references_addDefinition d)).trans h.size_references
    case references =>
      intro i x hx
      refine (h.references i x hx).of_same ?_ rfl ?_ fun o' ho' => ⟨o', ho', rfl, Iff.rfl⟩
      · exact congrArg (·[i]?) (ScopeGraph.references_addDefinition d)
      · intro s hs n use
        exact h.graph.answerTo?_addDefinition d hlt (fun heq : s = scope => hs (heq ▸ hmem)) n use

theorem Follows.refer (h : Follows p t) (name : String) (identifier : NodeId) (use : Use) :
    Follows (p.step (.refer name identifier use))
      (t.step (.refer ⟨identifier, name, use.isType, use.isInitialization⟩)) := by
  obtain ⟨g, os⟩ := p
  have hopen := h.openScopes
  cases os with
  | nil =>
    have hsites : t.sites = [] := by simpa using hopen.symm
    have hstep : t.step (.refer ⟨identifier, name, use.isType, use.isInitialization⟩) = t := by
      rw [Trace.step, hsites]
    rw [hstep]
    exact h
  | cons o os =>
    obtain ⟨site, sites, hsites⟩ := h.sites_eq_cons
    have halike := ScopeGraph.alike_addReference g o.scope name identifier use
    have hnodup : ((o :: os).map (·.scope)).Nodup := by
      rw [hopen]
      exact h.trace.nested.nodup
    have hp : Progress.step ⟨g, o :: os⟩ (.refer name identifier use) =
        ⟨g.addReference o.scope name identifier use,
          Progress.addWaiting [g.references.size] (o :: os)⟩ := rfl
    have ht : t.step (.refer ⟨identifier, name, use.isType, use.isInitialization⟩) =
        { t with references := t.references ++ [(t.sites.map (·.id),
            ⟨identifier, name, use.isType, use.isInitialization⟩)] } := by
      rw [Trace.step, hsites]
    have hreferences : (g.addReference o.scope name identifier use).references =
        g.references.push ⟨identifier, name, o.scope, use, none⟩ := rfl
    have hsound := h.trace.step (.refer ⟨identifier, name, use.isType, use.isInitialization⟩)
    have hnew : ∀ o' ∈ o :: os, g.references.size ∉ o'.waiting := fun o' ho' hmem =>
      Nat.lt_irrefl _ (h.size_references ▸ h.waiting o' ho' _ hmem)
    rw [hp, ht]
    rw [ht] at hsound
    constructor
    case graph => exact halike.sound h.graph
    case trace => exact hsound
    case size_scopes =>
      refine Eq.trans ?_ h.size_scopes
      exact Array.size_modify
    case openScopes => exact (map_scope_addWaiting _ _).trans hopen
    case variableScope =>
      intro s hs
      refine Eq.trans ?_ (h.variableScope s hs)
      exact ScopeGraph.map_getElem?_modifyScope { g with references := _ } o.scope (·.variableScope)
        (f := fun x => { x with references := x.references ++ [g.references.size] })
        (fun _ => rfl) s.id
    case definitions =>
      intro s n
      show ((g.addReference o.scope name identifier use).definitionsIn s n).map _ = _
      rw [halike.definitionsIn]
      exact h.definitions s n
    case waiting =>
      intro o' ho' i hi
      obtain ⟨o'', ho'', -, hiff⟩ := mem_waiting_addWaiting hnodup ho'
      rw [List.length_append, List.length_singleton]
      rcases (hiff i).mp hi with hi | ⟨hi, -⟩
      · exact Nat.lt_succ_of_lt (h.waiting o'' ho'' i hi)
      · rw [List.mem_singleton.mp hi, h.size_references]
        exact Nat.lt_succ_self _
    case size_references =>
      show (g.addReference o.scope name identifier use).references.size = _
      rw [hreferences, Array.size_push, List.length_append, List.length_singleton]
      exact congrArg (· + 1) h.size_references
    case references =>
      intro i x hx
      rw [List.getElem?_append] at hx
      split at hx
      · rename_i hlt
        rw [← h.size_references] at hlt
        have hscopes : (Progress.addWaiting [g.references.size] (o :: os)).map (·.scope) =
            (o :: os).map (·.scope) := map_scope_addWaiting _ _
        refine (h.references i x hx).of_same ?_ hscopes
          (fun s _ n use' => halike.answerTo? s n use') fun o' ho' => ?_
        · show (g.addReference o.scope name identifier use).references[i]? = _
          rw [hreferences, Array.getElem?_push, if_neg (Nat.ne_of_lt hlt)]
        · obtain ⟨o'', ho'', hscope, hiff⟩ := mem_waiting_addWaiting hnodup ho'
          refine ⟨o'', ho'', hscope, (hiff i).trans (or_iff_left fun hi => ?_)⟩
          exact Nat.ne_of_lt hlt (List.mem_singleton.mp hi.1)
      · -- the new reference
        rename_i hge
        obtain ⟨hlt, hx'⟩ := List.getElem?_eq_some_iff.mp hx
        have hi : i = g.references.size := by
          have hle : i - t.references.length = 0 := Nat.lt_one_iff.mp hlt
          exact (Nat.le_antisymm (Nat.le_of_sub_eq_zero hle) (Nat.le_of_not_lt hge)).trans
            h.size_references.symm
        subst hi
        rw [List.getElem_singleton] at hx'
        subst hx'
        refine ⟨⟨identifier, name, o.scope, use, none⟩, [], t.sites.map (·.id), ?_,
          ⟨rfl, rfl, rfl, rfl⟩, ⟨rfl, ?_, by simp⟩, rfl, fun o' ho' => ?_⟩
        · show (g.addReference o.scope name identifier use).references[_]? = _
          rw [hreferences, Array.getElem?_push_size]
        · have hscopes := (map_scope_addWaiting [g.references.size] (o :: os)).trans hopen
          exact hscopes ▸ List.suffix_refl _
        · obtain ⟨o'', ho'', hscope, hiff⟩ := mem_waiting_addWaiting hnodup ho'
          rw [hiff, ← hopen, List.head?_map]
          simp [hnew o'' ho'']

/-- A step of the walk keeps the analysis and the trace together. -/
theorem Follows.step (h : Follows p t) (a : Action) : Follows (p.step a) (t.step a.toStep) := by
  cases a with
  | openScope type block startsStrict => exact h.openScope type block startsStrict
  | closeScope => exact h.closeScope
  | define isHoisted name d => exact h.define isHoisted name d
  | refer name identifier use => exact h.refer name identifier use

theorem Follows.follow (h : Follows p t) (as : List Action) :
    Follows (p.follow as) (t.follow (as.map Action.toStep)) := by
  induction as generalizing p t with
  | nil => exact h
  | cons a as ih => exact ih (h.step a)

/-- **What references refer to.** When all scopes have been closed, a reference refers to what the
innermost scope around it answers that can. -/
theorem Follows.target? (h : Follows p t) (hopen : t.sites = []) {i : ReferenceId}
    {x : List ScopeId × Referred NodeId} (hx : t.references[i]? = some x) :
    ∃ r, p.graph.references[i]? = some r ∧
      (r.identifier = x.2.label ∧ r.name = x.2.name ∧ r.use.isType = x.2.isType ∧
        r.use.isInitialization = x.2.isInitial) ∧
      r.target? = x.1.findSome? (p.graph.answerTo? · r.name r.use) := by
  obtain ⟨r, closed, around, hr, hcore, ⟨hx', haround, -⟩, htarget, -⟩ := h.references i x hx
  have hnone : around = [] := by
    rw [h.openScopes, hopen] at haround
    exact List.suffix_nil.mp haround
  rw [hnone, List.append_nil] at hx'
  exact ⟨r, hr, hcore, hx' ▸ htarget⟩

end ScriptAnalysis.Names

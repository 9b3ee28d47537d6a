import ScriptAnalysis.Proofs.Names.Resolution

/-!
# The scope graph of a program

A reference of a scope graph is one that the outline of the program has, and unless it stands in the
header of a function it refers to what the innermost scope around it declares of its name
(`reference_ofTree`).
-/

namespace ScriptAnalysis.Names

open Ast (NodeId Place)
open Scoping

/-! ### Answers -/

section

variable {p : Progress} {t : Trace NodeId} {s : ScopeId} {ds : List (Declared NodeId)}

theorem Trace.mem_declaredIn {name : String} {d : Declared NodeId} :
    d ∈ t.declaredIn s name ↔ (s, d) ∈ t.declarations ∧ d.name = name := by
  rw [Trace.declaredIn, List.mem_map]
  constructor
  · rintro ⟨⟨s', d'⟩, hmem, rfl⟩
    obtain ⟨hmem, hs⟩ := List.mem_filter.mp hmem
    have hs' : s' = s ∧ d'.name = name := of_decide_eq_true hs
    exact ⟨hs'.1 ▸ hmem, hs'.2⟩
  · rintro ⟨hmem, hname⟩
    exact ⟨(s, d), List.mem_filter.mpr ⟨hmem, decide_eq_true ⟨rfl, hname⟩⟩, rfl⟩

/-- The definitions of a name in a scope are what the scope declares as the name. -/
theorem Follows.exists_definition_iff (h : Follows p t) (hds : Trace.Declares t.declarations s ds)
    {name : String} (hname : name ≠ "") (d' : Declared NodeId) :
    (∃ d ∈ p.graph.definitionsIn s name, declaredAs name d = d') ↔ d' ∈ ds ∧ d'.name = name := by
  rw [← List.mem_map, h.definitions, Trace.mem_declaredIn, hds d']
  constructor
  · rintro ⟨⟨-, hmem⟩, hd⟩
    exact ⟨hmem, hd⟩
  · rintro ⟨hmem, hd⟩
    exact ⟨⟨hd ▸ hname, hmem⟩, hd⟩

/-- What a scope answers it declares: the variable is declared where the scope declares its name. -/
theorem Follows.of_answerTo?_eq_some (h : Follows p t) (hds : Trace.Declares t.declarations s ds)
    {r : Referred NodeId} (hname : r.name ≠ "") {use : Use} (huse : use.isType = r.isType)
    {v : VariableId} (hv : p.graph.answerTo? s r.name use = some v) :
    ∃ x, p.graph.vars[v]? = some x ∧ ∃ d ∈ ds, d.answers r = true ∧ d.label ∈ x.identifiers := by
  obtain ⟨x, hx, -, hdefinitions, d, hd, htype⟩ := h.graph.of_answerTo?_eq_some hv
  obtain ⟨hmem, hd'⟩ := (h.exists_definition_iff hds hname _).mp ⟨d, hdefinitions ▸ hd, rfl⟩
  exact ⟨x, hx, _, hmem, Declared.answers_iff.mpr ⟨hd', htype.trans huse⟩,
    List.mem_map_of_mem hd⟩

theorem Follows.of_answerTo?_eq_none (h : Follows p t) (hds : Trace.Declares t.declarations s ds)
    {r : Referred NodeId} (hname : r.name ≠ "") {use : Use} (huse : use.isType = r.isType)
    (hv : p.graph.answerTo? s r.name use = none) : ¬ds.any (·.answers r) = true := by
  rw [List.any_eq_true]
  rintro ⟨d', hmem, hanswers⟩
  obtain ⟨hd', htype⟩ := Declared.answers_iff.mp hanswers
  obtain ⟨d, hd, rfl⟩ := (h.exists_definition_iff hds hname d').mpr ⟨hmem, hd'⟩
  exact h.graph.of_answerTo?_eq_none hv d hd (htype.trans huse.symm)

/-- The innermost scope that answers a reference is the innermost one that declares its name. -/
theorem Follows.findSome?_answerTo? (h : Follows p t) {chain : List ScopeId}
    {around : List (List (Declared NodeId))}
    (haround : List.Forall₂ (Trace.Declares t.declarations) chain around) {r : Referred NodeId}
    (hname : r.name ≠ "") {use : Use} (huse : use.isType = r.isType) :
    (∀ v, chain.findSome? (p.graph.answerTo? · r.name use) = some v →
      ∃ x ds, p.graph.vars[v]? = some x ∧ meaning? around r = some ds ∧
        ∃ d ∈ ds, d.answers r = true ∧ d.label ∈ x.identifiers) ∧
    (chain.findSome? (p.graph.answerTo? · r.name use) = none → meaning? around r = none) := by
  induction haround with
  | nil => exact ⟨by simp, fun _ => rfl⟩
  | @cons s ds chain around hds _ ih =>
    cases hv : p.graph.answerTo? s r.name use with
    | some v =>
      obtain ⟨x, hx, d, hd, hanswers, hlabel⟩ := h.of_answerTo?_eq_some hds hname huse hv
      have hany : ds.any (·.answers r) = true := List.any_eq_true.mpr ⟨d, hd, hanswers⟩
      refine ⟨fun v' hv' => ?_, fun hv' => ?_⟩
      · rw [List.findSome?_cons, hv] at hv'
        cases hv'
        exact ⟨x, ds, hx, meaning?_cons_of_pos hany _, d, hd, hanswers, hlabel⟩
      · rw [List.findSome?_cons, hv] at hv'
        cases hv'
    | none =>
      have hany := h.of_answerTo?_eq_none hds hname huse hv
      rw [List.findSome?_cons, hv, meaning?_cons_of_neg hany]
      exact ih

end

/-! ### Programs -/

/-- The steps before the first statement of a program. -/
def headerTrace (options : Options) (program : NodeId) (body : List (Ast.Node Place)) :
    Trace NodeId :=
  Trace.empty.follow ((Action.ofHeader options program body).map Action.toStep)

/-- Before the first statement nothing but the scopes of the program has been opened. -/
theorem headerTrace_spec (options : Options) (program : NodeId) (body : List (Ast.Node Place)) :
    ∃ site sites, (headerTrace options program body).sites = site :: sites ∧
      site.variableScope = site.id ∧
      (site :: sites).length = (Action.ofHeader options program body).length ∧
      (headerTrace options program body).declarations = [] ∧
      (headerTrace options program body).references = [] := by
  obtain ⟨globalReturn, sourceType⟩ := options
  cases globalReturn <;> cases sourceType <;> exact ⟨_, _, rfl, rfl, rfl, rfl, rfl⟩

theorem follow_replicate_closeScope {α : Type} (t : Trace α) (n : Nat) :
    t.follow (List.replicate n .closeScope) = { t with sites := t.sites.drop n } := by
  induction n generalizing t with
  | zero => rfl
  | succ n ih =>
    rw [List.replicate_succ, Trace.follow_cons, ih]
    show ({ t with sites := t.sites.tail.drop n } : Trace α) = _
    rw [List.drop_tail]

/-- The outline of the statements of a program by the numbers of the names. -/
def outlineOf (t : Ast.Tree) : Outline (Declared NodeId) (Referred NodeId) :=
  (Ast.Node.outlineList t.body).relabel Place.id

theorem map_toStep_ofNodes_body (t : Ast.Tree) :
    (Action.ofNodes t.body).map Action.toStep = (outlineOf t).steps := by
  rw [Ast.Node.map_toStep_ofNodes, outlineOf, Outline.steps_relabel]
  rfl

/-- The steps of a program. -/
theorem follow_ofProgram (options : Options) (t : Ast.Tree) :
    Trace.empty.follow ((Action.ofProgram options t).map Action.toStep) =
      { (headerTrace options t.root.id t.body).visit (outlineOf t) with sites := [] } := by
  obtain ⟨site, sites, hsites, -, hlength, -⟩ := headerTrace_spec options t.root.id t.body
  have hclose : ((Action.ofHeader options t.root.id t.body).map fun _ => Action.closeScope).map
      Action.toStep = List.replicate (site :: sites).length .closeScope := by
    rw [List.map_map, hlength]
    exact List.map_const'
  rw [Action.ofProgram, List.map_append, List.map_append, map_toStep_ofNodes_body, hclose,
    Trace.follow_append, Trace.follow_append, follow_replicate_closeScope]
  have hdrop : ((headerTrace options t.root.id t.body).visit (outlineOf t)).sites.drop
      (site :: sites).length = [] := by
    rw [Trace.sites_visit, hsites, List.drop_length]
  exact congrArg (fun sites => { (headerTrace options t.root.id t.body).visit (outlineOf t) with
    sites }) hdrop

/-- What the scopes of a program declare belongs to the innermost of them. -/
theorem declares_headerTrace {t : Trace NodeId} {site : Site} {sites : List Site} (ht : t.Sound)
    (hsites : t.sites = site :: sites) (hvariableScope : site.variableScope = site.id)
    (hdeclarations : t.declarations = []) (o : Outline (Declared NodeId) (Referred NodeId)) :
    List.Forall₂ (Trace.Declares (t.visit o).declarations) (t.sites.map (·.id))
      (o.own .global :: List.replicate sites.length []) := by
  have hnested := ht.nested
  rw [hsites] at hnested ⊢
  have hmem : ∀ s ∈ (site :: sites).map (·.id), ∀ d, (s, d) ∈ (t.visit o).declarations ↔
      d.name ≠ "" ∧ s = site.id ∧ d ∈ o.own .global := by
    intro s hs d
    rw [Trace.mem_declarations_visit hsites o (hnested.lt hs), hdeclarations, Trace.Lands, hvariableScope,
      ← and_or_left, Outline.own, if_pos (show ScopeType.global.isVariableScope = true from rfl),
      List.mem_append, or_comm (a := d ∈ _)]
    exact or_iff_right List.not_mem_nil
  refine .cons (fun d => ?_) ?_
  · rw [hmem _ List.mem_cons_self]
    exact and_congr_right fun _ => and_iff_right rfl
  · have hout : ∀ s ∈ sites.map (·.id), Trace.Declares (t.visit o).declarations s [] := by
      intro s hs d
      rw [hmem s (List.mem_cons_of_mem _ hs)]
      have hne : s ≠ site.id := Nat.ne_of_lt (hnested.2.2.lt hs)
      simp [hne]
    rw [List.forall₂_iff_get]
    refine ⟨by simp, fun i hi hi' => ?_⟩
    have hget : (List.replicate sites.length ([] : List (Declared NodeId))).get ⟨i, hi'⟩ = [] := by
      simp
    rw [hget]
    exact hout _ (List.get_mem _ _)

/-- **References of a scope graph.** A reference is one of the outline of the program. Unless it stands in
the header of a function, it refers to the variable that the innermost scope around it declares with its
name, and to nothing when there is no such scope. -/
theorem reference_ofTree (options : Options) (t : Ast.Tree) {i : ReferenceId} {r : Reference}
    (hr : (ScopeGraph.ofTree options t).references[i]? = some r) :
    ∃ x : Referred NodeId, (r.identifier = x.label ∧ r.use.isInitialization = x.isInitial) ∧
      (x ∈ (outlineOf t).headerReferences ∨ ∃ around, x.name ≠ "" ∧
        (x, around) ∈ (outlineOf t).occurrences [(outlineOf t).own .global] ∧
          (∀ v, r.target? = some v → ∃ y ds, (ScopeGraph.ofTree options t).vars[v]? = some y ∧
            meaning? around x = some ds ∧
            ∃ d ∈ ds, d.answers x = true ∧ d.label ∈ y.identifiers) ∧
          (r.target? = none → meaning? around x = none)) := by
  obtain ⟨site, sites, hsites, hvariableScope, -, hdeclarations, hreferences⟩ :=
    headerTrace_spec options t.root.id t.body
  have hfollows := (follows_empty options).follow (Action.ofProgram options t)
  rw [follow_ofProgram] at hfollows
  have hsound : (headerTrace options t.root.id t.body).Sound := Trace.sound_empty.follow _
  have hlt : i < ((headerTrace options t.root.id t.body).visit (outlineOf t)).references.length := by
    rw [← hfollows.size_references]
    exact (Array.getElem?_eq_some_iff.mp hr).1
  obtain ⟨⟨chain, x⟩, hx⟩ : ∃ x, ((headerTrace options t.root.id t.body).visit
      (outlineOf t)).references[i]? = some x := ⟨_, List.getElem?_eq_getElem hlt⟩
  obtain ⟨r', hr', ⟨hidentifier, hname, htype, hinitial⟩, htarget⟩ := hfollows.target? rfl hx
  cases hr.symm.trans hr'
  have hdeclares := declares_headerTrace hsound hsites hvariableScope hdeclarations (outlineOf t)
  rcases Trace.references_visit hsound (by rw [hsites]; exact List.cons_ne_nil _ _) (outlineOf t)
    (fun _ _ _ => Iff.rfl) hdeclares (List.mem_of_getElem? hx) with h | h | ⟨around, h, hne, haround⟩
  · rw [hreferences] at h
    exact absurd h List.not_mem_nil
  · exact ⟨x, ⟨hidentifier, hinitial⟩, .inl h⟩
  · -- the scopes outside the innermost one of the program declare nothing
    have hscopes : (outlineOf t).own .global :: List.replicate sites.length [] =
        [(outlineOf t).own .global] ++ List.replicate sites.length [] := rfl
    rw [hscopes, Outline.occurrences_append_scopes, List.mem_map] at h
    obtain ⟨⟨x', around'⟩, hmem, heq⟩ := h
    obtain ⟨rfl, rfl⟩ := Prod.mk.inj heq
    obtain ⟨hsome, hnone⟩ := hfollows.findSome?_answerTo? haround hne htype
    rw [hname] at htarget
    refine ⟨x', ⟨hidentifier, hinitial⟩, .inr ⟨around', hne, hmem, ?_, ?_⟩⟩
    · intro v hv
      obtain ⟨y, ds, hy, hmeaning, hds⟩ := hsome v (htarget.symm.trans hv)
      rw [meaning?_append_replicate] at hmeaning
      exact ⟨y, ds, hy, hmeaning, hds⟩
    · intro hv
      have hmeaning := hnone (htarget.symm.trans hv)
      rwa [meaning?_append_replicate] at hmeaning

end ScriptAnalysis.Names

import ScriptAnalysis.Proofs.Scoping.Coherence
import ScriptAnalysis.Proofs.Scoping.FunctionHeaders

/-!
# References from the headers of functions

A function has one scope for its header and its body, and references wait until that scope is closed. So a
reference from the header of a function can mean what only the body declares. `LooksUpFromHeader` says when it
does: when the body declares the name as what is referred to, no parameter has the name, and no scope between
the reference and the function answers it.

A reference from the header is made in a known part of the walk (`MadeIn`), so it stands inside the scope that
is opened there, and what that scope declares is what the outlines of the header and of the body say.
-/

namespace ScriptAnalysis

open Ast (NodeId Node Place FunctionParts)
open Scoping

/-! ### Traces -/

namespace Names.Trace

variable {α : Type} {t : Trace α}

/-- A step notes a reference only where one is made. -/
theorem mem_references_step {a : Step α} {x : List ScopeId × Referred α} (hx : x ∈ (t.step a).references) :
    x ∈ t.references ∨ a = .refer x.2 := by
  unfold step at hx
  cases a with
  | openScope type | closeScope => exact .inl hx
  | declare isHoisted d =>
    cases h : t.sites with
    | nil => simpa [h] using hx
    | cons site sites => exact .inl (by simpa [h] using hx)
  | refer r =>
    cases h : t.sites with
    | nil => exact .inl (by simpa [h] using hx)
    | cons site sites =>
      rw [h] at hx
      rcases List.mem_append.mp hx with hx | hx
      · exact .inl hx
      · rw [List.mem_singleton.mp hx]
        exact .inr rfl

/-- What has been noted as a reference at the end was made on the way. -/
theorem mem_references_follow {as : List (Step α)} {x : List ScopeId × Referred α}
    (hx : x ∈ (t.follow as).references) : x ∈ t.references ∨ .refer x.2 ∈ as := by
  induction as generalizing t with
  | nil => exact .inl hx
  | cons a as ih =>
    rcases ih hx with hx | hx
    · refine (mem_references_step hx).imp_right ?_
      rintro rfl
      exact List.mem_cons_self
    · exact .inr (List.mem_cons_of_mem _ hx)

/-- A missing name refers to nothing. -/
theorem name_ne_of_mem_steps {o : Outline (Declared α) (Referred α)} {r : Referred α} (h : .refer r ∈ o.steps) :
    r.name ≠ "" := by
  induction o with
  | done => simp [Outline.steps] at h
  | declare isHoisted d rest ih =>
    rw [Outline.steps, List.mem_append] at h
    refine h.elim (fun h => ?_) ih
    split at h <;> simp at h
  | refer r' rest ih =>
    rw [Outline.steps, List.mem_append] at h
    refine h.elim (fun h => ?_) ih
    split at h
    · cases h
    · rwa [Step.refer.inj (List.mem_singleton.mp h)]
  | scope type header body rest ihHeader ihBody ih =>
    simp only [Outline.steps, List.mem_cons, List.mem_append, reduceCtorEq, false_or] at h
    exact h.elim ihHeader (·.elim ihBody ih)

/-- The references of an outline stand inside the scopes that are open around it. -/
theorem suffix_of_mem_visit {o : Outline (Declared α) (Referred α)} {x : List ScopeId × Referred α}
    (hx : x ∈ (t.visit o).references) : x ∈ t.references ∨ t.sites.map (·.id) <:+ x.1 := by
  induction o generalizing t with
  | done => exact .inl hx
  | declare isHoisted d rest ih =>
    rw [visit_declare] at hx
    split at hx
    · exact ih hx
    · rcases ih hx with hx | hx
      · exact .inl ((mem_references_step hx).resolve_right fun h => nomatch h)
      · exact .inr (by rwa [sites_step_declare] at hx)
  | refer r rest ih =>
    rw [visit_refer] at hx
    split at hx
    · exact ih hx
    · rcases ih hx with hx | hx
      · unfold step at hx
        cases h : t.sites with
        | nil => exact .inl (by simpa [h] using hx)
        | cons site sites =>
          rw [h] at hx
          rcases List.mem_append.mp hx with hx | hx
          · exact .inl hx
          · rw [List.mem_singleton.mp hx]
            exact .inr (List.suffix_refl _)
      · exact .inr (by rwa [sites_step_refer] at hx)
  | scope type header body rest ihHeader ihBody ih =>
    rw [visit_scope] at hx
    have hinside : ∀ {u : Trace α}, u.sites.map (·.id) = (t.step (.openScope type)).sites.map (·.id) →
        u.sites.map (·.id) <:+ x.1 → t.sites.map (·.id) <:+ x.1 := fun hu h =>
      (List.suffix_cons _ _).trans (hu ▸ h)
    rcases ih hx with hx | hx
    · rcases ihBody hx with hx | hx
      · rcases ihHeader hx with hx | hx
        · exact .inl hx
        · exact .inr (hinside rfl hx)
      · exact .inr (hinside (by rw [sites_visit]) hx)
    · refine .inr ?_
      have hsites : ((((t.step (.openScope type)).visit header).visit body).step .closeScope).sites = t.sites := by
        show (((t.step (.openScope type)).visit header).visit body).sites.tail = _
        rw [sites_visit, sites_visit]
        rfl
      rwa [hsites] at hx

/-- A step declares nothing in a scope that has been closed. -/
theorem mem_declarations_step_of_closed (ht : t.Sound) (a : Step α) {s : ScopeId}
    (hs : s ∉ t.sites.map (·.id)) (d : Declared α) : (s, d) ∈ (t.step a).declarations ↔ (s, d) ∈ t.declarations := by
  cases a with
  | openScope type | closeScope => rfl
  | refer r =>
    unfold step
    cases t.sites <;> rfl
  | declare isHoisted d' =>
    cases hsites : t.sites with
    | nil => simp [step, hsites]
    | cons site sites =>
      have hnested := ht.nested
      rw [hsites] at hs hnested
      have hne : s ≠ if isHoisted then site.variableScope else site.id := by
        rintro rfl
        split at hs
        · exact hs hnested.2.1
        · exact hs List.mem_cons_self
      simp [step, hsites, hne]

/-- Nothing is declared any more in a scope that has been closed. -/
theorem mem_declarations_follow_of_closed (ht : t.Sound) (as : List (Step α)) {s : ScopeId} (hs : s < t.count)
    (hclosed : s ∉ t.sites.map (·.id)) (d : Declared α) :
    (s, d) ∈ (t.follow as).declarations ↔ (s, d) ∈ t.declarations := by
  induction as generalizing t with
  | nil => rfl
  | cons a as ih =>
    have hcount : s < (t.step a).count ∧ s ∉ (t.step a).sites.map (·.id) := by
      cases a with
      | openScope type =>
        refine ⟨Nat.lt_succ_of_lt hs, fun hmem => ?_⟩
        have hmem : s ∈ t.count :: t.sites.map (·.id) := hmem
        exact (List.mem_cons.mp hmem).elim (Nat.ne_of_lt hs) hclosed
      | closeScope =>
        refine ⟨hs, fun hmem => hclosed ?_⟩
        obtain ⟨site, hsite, rfl⟩ := List.mem_map.mp hmem
        exact List.mem_map_of_mem (List.mem_of_mem_tail hsite)
      | declare isHoisted d' => simpa using ⟨hs, by simpa using hclosed⟩
      | refer r => simpa using ⟨hs, by simpa using hclosed⟩
    rw [follow_cons, ih (ht.step a) hcount.1 hcount.2, mem_declarations_step_of_closed ht a hclosed]

/-- What the header and the body of a function declare is what the scope of the function gets. -/
theorem declares_function (ht : t.Sound) (header body : Outline (Declared α) (Referred α)) (as : List (Step α)) :
    Declares (((((t.step (.openScope .function)).visit header).visit body).step .closeScope).follow as).declarations
      t.count (header.own .function ++ body.own .function) := by
  intro d
  have hopened : (t.step (.openScope .function)).sites = t.nextSite .function :: t.sites := rfl
  have hentered : ((t.step (.openScope .function)).visit header).sites = t.nextSite .function :: t.sites :=
    sites_visit ..
  have hlt : t.count < ((t.step (.openScope .function)).visit header).count :=
    Nat.lt_of_lt_of_le (Nat.lt_succ_self _) (count_le_visit (t.step (.openScope .function)) header)
  have hleft : ((((t.step (.openScope .function)).visit header).visit body).step .closeScope).sites = t.sites := by
    show (((t.step (.openScope .function)).visit header).visit body).sites.tail = _
    rw [sites_visit, hentered]
    rfl
  have hlands : ∀ o : Outline (Declared α) (Referred α),
      Lands (t.nextSite .function) o t.count d ↔ d ∈ o.own .function := by
    intro o
    simp [Lands, nextSite, Outline.own, ScopeType.isVariableScope, or_comm]
  have hnew : (t.count, d) ∉ (t.step (.openScope .function)).declarations :=
    fun hmem => Nat.lt_irrefl _ (ht.declarations _ hmem)
  rw [mem_declarations_follow_of_closed ((((ht.step _).visit header).visit body).step _) as
    (Nat.lt_of_lt_of_le hlt (count_le_visit ..)) (fun hmem => Nat.lt_irrefl _ (ht.nested.lt (hleft ▸ hmem)))]
  show (t.count, d) ∈ (((t.step (.openScope .function)).visit header).visit body).declarations ↔ _
  rw [mem_declarations_visit hentered body hlt, mem_declarations_visit hopened header (Nat.lt_succ_self _),
    hlands, hlands, List.mem_append]
  simp only [hnew, false_or, and_or_left]

end Names.Trace

/-! ### Where a reference is made -/

namespace Scoping

variable {f : Node Place} {parts : FunctionParts (Node Place)} {as bs : List Action} {t : Names.Trace NodeId}
  {x : List ScopeId × Names.Referred NodeId}

/-- A reference is made by the actions of the header of a function, somewhere in a walk. -/
def MadeIn (f : Node Place) (parts : FunctionParts (Node Place)) (t : Names.Trace NodeId) (as : List Action)
    (x : List ScopeId × Names.Referred NodeId) : Prop :=
  ∃ before startsStrict after, as = before ++ .openScope .function f.id startsStrict ::
      (headerActions f parts ++ (Action.ofBody parts.body ++ .closeScope :: after)) ∧
    x ∉ (t.follow (before.map Action.toStep)).references ∧
    x ∈ (((t.follow (before.map Action.toStep)).step (.openScope .function)).follow
      ((headerActions f parts).map Action.toStep)).references

theorem MadeIn.append_left (as : List Action) (h : MadeIn f parts (t.follow (as.map Action.toStep)) bs x) :
    MadeIn f parts t (as ++ bs) x := by
  obtain ⟨before, startsStrict, after, rfl, hnew, hmade⟩ := h
  refine ⟨as ++ before, startsStrict, after, (List.append_assoc ..).symm, ?_, ?_⟩
  · rwa [List.map_append, Names.Trace.follow_append]
  · rwa [List.map_append, Names.Trace.follow_append]

theorem MadeIn.append_right (h : MadeIn f parts t as x) (bs : List Action) : MadeIn f parts t (as ++ bs) x := by
  obtain ⟨before, startsStrict, after, rfl, hmade⟩ := h
  exact ⟨before, startsStrict, after ++ bs, by simp, hmade⟩

/-- Of framed actions, only those of the header refer to names of the header. -/
theorem Framed.madeIn (has : Framed f parts as) (hi : f.InHeader x.2.label)
    (hx : x ∈ (t.follow (as.map Action.toStep)).references) : x ∈ t.references ∨ MadeIn f parts t as x := by
  have hcons : ∀ {t : Names.Trace NodeId} {a : Action} {as : List Action}, a.toStep ≠ .refer x.2 →
      x ∈ (t.step a.toStep).references ∨ MadeIn f parts (t.step a.toStep) as x →
      x ∈ t.references ∨ MadeIn f parts t (a :: as) x := by
    intro t a as ha h
    refine h.imp (fun hx => (Names.Trace.mem_references_step hx).resolve_right ha) fun h => ?_
    exact MadeIn.append_left [a] h
  induction has generalizing t with
  | nil => exact .inl hx
  | define isHoisted name d _ ih => exact hcons (fun h => nomatch h) (ih hx)
  | refer name use hout _ ih =>
    refine hcons (fun h => hout ?_) (ih hx)
    rw [← Names.Step.refer.inj h] at hi
    exact hi
  | @scope type block startsStrict as bs _ _ ihas ihbs =>
    rw [List.map_cons, List.map_append, List.map_cons, Names.Trace.follow_cons, Names.Trace.follow_append,
      Names.Trace.follow_cons] at hx
    refine hcons (fun h => nomatch h) ?_
    rcases ihbs hx with hx | h
    · exact (ihas hx).imp_right fun h => h.append_right _
    · refine .inr (MadeIn.append_left _ ?_)
      exact MadeIn.append_left [.closeScope] h
  | @function startsStrict bs _ _ ihbody ihbs =>
    rw [List.map_cons, List.map_append, List.map_append, List.map_cons, Names.Trace.follow_cons,
      Names.Trace.follow_append, Names.Trace.follow_append, Names.Trace.follow_cons] at hx
    rcases ihbs hx with hx | h
    · rcases ihbody hx with hx | h
      · by_cases hold : x ∈ t.references
        · exact .inl hold
        · exact .inr ⟨[], startsStrict, bs, rfl, hold, hx⟩
      · refine .inr (MadeIn.append_left [.openScope .function f.id startsStrict] ?_)
        exact MadeIn.append_left _ (h.append_right _)
    · refine .inr (MadeIn.append_left [.openScope .function f.id startsStrict] (MadeIn.append_left _
        (MadeIn.append_left _ ?_)))
      exact MadeIn.append_left [.closeScope] h

/-- The scopes opened in a walk are counted. -/
theorem count_follow (as : List Action) (t : Names.Trace NodeId) :
    (t.follow (as.map Action.toStep)).count = t.count + (openedBlocks as).length := by
  induction as generalizing t with
  | nil => rfl
  | cons a as ih =>
    rw [List.map_cons, Names.Trace.follow_cons, ih]
    cases a with
    | openScope type block startsStrict =>
      rw [openedBlocks_openScope, List.length_cons]
      exact Nat.add_right_comm t.count 1 _
    | closeScope => rfl
    | define isHoisted name d =>
      rw [Action.toStep, Names.Trace.count_step_declare]
      rfl
    | refer name identifier use =>
      rw [Action.toStep, Names.Trace.count_step_refer]
      rfl

end Scoping

/-! ### The outlines of a function -/

namespace Ast.FunctionParts

open Names

variable {α : Type}

/-- The outline of the header of a function. -/
def outlineHeader (parts : FunctionParts (Node α)) : Outline (Declared α) (Referred α) :=
  Node.outlineParams parts.params ++ Node.outlineType? parts.returnType?

/-- The outline of the body of a function. -/
def outlineBody (parts : FunctionParts (Node α)) : Outline (Declared α) (Referred α) := parts.body.outlineBody

/-- What holds of all labels of nodes holds of the label of every name that their outline declares. -/
theorem of_relabel_own {P : α → Prop} {o : Outline (Declared α) (Referred α)}
    (h : o.relabel P = o.relabel fun _ => True) {type : ScopeType} {d : Declared α} (hd : d ∈ o.own type) :
    P d.label := by
  have hmap : (o.own type).map (·.map P) = (o.own type).map (·.map fun _ => True) := by
    rw [Outline.relabel, Outline.relabel] at h
    rw [← Outline.own_map, h, Outline.own_map]
  exact of_eq_true (congrArg Declared.label (List.map_inj_left.mp hmap d hd))

variable {f : Node Place} {parts : FunctionParts (Node Place)}

/-- What the header of a function declares has its names in the header. -/
theorem inHeader_of_mem_own (hparts : f.kind.function? = some parts) {type : ScopeType} {d : Declared Place}
    (hd : d ∈ parts.outlineHeader.own type) : f.InHeader d.label.id := by
  have hlabel : ∀ part ∈ parts.params ++ parts.returnType?.toList, ∀ l ∈ part.labels, f.InHeader l.id := by
    intro part hpart l hl
    obtain ⟨m, hm, rfl⟩ := List.mem_map.mp hl
    exact ⟨part, Kind.header_eq hparts ▸ hpart, m, hm, rfl⟩
  refine of_relabel_own (P := fun l => f.InHeader l.id) ?_ hd
  rw [outlineHeader, Outline.relabel_append, Outline.relabel_append, ← Node.outlineParams_map,
    ← Node.outlineParams_map, ← Node.outlineType?_map, ← Node.outlineType?_map]
  congr 2
  · exact List.map_congr_left fun n hn => Node.map_congr fun l hl =>
      eq_true (hlabel n (List.mem_append_left _ hn) l hl)
  · exact Option.map_congr fun n hn => Node.map_congr fun l hl =>
      eq_true (hlabel n (List.mem_append_right _ (Option.mem_toList.mpr hn)) l hl)

/-- What the body of a function declares has its names in the body. -/
theorem inBody_of_mem_own (hparts : f.kind.function? = some parts) {type : ScopeType} {d : Declared Place}
    (hd : d ∈ parts.outlineBody.own type) : f.InBody d.label.id := by
  refine of_relabel_own (P := fun l => f.InBody l.id) ?_ hd
  rw [outlineBody, ← Node.outlineBody_map_of _ (Node.outline_map _ _),
    ← Node.outlineBody_map_of _ (Node.outline_map _ _)]
  congr 1
  refine Node.map_congr fun l hl => eq_true ?_
  obtain ⟨m, hm, rfl⟩ := List.mem_map.mp hl
  exact ⟨parts, hparts, m, hm, rfl⟩

theorem map_toStep_headerActions (f : Node Place) (parts : FunctionParts (Node Place)) :
    (headerActions f parts).map Action.toStep = (parts.outlineHeader.relabel Place.id).steps := by
  rw [headerActions, List.map_append, Node.map_toStep_ofParams, Node.map_toStep_ofType?, ← Node.stepsOf_append,
    Outline.steps_relabel]
  rfl

theorem map_toStep_ofBody_body (parts : FunctionParts (Node Place)) :
    (Action.ofBody parts.body).map Action.toStep = (parts.outlineBody.relabel Place.id).steps := by
  rw [Node.map_toStep_ofBody, Outline.steps_relabel]
  rfl

end Ast.FunctionParts

/-! ### The scope of a function -/

namespace Scoping

open Names

variable {t : Ast.Tree} {f : Node Place} {parts : FunctionParts (Node Place)}

theorem ScopeGraph.scopesOf_eq_singleton {g : ScopeGraph} {s : ScopeId} {b : NodeId} (hs : g.blocks[s]? = some b)
    (hall : ∀ s' : ScopeId, g.blocks[s']? = some b → s' = s) : g.scopesOf b = [s] := by
  have hlt : s < g.scopes.size := g.length_blocks ▸ (List.getElem?_eq_some_iff.mp hs).1
  have hmem : ∀ s', s' ∈ g.scopesOf b ↔ s' = s := by
    intro s'
    rw [ScopeGraph.scopesOf, List.mem_filter, List.mem_range, beq_iff_eq, ← g.getElem?_blocks]
    refine ⟨fun h => hall s' h.2, ?_⟩
    rintro rfl
    exact ⟨hlt, hs⟩
  have hnodup : (g.scopesOf b).Nodup := List.nodup_range.filter _
  refine List.perm_singleton.mp ((List.perm_ext_iff_of_nodup hnodup (List.nodup_singleton s)).mpr fun s' => ?_)
  rw [hmem, List.mem_singleton]

/-- A function opens one scope when it is walked. -/
theorem scopesOf_function (ht : t.Indexed) (options : Options) (hf : f ∈ t.root.nodes)
    (hparts : f.kind.function? = some parts) {before after : List Action} {startsStrict : Bool}
    (has : Action.ofNodes t.body = before ++ .openScope .function f.id startsStrict :: after) :
    (ScopeGraph.ofTree options t).scopesOf f.id =
      [((headerTrace options t.root.id t.body).follow (before.map Action.toStep)).count] := by
  obtain ⟨last, -, hblocks⟩ := located_ofTree ht options
  have hne : f.id ≠ t.root.id := by
    intro hid
    have hroot : f = t.root := Option.some.inj (by
      rw [← ht.node?_id hf, hid, ht.node?_id t.root.mem_nodes_self])
    rw [hroot, ht.program] at hparts
    cases hparts
  have hcount : ((headerTrace options t.root.id t.body).follow (before.map Action.toStep)).count =
      (openedBlocks (Action.ofHeader options t.root.id t.body ++ before)).length := by
    rw [headerTrace, count_follow, count_follow, openedBlocks_append, List.length_append]
    exact congrArg (· + _) (Nat.zero_add _)
  have hblock : (ScopeGraph.ofTree options t).blocks[(openedBlocks
      (Action.ofHeader options t.root.id t.body ++ before)).length]? = some f.id := by
    rw [ScopeGraph.ofTree, Action.ofProgram, Progress.blocks_follow, has, List.append_assoc, ← List.append_assoc,
      openedBlocks_append, List.cons_append, openedBlocks_openScope]
    exact List.getElem?_append_right (Nat.le_refl _) |>.trans (by simp)
  rw [hcount]
  refine ScopeGraph.scopesOf_eq_singleton hblock fun s' hs' => ?_
  rw [hblocks] at hs' hblock
  exact eq_of_getElem?_replicate_append (List.nodup_cons.mp (nodup_openedBlocks_body ht)).2 hne hs' hblock

/-- A reference from the header of a function stands inside the scope of the function, and this scope declares
what the header and the body declare. -/
theorem exists_scope_of_inHeader (ht : t.Indexed) (options : Options) (hf : f ∈ t.root.nodes)
    (hparts : f.kind.function? = some parts) {x : List ScopeId × Referred NodeId}
    (hx : x ∈ ((headerTrace options t.root.id t.body).visit (outlineOf t)).references)
    (hi : f.InHeader x.2.label) :
    ∃ s inner outer, (ScopeGraph.ofTree options t).scopesOf f.id = [s] ∧ x.1 = inner ++ s :: outer ∧
      Trace.Declares ((headerTrace options t.root.id t.body).visit (outlineOf t)).declarations s
        ((parts.outlineHeader.own .function ++ parts.outlineBody.own .function).map (·.map Place.id)) := by
  have hsteps : (headerTrace options t.root.id t.body).visit (outlineOf t) =
      (headerTrace options t.root.id t.body).follow ((Action.ofNodes t.body).map Action.toStep) := by
    rw [map_toStep_ofNodes_body]
    rfl
  obtain ⟨-, -, -, -, -, -, hreferences⟩ := headerTrace_spec options t.root.id t.body
  have hsound : (headerTrace options t.root.id t.body).Sound := Trace.sound_empty.follow _
  rw [hsteps] at hx ⊢
  rcases (framed_body ht hf hparts).madeIn hi hx with hx | ⟨before, startsStrict, after, has, hnew, hmade⟩
  · rw [hreferences] at hx
    exact absurd hx List.not_mem_nil
  have hopened := hsound.follow (before.map Action.toStep)
  have hscopes := scopesOf_function ht options hf hparts has
  rw [FunctionParts.map_toStep_headerActions] at hmade
  rw [has, List.map_append, Trace.follow_append, List.map_cons, Trace.follow_cons, List.map_append,
    Trace.follow_append, List.map_append, Trace.follow_append, FunctionParts.map_toStep_headerActions,
    FunctionParts.map_toStep_ofBody_body]
  generalize (headerTrace options t.root.id t.body).follow (before.map Action.toStep) = u at *
  rcases Trace.suffix_of_mem_visit hmade with h | ⟨inner, h⟩
  · exact absurd h hnew
  · refine ⟨u.count, inner, u.sites.map Site.id, hscopes, h.symm, ?_⟩
    have hdeclares := Trace.declares_function hopened (parts.outlineHeader.relabel Place.id)
      (parts.outlineBody.relabel Place.id) (after.map Action.toStep)
    rwa [Outline.relabel, Outline.relabel, Outline.own_map, Outline.own_map, ← List.map_append] at hdeclares

/-! ### What a reference from a header means -/

/-- The scopes around a scope come before it. -/
theorem ScopeGraph.Upward.pairwise_chain {g : ScopeGraph} (h : g.Upward) {s : ScopeId} (hs : s < g.scopes.size) :
    (g.chain s).Pairwise (· > ·) ∧ ∀ s' ∈ g.chain s, s' ≤ s := by
  induction s using Nat.strongRecOn with
  | ind s ih =>
    rw [h.chain_eq hs]
    cases hu : g.upperOf? s with
    | none => simp
    | some u =>
      have hlt := h s u hu
      obtain ⟨hpairwise, hle⟩ := ih u hlt (Nat.lt_trans hlt hs)
      rw [Option.elim_some, List.pairwise_cons, List.forall_mem_cons]
      exact ⟨⟨fun s' hs' => Nat.lt_of_le_of_lt (hle s' hs') hlt, hpairwise⟩, Nat.le_refl _,
        fun s' hs' => Nat.le_of_lt (Nat.lt_of_le_of_lt (hle s' hs') hlt)⟩

/-- A reference refers to a variable of the scope of a function that is declared nowhere but in its body. -/
def ScopeGraph.RefersIntoBody (g : ScopeGraph) (f : Node Place) (r : Reference) : Prop :=
  ∃ v, r.target? = some v ∧ ∃ x, g.vars[v]? = some x ∧ x.scope ∈ g.scopesOf f.id ∧
    ∀ d ∈ x.definitions, f.InBody d.name

instance (g : ScopeGraph) (f : Node Place) (r : Reference) : Decidable (g.RefersIntoBody f r) :=
  inferInstanceAs (Decidable (∃ v, r.target? = some v ∧ ∃ x, g.vars[v]? = some x ∧ x.scope ∈ g.scopesOf f.id ∧
    ∀ d ∈ x.definitions, f.InBody d.name))

/-- What a reference from the header of a function finds. It stands inside the one scope of the function. It
refers to a variable of that scope that only the body declares just in case the body declares its name as what
it refers to, the header does not declare the name, and no scope between answers it. -/
def ScopeGraph.LooksUpFromHeader (g : ScopeGraph) (f : Node Place) (parts : FunctionParts (Node Place))
    (r : Reference) : Prop :=
  ∃ s inner outer, g.scopesOf f.id = [s] ∧ g.chain r.scope = inner ++ s :: outer ∧
    (g.RefersIntoBody f r ↔
      (∃ d ∈ parts.outlineBody.own .function, d.name = r.name ∧ d.isType = r.use.isType) ∧
      (∀ d ∈ parts.outlineHeader.own .function, d.name ≠ r.name) ∧
      ∀ s' ∈ inner, ∀ v, ¬ g.Answers s' r v)

/-- The definitions of a variable are those of its name in its scope. -/
theorem ScopeGraph.Named.definitionsIn_eq {g : ScopeGraph} (h : g.Named) (hg : g.Sound) {s : ScopeId}
    {r : Reference} {v : VariableId} (hv : g.Answers s r v) :
    ∃ x, g.vars[v]? = some x ∧ x.scope = s ∧ g.definitionsIn s r.name = x.definitions ∧
      ∃ d ∈ x.definitions, d.isType = r.use.isType := by
  have hanswer := (h.answerTo?_eq_some_iff hg).mpr hv
  obtain ⟨x, hx, -, hdefinitions, hd⟩ := hg.of_answerTo?_eq_some hanswer
  obtain ⟨y, hy, hscope⟩ := hg.of_answerTo? hanswer
  cases hx.symm.trans hy
  exact ⟨x, hx, hscope, hdefinitions, hd⟩

/-- A chain leads to a scope in one way. -/
theorem ScopeGraph.Upward.inner_eq {g : ScopeGraph} (h : g.Upward) {s s' : ScopeId} (hs : s < g.scopes.size)
    {inner inner' outer outer' : List ScopeId} (hchain : g.chain s = inner ++ s' :: outer)
    (hchain' : g.chain s = inner' ++ s' :: outer') : inner' = inner := by
  have hpairwise := (h.pairwise_chain hs).1
  rw [hchain] at hpairwise hchain'
  obtain ⟨-, houter, hlt⟩ := List.pairwise_append.mp hpairwise
  refine ((List.append_cons_inj_of_notMem (fun h => ?_) fun h => ?_).mp hchain').1.symm
  · exact Nat.lt_irrefl _ (hlt s' h s' List.mem_cons_self)
  · exact Nat.lt_irrefl _ ((List.pairwise_cons.mp houter).1 s' h)

/-- A reference from inside the scope of a function, whose definitions of the name are those of the header and
of the body. -/
structure ScopeGraph.Inside (g : ScopeGraph) (f : Node Place) (parts : FunctionParts (Node Place)) (r : Reference)
    (s : ScopeId) (inner outer : List ScopeId) : Prop where
  lt : r.scope < g.scopes.size
  scopesOf : g.scopesOf f.id = [s]
  chain : g.chain r.scope = inner ++ s :: outer
  definitions : ∀ d', (∃ d ∈ g.definitionsIn s r.name, declaredAs r.name d = d') ↔
    d' ∈ (parts.outlineHeader.own .function ++ parts.outlineBody.own .function).map (·.map Place.id) ∧
      d'.name = r.name

namespace ScopeGraph.Inside

variable {g : ScopeGraph} {r : Reference} {s : ScopeId} {inner outer : List ScopeId}

/-- A definition of the name comes from the header or from the body. -/
theorem exists_declared (h : g.Inside f parts r s inner outer) {d : Definition} (hd : d ∈ g.definitionsIn s r.name) :
    ∃ e ∈ parts.outlineHeader.own .function ++ parts.outlineBody.own .function,
      e.label.id = d.name ∧ e.name = r.name ∧ e.isType = d.isType := by
  obtain ⟨hmem, -⟩ := (h.definitions _).mp ⟨d, hd, rfl⟩
  obtain ⟨e, he, hmap⟩ := List.mem_map.mp hmem
  exact ⟨e, he, congrArg Declared.label hmap, congrArg Declared.name hmap, congrArg Declared.isType hmap⟩

/-- What the header or the body declares under the name defines it. -/
theorem exists_definition (h : g.Inside f parts r s inner outer) {e : Declared Place}
    (he : e ∈ parts.outlineHeader.own .function ++ parts.outlineBody.own .function) (hname : e.name = r.name) :
    ∃ d ∈ g.definitionsIn s r.name, d.name = e.label.id ∧ d.isType = e.isType := by
  obtain ⟨d, hd, hmap⟩ := (h.definitions (e.map Place.id)).mpr ⟨List.mem_map_of_mem he, hname⟩
  exact ⟨d, hd, congrArg Declared.label hmap, congrArg Declared.isType hmap⟩

section

variable {i : ReferenceId} (h : g.Inside f parts r s inner outer) (hlooksUp : g.LooksUp i r) (hnamed : g.Named)
  (hsound : g.Sound)

include h hlooksUp hnamed hsound

theorem of_refersIntoBody (hheader : ∀ e ∈ parts.outlineHeader.own .function, ¬ f.InBody e.label.id)
    (hupward : g.Upward) (hrefers : g.RefersIntoBody f r) :
    (∃ d ∈ parts.outlineBody.own .function, d.name = r.name ∧ d.isType = r.use.isType) ∧
      (∀ d ∈ parts.outlineHeader.own .function, d.name ≠ r.name) ∧ ∀ s' ∈ inner, ∀ v, ¬ g.Answers s' r v := by
  obtain ⟨v, hv, y, hy, hys, hdefinitions⟩ := hrefers
  obtain ⟨inner', s', outer', hchain', hanswers, hinner⟩ := (hlooksUp.target v).mp hv
  obtain ⟨z, hz, hzs, hdefs, d, hd, hdtype⟩ := hnamed.definitionsIn_eq hsound hanswers
  cases hy.symm.trans hz
  obtain rfl : s' = s := hzs.symm.trans (List.mem_singleton.mp (h.scopesOf ▸ hys))
  obtain rfl := hupward.inner_eq h.lt h.chain hchain'
  refine ⟨?_, fun e he hename => ?_, hinner⟩
  · obtain ⟨e, he, hlabel, hename, hetype⟩ := h.exists_declared (hdefs ▸ hd)
    rcases List.mem_append.mp he with he | he
    · exact absurd (hlabel ▸ hdefinitions d hd) (hheader e he)
    · exact ⟨e, he, hename, hetype.trans hdtype⟩
  · obtain ⟨d, hd, hlabel, -⟩ := h.exists_definition (List.mem_append_left _ he) hename
    exact hheader e he (hlabel ▸ hdefinitions d (hdefs ▸ hd))

theorem refersIntoBody (hbody : ∀ e ∈ parts.outlineBody.own .function, f.InBody e.label.id) {e : Declared Place}
    (he : e ∈ parts.outlineBody.own .function) (hename : e.name = r.name) (hetype : e.isType = r.use.isType)
    (hnone : ∀ d ∈ parts.outlineHeader.own .function, d.name ≠ r.name)
    (hinner : ∀ s' ∈ inner, ∀ v, ¬ g.Answers s' r v) : g.RefersIntoBody f r := by
  obtain ⟨d, hd, -, hdtype⟩ := h.exists_definition (List.mem_append_right _ he) hename
  have hsome : g.answerTo? s r.name r.use ≠ none := fun hnone =>
    hsound.of_answerTo?_eq_none hnone d hd (hdtype.trans hetype)
  obtain ⟨v, hv⟩ := Option.ne_none_iff_exists'.mp hsome
  have hanswers := (hnamed.answerTo?_eq_some_iff hsound).mp hv
  obtain ⟨y, hy, hys, hdefs, -⟩ := hnamed.definitionsIn_eq hsound hanswers
  refine ⟨v, (hlooksUp.target v).mpr ⟨inner, s, outer, h.chain, hanswers, hinner⟩, y, hy, ?_, fun d' hd' => ?_⟩
  · rw [h.scopesOf, hys]
    exact List.mem_singleton_self s
  · obtain ⟨e', he', hlabel, hename', -⟩ := h.exists_declared (hdefs ▸ hd')
    rcases List.mem_append.mp he' with he' | he'
    · exact absurd hename' (hnone e' he')
    · exact hlabel ▸ hbody e' he'

end

end ScopeGraph.Inside

/-- A reference from the header of a function stands inside the scope of the function. -/
theorem exists_inside_ofTree (ht : t.Indexed) (options : Options) (hf : f ∈ t.root.nodes)
    (hparts : f.kind.function? = some parts) {i : ReferenceId} {r : Reference}
    (hr : (ScopeGraph.ofTree options t).references[i]? = some r) (hi : f.InHeader r.identifier) :
    ∃ s inner outer, (ScopeGraph.ofTree options t).Inside f parts r s inner outer := by
  have hpasses := (passes_empty options).follow (Action.ofProgram options t)
  rw [follow_ofProgram] at hpasses
  -- the reference in the trace of the walk
  have hlt : i < ((headerTrace options t.root.id t.body).visit (outlineOf t)).references.length := by
    rw [← hpasses.follows.size_references]
    exact (Array.getElem?_eq_some_iff.mp hr).1
  obtain ⟨x, hx⟩ : ∃ x, ((headerTrace options t.root.id t.body).visit (outlineOf t)).references[i]? = some x :=
    ⟨_, List.getElem?_eq_getElem hlt⟩
  have hmem := List.mem_of_getElem? hx
  obtain ⟨r₁, hr₁, ⟨hidentifier, hname, -, -⟩, -⟩ := hpasses.follows.target? rfl hx
  cases hr.symm.trans hr₁
  obtain ⟨r₂, hr₂, hscope, hchain⟩ := hpasses.chain i x hx
  cases hr.symm.trans hr₂
  have hne : r.name ≠ "" := by
    obtain ⟨-, -, -, -, -, -, hreferences⟩ := headerTrace_spec options t.root.id t.body
    rcases Trace.mem_references_follow hmem with hmem | hmem
    · rw [hreferences] at hmem
      exact absurd hmem List.not_mem_nil
    · exact hname ▸ Trace.name_ne_of_mem_steps hmem
  obtain ⟨s, inner, outer, hscopes, hx₁, hdeclares⟩ :=
    exists_scope_of_inHeader ht options hf hparts hmem (hidentifier ▸ hi)
  exact ⟨s, inner, outer, hscope, hscopes, hchain.trans hx₁,
    hpasses.follows.exists_definition_iff hdeclares hne⟩

/-- A reference from the header of a function is looked up from inside the function. -/
theorem looksUpFromHeader_ofTree (ht : t.Indexed) (options : Options) (hf : f ∈ t.root.nodes)
    (hparts : f.kind.function? = some parts) {i : ReferenceId} {r : Reference}
    (hr : (ScopeGraph.ofTree options t).references[i]? = some r) (hi : f.InHeader r.identifier) :
    (ScopeGraph.ofTree options t).LooksUpFromHeader f parts r := by
  have hpasses := (passes_empty options).follow (Action.ofProgram options t)
  rw [follow_ofProgram] at hpasses
  have hlooksUp := (ScopeGraph.lexical_of_passes hpasses rfl (rooted_ofTree options t)).references i r hr
  obtain ⟨s, inner, outer, h⟩ := exists_inside_ofTree ht options hf hparts hr hi
  have hheader : ∀ e ∈ parts.outlineHeader.own .function, ¬ f.InBody e.label.id := fun e he =>
    (FunctionParts.inHeader_of_mem_own hparts he).not_inBody ht.toNumbered hf
  refine ⟨s, inner, outer, h.scopesOf, h.chain,
    h.of_refersIntoBody hlooksUp hpasses.named hpasses.follows.graph hheader hpasses.upward, ?_⟩
  rintro ⟨⟨e, he, hename, hetype⟩, hnone, hinner⟩
  exact h.refersIntoBody hlooksUp hpasses.named hpasses.follows.graph
    (fun e he => FunctionParts.inBody_of_mem_own hparts he) he hename hetype hnone hinner

set_option maxRecDepth 20000 in
/-- The graph of a function with a default value that is named as a variable of the body. -/
theorem ScopeGraph.exists_default_value :
    ∃ conversion, Ast.Conversion.ofTree (.parse "a" "function f(a = b) { var b; }")
        (.ofTree (.parse "a" "function f(a = b) { var b; }")) = .ok conversion ∧
      (∃ f ∈ conversion.tree.root.nodes, ∃ parts, f.kind.function? = some parts ∧ f.id = 8 ∧ f.InHeader 2 ∧
        f.InBody 4) ∧
      (ofTree {} conversion.tree).references[1]? = some ⟨2, "b", 2, .read, some 2⟩ ∧
      (ofTree {} conversion.tree).vars[2]? = some ⟨"b", 2, [⟨.variableOf 6, 4, 5⟩], [1]⟩ ∧
      (ofTree {} conversion.tree).scopesOf 8 = [2] := by
  obtain ⟨conversion, h⟩ : ∃ conversion, Ast.Conversion.ofTree (.parse "a" "function f(a = b) { var b; }")
      (.ofTree (.parse "a" "function f(a = b) { var b; }")) = .ok conversion :=
    Ast.Conversion.exists_ofTree (by decide +kernel) _
  have hnode : (Ast.Conversion.ofTree (.parse "a" "function f(a = b) { var b; }")
      (.ofTree (.parse "a" "function f(a = b) { var b; }"))).toOption.any (fun c =>
        decide (∃ f ∈ c.tree.root.nodes, ∃ parts, f.kind.function? = some parts ∧ f.id = 8 ∧ f.InHeader 2 ∧
          f.InBody 4)) = true := by
    decide +kernel
  have hgraph : (Ast.Conversion.ofTree (.parse "a" "function f(a = b) { var b; }")
      (.ofTree (.parse "a" "function f(a = b) { var b; }"))).toOption.any (fun c =>
        decide ((ofTree {} c.tree).references[1]? = some ⟨2, "b", 2, .read, some 2⟩ ∧
          (ofTree {} c.tree).vars[2]? = some ⟨"b", 2, [⟨.variableOf 6, 4, 5⟩], [1]⟩ ∧
          (ofTree {} c.tree).scopesOf 8 = [2])) = true := by
    decide +kernel
  rw [h] at hnode hgraph
  exact ⟨conversion, h, of_decide_eq_true hnode, of_decide_eq_true hgraph⟩

/-- **When a reference from the header of a function means a name of its body.** A file without syntax errors has
a common tree. However its scopes are analysed, every reference from the header of a function is looked up from
inside the function, so it refers to what only the body declares when nothing nearer has its name. -/
theorem ScopeGraph.looksUpFromHeader_parse (fileName text : String) (settings : Ast.Settings) (options : Options)
    (herrors : (Syntax.Tree.parse fileName text).errors = []) :
    ∃ conversion, Ast.Conversion.ofTree (.parse fileName text) settings = .ok conversion ∧
      ∀ f ∈ conversion.tree.root.nodes, ∀ parts, f.kind.function? = some parts → ∀ (i : ReferenceId) (r : Reference),
        (ofTree options conversion.tree).references[i]? = some r → f.InHeader r.identifier →
        (ofTree options conversion.tree).LooksUpFromHeader f parts r := by
  obtain ⟨conversion, h⟩ := Ast.Conversion.exists_ofTree herrors settings
  exact ⟨conversion, h, fun f hf parts hparts i r hr hi =>
    looksUpFromHeader_ofTree (Ast.Conversion.indexed_ofTree h) options hf hparts hr hi⟩

/-- A default value that is named as a variable of the body. -/
theorem ScopeGraph.looksUpFromHeader_default_value :
    ∃ conversion f parts r, Ast.Conversion.ofTree (.parse "a" "function f(a = b) { var b; }")
        (.ofTree (.parse "a" "function f(a = b) { var b; }")) = .ok conversion ∧
      f ∈ conversion.tree.root.nodes ∧ f.kind.function? = some parts ∧
      (ofTree {} conversion.tree).references[1]? = some r ∧ f.InHeader r.identifier ∧
      (ofTree {} conversion.tree).LooksUpFromHeader f parts r := by
  obtain ⟨conversion, h, ⟨f, hf, parts, hparts, -, hi, -⟩, hr, -⟩ := exists_default_value
  obtain ⟨conversion', h', hall⟩ := looksUpFromHeader_parse "a" "function f(a = b) { var b; }"
    (.ofTree (.parse "a" "function f(a = b) { var b; }")) {} (by decide +kernel)
  cases h.symm.trans h'
  exact ⟨conversion, f, parts, _, h, hf, hparts, hr, hi, hall f hf parts hparts 1 _ hr hi⟩

/-- The default value means the variable of the body. -/
theorem ScopeGraph.not_headers_outside_body :
    ¬ ∀ (fileName text : String) (settings : Ast.Settings) (options : Options) (conversion : Ast.Conversion),
      (Syntax.Tree.parse fileName text).errors = [] →
      Ast.Conversion.ofTree (.parse fileName text) settings = .ok conversion →
      ∀ f ∈ conversion.tree.root.nodes, ∀ (i : ReferenceId) (r : Reference),
        (ofTree options conversion.tree).references[i]? = some r → f.InHeader r.identifier →
        ¬ (ofTree options conversion.tree).RefersIntoBody f r := by
  intro hall
  obtain ⟨conversion, h, ⟨f, hf, parts, hparts, hid, hi, hbody⟩, hr, hvar, hscopes⟩ := exists_default_value
  refine hall "a" _ _ {} conversion (by decide +kernel) h f hf 1 _ hr hi ⟨2, rfl, _, hvar, ?_, ?_⟩
  · rw [hid, hscopes]
    exact List.mem_singleton_self 2
  · rintro d hd
    rw [List.mem_singleton.mp hd]
    exact hbody

end Scoping

end ScriptAnalysis

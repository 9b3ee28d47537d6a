import ScriptAnalysis.Proofs.Scoping.Passing
import ScriptAnalysis.Proofs.Scoping.Tables

/-!
# Scope analysis looks names up

In a finished scope graph a reference refers to what the first scope of its chain holds that can answer it,
the scopes before that one let it through, and no other scope does (`ScopeGraph.LooksUp`). A variable knows
the references to it, in the order of their numbers (`lexical_ofTree`).

The chain of a reference ends in the first scope: a program closes its scopes only at its end, so every other
scope is opened inside another one (`rooted_ofTree`).
-/

namespace ScriptAnalysis

namespace Names

open Ast (NodeId)
open Scoping

variable {p : Progress}

/-! ### The outermost scope -/

/-- Actions that close every scope they open, and no other. -/
inductive Balanced : List Action → Prop where
  /-- No action. -/
  | nil : Balanced []
  /-- A declared name. -/
  | define (isHoisted : Bool) (name : String) (d : Definition) {as : List Action} (h : Balanced as) :
    Balanced (.define isHoisted name d :: as)
  /-- A reference. -/
  | refer (name : String) (identifier : NodeId) (use : Use) {as : List Action} (h : Balanced as) :
    Balanced (.refer name identifier use :: as)
  /-- A scope. -/
  | scope (type : ScopeType) (block : NodeId) (startsStrict : Bool) {as bs : List Action}
    (has : Balanced as) (hbs : Balanced bs) :
    Balanced (.openScope type block startsStrict :: (as ++ .closeScope :: bs))

theorem Balanced.append {as bs : List Action} (has : Balanced as) (hbs : Balanced bs) :
    Balanced (as ++ bs) := by
  induction has with
  | nil => exact hbs
  | define isHoisted name d _ ih => exact .define isHoisted name d ih
  | refer name identifier use _ ih => exact .refer name identifier use ih
  | scope type block startsStrict has' _ _ ih =>
    rw [List.cons_append, List.append_assoc, List.cons_append]
    exact .scope type block startsStrict has' ih

/-- The steps of an outline are balanced. -/
theorem balanced_of_map_toStep {o : Outline (Declared NodeId) (Referred NodeId)} {as : List Action}
    (h : as.map Action.toStep = o.steps) : Balanced as := by
  induction o generalizing as with
  | done =>
    rw [List.map_eq_nil_iff.mp h]
    exact .nil
  | declare isHoisted d rest ih =>
    rw [Outline.steps] at h
    split at h
    · exact ih h
    · obtain ⟨a, as, rfl, ha, has⟩ := List.map_eq_cons_iff.mp h
      cases a <;> simp only [Action.toStep, reduceCtorEq] at ha
      exact .define _ _ _ (ih has)
  | refer r rest ih =>
    rw [Outline.steps] at h
    split at h
    · exact ih h
    · obtain ⟨a, as, rfl, ha, has⟩ := List.map_eq_cons_iff.mp h
      cases a <;> simp only [Action.toStep, reduceCtorEq] at ha
      exact .refer _ _ _ (ih has)
  | scope type header body rest ihheader ihbody ihrest =>
    rw [Outline.steps] at h
    obtain ⟨a, as, rfl, ha, h⟩ := List.map_eq_cons_iff.mp h
    obtain ⟨hs, as, rfl, hheader, h⟩ := List.map_eq_append_iff.mp h
    obtain ⟨bs, as, rfl, hbody, h⟩ := List.map_eq_append_iff.mp h
    obtain ⟨c, rs, rfl, hc, hrest⟩ := List.map_eq_cons_iff.mp h
    cases a <;> simp only [Action.toStep, reduceCtorEq] at ha
    cases c <;> simp only [Action.toStep, reduceCtorEq] at hc
    rw [← List.append_assoc]
    exact .scope _ _ _ ((ihheader hheader).append (ihbody hbody)) (ihrest hrest)

/-! ### What a whole walk keeps -/

section Preserves

variable {I : Progress → Prop} (hstep : ∀ p a, I p → p.openScopes ≠ [] → I (p.step a))

include hstep

theorem preserves_closeScope (h : I p) : I (p.step .closeScope) := by
  obtain ⟨g, _ | ⟨o, os⟩⟩ := p
  · exact h
  · exact hstep _ _ h (List.cons_ne_nil _ _)

/-- Balanced actions inside a scope leave the open scopes open, and keep what each step inside a scope
keeps. -/
theorem Balanced.preserves {as : List Action} (has : Balanced as) {p : Progress}
    (hopen : p.openScopes ≠ []) (h : I p) :
    I (p.follow as) ∧ (p.follow as).openScopes.map (·.scope) = p.openScopes.map (·.scope) := by
  induction has generalizing p with
  | nil => exact ⟨h, rfl⟩
  | define isHoisted name d _ ih =>
    have hnext := hstep p (.define isHoisted name d) h hopen
    obtain ⟨g, _ | ⟨o, os⟩⟩ := p
    · exact absurd rfl hopen
    · exact ih (List.cons_ne_nil _ _) hnext
  | refer name identifier use _ ih =>
    have hnext := hstep p (.refer name identifier use) h hopen
    obtain ⟨g, _ | ⟨o, os⟩⟩ := p
    · exact absurd rfl hopen
    · exact ih (List.cons_ne_nil _ _) hnext
  | scope type block startsStrict _ _ ihas ihbs =>
    have hnext := hstep p (.openScope type block startsStrict) h hopen
    obtain ⟨g, _ | ⟨o, os⟩⟩ := p
    · exact absurd rfl hopen
    · obtain ⟨hinside, hscopes⟩ := ihas (p := .step ⟨g, o :: os⟩ (.openScope type block startsStrict))
        (List.cons_ne_nil _ _) hnext
      rw [Progress.follow_cons, Progress.follow_append, Progress.follow_cons]
      generalize Progress.follow _ _ = q at hinside hscopes ⊢
      obtain ⟨g', _ | ⟨o', os'⟩⟩ := q
      · cases hscopes
      · have hos : (Progress.step ⟨g', o' :: os'⟩ .closeScope).openScopes.map (·.scope) =
            (o :: os).map (·.scope) :=
          (map_scope_addWaiting _ _).trans (List.cons.inj hscopes).2
        have hne : (Progress.step ⟨g', o' :: os'⟩ .closeScope).openScopes ≠ [] := by
          intro hnil
          rw [hnil] at hos
          cases hos
        obtain ⟨hrest, hscopes'⟩ := ihbs hne (preserves_closeScope hstep hinside)
        exact ⟨hrest, hscopes'.trans hos⟩

/-- The scopes of a program are opened one inside the other. -/
theorem preserves_ofHeader (options : Options) (program : NodeId) (body : List (Ast.Node Ast.Place))
    (hfirst : I (.step { graph := { options } } (.openScope .global program (Action.startsStrict body)))) :
    I (.follow { graph := { options } } (Action.ofHeader options program body)) ∧
      (Progress.follow { graph := { options } } (Action.ofHeader options program body)).openScopes ≠ [] := by
  have hopened : ∀ (p : Progress) type b (c : Prop) [Decidable c], I p → p.openScopes ≠ [] →
      I (p.follow (if c then [.openScope type program b] else [])) ∧
        (p.follow (if c then [.openScope type program b] else [])).openScopes ≠ [] := by
    intro p type b c _ h hopen
    split
    · exact ⟨hstep p (.openScope type program b) h hopen, List.cons_ne_nil _ _⟩
    · exact ⟨h, hopen⟩
  rw [Action.ofHeader, Progress.follow_cons, Progress.follow_append]
  obtain ⟨h, hopen⟩ := hopened _ .function (Action.startsStrict body) (options.globalReturn = true) hfirst
    (List.cons_ne_nil _ _)
  exact hopened _ .module true (options.sourceType = .module) h hopen

/-- What the first scope has and every step inside a scope keeps, the walk over a program keeps. -/
theorem preserves_ofProgram (options : Options) (t : Ast.Tree)
    (hfirst : I (.step { graph := { options } }
      (.openScope .global t.root.id (Action.startsStrict t.body)))) :
    I (.follow { graph := { options } } (Action.ofProgram options t)) := by
  have hclose : ∀ (actions : List Action) (p : Progress), I p →
      I (p.follow (actions.map fun _ => Action.closeScope)) := by
    intro actions
    induction actions with
    | nil => exact fun _ h => h
    | cons a actions ih => exact fun p h => ih _ (preserves_closeScope hstep h)
  obtain ⟨hheader, hopen⟩ := preserves_ofHeader hstep options t.root.id t.body hfirst
  rw [Action.ofProgram, Progress.follow_append, Progress.follow_append]
  exact hclose _ _ ((balanced_of_map_toStep (map_toStep_ofNodes_body t)).preserves hstep hopen hheader).1

end Preserves

/-- The first scope is the only one that stands in no other. -/
def Rooted (g : ScopeGraph) : Prop := ∀ s < g.scopes.size, g.upperOf? s = none → s = 0

theorem Rooted.addScope {g : ScopeGraph} (h : Rooted g) (type : ScopeType) (block : NodeId) (upper : ScopeId)
    (startsStrict : Bool) : Rooted (g.addScope type block (some upper) startsStrict) := by
  intro s hs hnone
  rw [ScopeGraph.upperOf?_addScope] at hnone
  rw [ScopeGraph.size_scopes_addScope] at hs
  split at hnone
  · cases hnone
  · exact h s (Nat.lt_of_le_of_ne (Nat.le_of_lt_succ hs) ‹_›) hnone

theorem Rooted.of_same {g g' : ScopeGraph} (h : Rooted g) (hsize : g'.scopes.size = g.scopes.size)
    (hupper : ∀ s, g'.upperOf? s = g.upperOf? s) : Rooted g' := by
  intro s hs hnone
  exact h s (hsize ▸ hs) ((hupper s).symm.trans hnone)

/-- A step inside a scope adds no outermost scope. -/
theorem Rooted.step (h : Rooted p.graph) (hopen : p.openScopes ≠ []) (a : Action) :
    Rooted (p.step a).graph := by
  obtain ⟨g, _ | ⟨o, os⟩⟩ := p
  · exact absurd rfl hopen
  · cases a with
    | openScope type block startsStrict => exact h.addScope type block o.scope startsStrict
    | closeScope => exact h.of_same (size_scopes_settle g _ _) (g.upperOf?_settle _ _)
    | define isHoisted name d =>
      exact h.of_same (ScopeGraph.size_scopes_addDefinition d) (g.upperOf?_addDefinition _ name d)
    | refer name identifier use =>
      exact h.of_same (g.size_scopes_addReference o.scope name identifier use)
        (g.upperOf?_addReference o.scope name identifier use)

/-- In a program every scope stands in the first one. -/
theorem rooted_ofTree (options : Options) (t : Ast.Tree) : Rooted (ScopeGraph.ofTree options t) := by
  refine preserves_ofProgram (I := fun p => Rooted p.graph) (fun p a h hopen => h.step hopen a)
    options t ?_
  intro s hs _
  have hs : s < (ScopeGraph.addScope { options } .global t.root.id none _).scopes.size := hs
  rw [ScopeGraph.size_scopes_addScope] at hs
  exact Nat.lt_one_iff.mp hs

/-- The chain of every scope leads to the first one. -/
theorem getLast?_chain {g : ScopeGraph} (h : g.Upward) (hrooted : Rooted g) {s : ScopeId}
    (hs : s < g.scopes.size) : (g.chain s).getLast? = some 0 := by
  induction s using Nat.strongRecOn with
  | ind s ih =>
    rw [h.chain_eq hs]
    cases hu : g.upperOf? s with
    | none =>
      rw [hrooted s hs hu]
      rfl
    | some u =>
      have hlast := ih u (h s u hu) (Nat.lt_trans (h s u hu) hs)
      rw [Option.elim_some, List.getLast?_cons, hlast]
      rfl

end Names

/-! ### The finished graph -/

namespace Scoping.ScopeGraph

/-- A reference is looked up along its chain. -/
structure LooksUp (g : ScopeGraph) (i : ReferenceId) (r : Reference) : Prop where
  /-- The chain leads to the global scope. -/
  chain : (g.chain r.scope).getLast? = some 0
  /-- The reference refers to what the first scope of the chain holds that can answer it. -/
  target : ∀ v, r.target? = some v ↔ ∃ inner s outer, g.chain r.scope = inner ++ s :: outer ∧
    g.Answers s r v ∧ ∀ s' ∈ inner, ∀ v', ¬ g.Answers s' r v'
  /-- The scopes before that one let it through, and no others do. -/
  through : ∀ s, i ∈ g.throughOf s ↔ ∃ inner outer, g.chain r.scope = inner ++ s :: outer ∧
    ∀ s' ∈ inner ++ [s], ∀ v', ¬ g.Answers s' r v'

theorem mem_takeWhile_iff {α : Type} {f : α → Bool} {l : List α} {a : α} :
    a ∈ l.takeWhile f ↔ ∃ inner outer, l = inner ++ a :: outer ∧ ∀ b ∈ inner ++ [a], f b = true := by
  constructor
  · intro h
    obtain ⟨inner, rest, hl⟩ := List.append_of_mem h
    refine ⟨inner, rest ++ l.dropWhile f, ?_, fun b hb => ?_⟩
    · have happend := List.takeWhile_append_dropWhile (p := f) (l := l)
      rw [hl, List.append_assoc, List.cons_append] at happend
      exact happend.symm
    · have hb : b ∈ l.takeWhile f := by
        rw [hl, List.append_cons]
        exact List.mem_append_left _ hb
      exact List.mem_takeWhile_imp hb
  · rintro ⟨inner, outer, rfl, h⟩
    have hself : (inner ++ [a]).takeWhile f = inner ++ [a] := List.takeWhile_eq_self_iff.mpr h
    rw [List.append_cons, List.takeWhile_append, hself, if_pos rfl]
    simp

/-- What a graph says of references and variables is what lexical lookup says. -/
structure Lexical (g : ScopeGraph) : Prop where
  /-- Every reference is looked up along its chain. -/
  references : ∀ (i : ReferenceId) r, g.references[i]? = some r → g.LooksUp i r
  /-- A variable knows the references to it, each once and in the order of their numbers. -/
  users : ∀ (v : VariableId) x, g.vars[v]? = some x → x.references.Pairwise (· < ·) ∧
    ∀ i : ReferenceId, i ∈ x.references ↔ ∃ r, g.references[i]? = some r ∧ r.target? = some v

/-- When all scopes are closed, names have been looked up. -/
theorem lexical_of_passes {p : Progress} {t : Names.Trace Ast.NodeId} (h : Names.Passes p t)
    (hsites : t.sites = []) (hrooted : Names.Rooted p.graph) : p.graph.Lexical where
  references i r hr := by
    have hlt : i < t.references.length := by
      rw [← h.follows.size_references]
      exact (Array.getElem?_eq_some_iff.mp hr).1
    have hx := List.getElem?_eq_getElem hlt
    obtain ⟨r₁, hr₁, hscope, hchain⟩ := h.chain i _ hx
    cases hr.symm.trans hr₁
    obtain ⟨r₂, hr₂, -, htarget⟩ := h.follows.target? hsites hx
    cases hr.symm.trans hr₂
    have hanswers : ∀ {s v}, p.graph.answerTo? s r.name r.use = some v ↔ p.graph.Answers s r v :=
      h.named.answerTo?_eq_some_iff h.follows.graph
    have hnone : ∀ {s}, p.graph.answerTo? s r.name r.use = none ↔ ∀ v, ¬ p.graph.Answers s r v := by
      intro s
      simp only [← hanswers, ← Option.not_isSome_iff_eq_none, Option.isSome_iff_exists, not_exists]
    refine ⟨Names.getLast?_chain h.upward hrooted hscope, fun v => ?_, fun s => ?_⟩
    · rw [htarget, ← hchain, List.findSome?_eq_some_iff]
      simp only [hanswers, hnone]
    · have hopen : p.openScopes.map (·.scope) = [] := by rw [h.follows.openScopes, hsites]; rfl
      have hclosed : Names.closedAround p t.references[i].1 = p.graph.chain r.scope := by
        rw [Names.closedAround, hopen, hchain]
        simp
      rw [h.through s i]
      constructor
      · rintro ⟨x, r', hx', hr', hs⟩
        cases hx.symm.trans hx'
        cases hr.symm.trans hr'
        rw [hclosed, mem_takeWhile_iff] at hs
        simpa only [Option.isNone_iff_eq_none, hnone] using hs
      · intro hs
        refine ⟨_, r, hx, hr, ?_⟩
        rw [hclosed, mem_takeWhile_iff]
        simpa only [Option.isNone_iff_eq_none, hnone] using hs
  users v x hx := by
    obtain ⟨hsorted, husers⟩ := h.users v x hx
    exact ⟨hsorted, fun i => (husers i).trans Option.bind_eq_some_iff⟩

/-- **Scope analysis is lexical lookup.** In the scope graph of every program a reference refers to what the
first scope of its chain holds that can answer it, the scopes before that one let it through and no others
do, and a variable knows the references to it in order. No scope is left open, the tables that are kept while
the walk goes on show this graph, and in them no scope has references left that wait. -/
theorem lexical_ofTree (options : Options) (t : Ast.Tree) :
    (ofTree options t).Lexical ∧
      (Progress.follow { graph := { options } } (Action.ofProgram options t)).openScopes = [] ∧
      (ScopeTables.ofTree options t).Shows (ofTree options t) ∧
      ∀ s, (ScopeTables.ofTree options t).waitingIn s = [] := by
  have hpasses := (Names.passes_empty options).follow (Action.ofProgram options t)
  rw [Names.follow_ofProgram] at hpasses
  refine ⟨lexical_of_passes hpasses rfl (Names.rooted_ofTree options t), ?_, ScopeTables.shows_ofTree options t,
    ScopeTables.waitingIn_ofTree options t⟩
  exact List.map_eq_nil_iff.mp hpasses.follows.openScopes

end Scoping.ScopeGraph

end ScriptAnalysis

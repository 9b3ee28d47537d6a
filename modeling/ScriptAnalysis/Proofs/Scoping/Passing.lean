import Mathlib.Data.List.TakeWhile
import ScriptAnalysis.Proofs.Scoping.Chains

/-!
# References that pass scopes

`Passes` says what the closed scopes of an analysis on its way have done: a reference has passed the closed
scopes around it up to the first one that answers it, and a variable knows the references that it has
answered, in the order of their numbers.

The references that wait in the open scopes are in order, outer scopes first, so a scope that is closed
answers them in order. A scope answers references only when it is closed, so nothing is added to what it has
answered. One lemma for each action of the walk keeps this; `Passes.follow` is the induction.
-/

namespace ScriptAnalysis

namespace Names

open Ast (NodeId)
open Scoping

/-- The scopes around a reference that are closed. -/
def closedAround (p : Progress) (around : List ScopeId) : List ScopeId :=
  around.filter fun s => s ∉ p.openScopes.map (·.scope)

/-- What the closed scopes have done to the references. -/
structure Passes (p : Progress) (t : Trace NodeId) : Prop where
  follows : Follows p t
  upward : p.graph.Upward
  linked : p.graph.Linked (p.openScopes.map (·.scope))
  named : p.graph.Named
  chain : ∀ (i : ReferenceId) x, t.references[i]? = some x →
    ∃ r : Reference, p.graph.references[i]? = some r ∧ r.scope < p.graph.scopes.size ∧ p.graph.chain r.scope = x.1
  through : ∀ (s : ScopeId) (i : ReferenceId), i ∈ p.graph.throughOf s ↔ ∃ x r, t.references[i]? = some x ∧
    p.graph.references[i]? = some r ∧
    s ∈ (closedAround p x.1).takeWhile fun s => (p.graph.answerTo? s r.name r.use).isNone
  sorted : (p.openScopes.reverse.flatMap (·.waiting)).Pairwise (· < ·)
  users : ∀ (v : VariableId) x, p.graph.vars[v]? = some x → x.references.Pairwise (· < ·) ∧
    ∀ i : ReferenceId, i ∈ x.references ↔ (p.graph.references[i]?.bind (·.target?)) = some v

variable {p p' : Progress} {t : Trace NodeId}

theorem passes_empty (options : Options) : Passes { graph := { options } } Trace.empty where
  follows := follows_empty options
  upward s u h := by simp [ScopeGraph.upperOf?] at h
  linked := trivial
  named s v hv := by simp [ScopeGraph.varsOf] at hv
  chain i x h := by simp [Trace.empty] at h
  through s i := by simp [ScopeGraph.throughOf, Trace.empty]
  sorted := by simp
  users v x h := by simp at h

/-- The closed scopes around a reference are the first ones. -/
theorem closedAround_eq {x : List ScopeId × Referred NodeId} {closed around : List ScopeId}
    (hx : x.1 = closed ++ around) (haround : around <:+ p.openScopes.map (·.scope))
    (hclosed : ∀ s ∈ closed, s ∉ p.openScopes.map (·.scope)) : closedAround p x.1 = closed := by
  rw [closedAround, hx, List.filter_append, List.filter_eq_self.mpr, List.filter_eq_nil_iff.mpr,
    List.append_nil]
  · intro s hs
    simpa using haround.subset hs
  · intro s hs
    simpa using hclosed s hs

/-- A reference that has been answered refers to a variable of a closed scope. -/
theorem Follows.exists_var_of_target? (h : Follows p t) {i : ReferenceId} {v : VariableId}
    (hv : (p.graph.references[i]?.bind (·.target?)) = some v) :
    ∃ x, p.graph.vars[v]? = some x ∧ x.scope ∉ p.openScopes.map (·.scope) := by
  obtain ⟨r, hr, htarget⟩ := Option.bind_eq_some_iff.mp hv
  have hlt : i < t.references.length := by
    rw [← h.size_references]
    exact (Array.getElem?_eq_some_iff.mp hr).1
  obtain ⟨r', closed, around, hr', -, ⟨-, -, hclosed⟩, htarget', -⟩ :=
    h.references i _ (List.getElem?_eq_getElem hlt)
  cases hr.symm.trans hr'
  obtain ⟨s, hs, hanswer⟩ := List.exists_of_findSome?_eq_some (htarget'.symm.trans htarget)
  obtain ⟨x, hx, hscope⟩ := h.graph.of_answerTo? hanswer
  exact ⟨x, hx, hscope ▸ hclosed s hs⟩

theorem takeWhile_congr {α : Type} {f f' : α → Bool} {l : List α} (h : ∀ a ∈ l, f a = f' a) :
    l.takeWhile f = l.takeWhile f' := by
  induction l with
  | nil => rfl
  | cons a l ih =>
    rw [List.takeWhile_cons, List.takeWhile_cons, h a List.mem_cons_self,
      ih fun b hb => h b (List.mem_cons_of_mem _ hb)]

theorem Passes.openScope (h : Passes p t) (type : ScopeType) (block : NodeId) (startsStrict : Bool) :
    Passes (p.step (.openScope type block startsStrict)) (t.step (.openScope type)) := by
  obtain ⟨g, os⟩ := p
  have halike := ScopeGraph.alike_addScope g type block (os.head?.map (·.scope)) startsStrict
  have hupper := ScopeGraph.upperOf?_addScope g type block (os.head?.map (·.scope)) startsStrict
  have hsame : ∀ s < g.scopes.size, (g.addScope type block (os.head?.map (·.scope)) startsStrict).upperOf? s =
      g.upperOf? s := fun s hs => by rw [hupper, if_neg (Nat.ne_of_lt hs)]
  have hsize := ScopeGraph.size_scopes_addScope g type block (os.head?.map (·.scope)) startsStrict
  have hlt : ∀ s ∈ os.map (·.scope), s < g.scopes.size := by
    intro s hs
    rw [h.follows.openScopes] at hs
    rw [h.follows.size_scopes]
    exact h.follows.trace.nested.lt hs
  constructor
  case follows => exact h.follows.openScope type block startsStrict
  case upward =>
    intro s u hu
    have hu : (g.addScope type block _ startsStrict).upperOf? s = some u := hu
    rw [hupper] at hu
    split at hu
    · rename_i hs
      rw [hs]
      exact hlt u (List.mem_of_head? (by rw [List.head?_map, hu]))
    · exact h.upward s u hu
  case linked =>
    refine ⟨⟨?_, ?_⟩, h.linked.mono (Nat.le_of_lt (hsize ▸ Nat.lt_succ_self _)) hsame⟩
    · exact hsize ▸ Nat.lt_succ_self _
    · rw [List.head?_map]
      exact (hupper _).trans (if_pos rfl)
  case named => exact h.named.of_alike halike
  case chain =>
    intro i x hx
    obtain ⟨r, hr, hlt, hchain⟩ := h.chain i x hx
    refine ⟨r, ?_, Nat.lt_of_lt_of_le hlt (Nat.le_of_lt (hsize ▸ Nat.lt_succ_self _)), ?_⟩
    · simpa [Progress.step] using hr
    · exact (h.upward.chain_congr hsame (Nat.le_of_lt (hsize ▸ Nat.lt_succ_self _)) hlt).trans hchain
  case through =>
    intro s i
    show i ∈ (g.addScope type block _ startsStrict).throughOf s ↔ _
    rw [ScopeGraph.throughOf_addScope, h.through s i]
    have hclosed : ∀ x ∈ t.references, closedAround ⟨g.addScope type block (os.head?.map (·.scope)) startsStrict,
        ⟨g.scopes.size, []⟩ :: os⟩ x.1 = closedAround ⟨g, os⟩ x.1 := by
      intro x hx
      refine List.filter_congr fun s' hs' => ?_
      have hne : s' ≠ g.scopes.size :=
        h.follows.size_scopes ▸ Nat.ne_of_lt (h.follows.trace.references x hx s' hs')
      simp [hne]
    refine exists_congr fun x => exists_congr fun r => and_congr_right fun hx => and_congr ?_ ?_
    · simp [Progress.step]
    · rw [← hclosed x (List.mem_of_getElem? hx)]
      refine Eq.to_iff (congrArg (s ∈ ·) (takeWhile_congr fun s' _ => ?_))
      exact congrArg Option.isNone (halike.answerTo? s' r.name r.use).symm
  case sorted =>
    show ((⟨g.scopes.size, []⟩ :: os).reverse.flatMap OpenScope.waiting).Pairwise (· < ·)
    simpa using h.sorted
  case users =>
    intro v x hx
    have hvars : (g.addScope type block (os.head?.map (·.scope)) startsStrict).vars = g.vars := by
      cases os.head?.map (·.scope) <;> rfl
    have := h.users v x (by simpa [Progress.step, hvars] using hx)
    simpa [Progress.step] using this

/-- A closed scope lets a waiting reference through when it cannot answer it. -/
theorem through_closeScope {g : ScopeGraph} {o : OpenScope} {os : List OpenScope} {i : ReferenceId}
    {x : List ScopeId × Referred NodeId} (hnodup : (o.scope :: os.map (·.scope)).Nodup)
    (hstanding : Standing ⟨g, o :: os⟩ i x) {r : Reference} (hr : g.references[i]? = some r) (s : ScopeId) :
    s ∈ (closedAround (.step ⟨g, o :: os⟩ .closeScope) x.1).takeWhile
        (fun s => (g.answerTo? s r.name r.use).isNone) ↔
      s ∈ (closedAround ⟨g, o :: os⟩ x.1).takeWhile (fun s => (g.answerTo? s r.name r.use).isNone) ∨
        o.scope = s ∧ i ∈ g.unanswered o.scope o.waiting := by
  obtain ⟨r', closed, around, hr', -, ⟨hx, haround, hclosed⟩, htarget, hwait⟩ := hstanding
  cases hr.symm.trans hr'
  have hopen : (Progress.step ⟨g, o :: os⟩ .closeScope).openScopes.map (·.scope) = os.map (·.scope) :=
    map_scope_addWaiting _ _
  have hunanswered : i ∈ g.unanswered o.scope o.waiting ↔
      i ∈ o.waiting ∧ (g.answerTo? o.scope r.name r.use).isNone = true := by
    rw [ScopeGraph.unanswered, List.mem_filter, ScopeGraph.answer?_eq, hr]
    rfl
  have hnotMem : ∀ s ∈ closed, s ∉ os.map (·.scope) := fun s hs hmem =>
    hclosed s hs (List.mem_cons_of_mem _ hmem)
  rw [closedAround_eq hx haround hclosed, hunanswered, hwait o List.mem_cons_self]
  rcases List.suffix_cons_iff.mp haround with heq | haround'
  · -- the closed scope is the next one around the reference
    have hx' : x.1 = (closed ++ [o.scope]) ++ os.map (·.scope) := by rw [hx, heq]; simp
    have hclosed' : ∀ s ∈ closed ++ [o.scope],
        s ∉ (Progress.step ⟨g, o :: os⟩ .closeScope).openScopes.map (·.scope) := by
      rw [hopen]
      intro s hs
      rcases List.mem_append.mp hs with hs | hs
      · exact hnotMem s hs
      · exact List.mem_singleton.mp hs ▸ (List.nodup_cons.mp hnodup).1
    rw [closedAround_eq hx' (hopen ▸ List.suffix_refl _) hclosed', htarget, List.findSome?_eq_none_iff, heq,
      List.takeWhile_append]
    by_cases hall : ∀ s ∈ closed, g.answerTo? s r.name r.use = none
    · have hself : closed.takeWhile (fun s => (g.answerTo? s r.name r.use).isNone) = closed :=
        List.takeWhile_eq_self_iff.mpr fun s hs => Option.isNone_iff_eq_none.mpr (hall s hs)
      rw [hself, if_pos rfl, List.mem_append]
      refine or_congr_right ?_
      cases hnone : g.answerTo? o.scope r.name r.use with
      | none => simpa [hnone, eq_comm (a := s)] using fun _ => hall
      | some v => simp [hnone]
    · have hne : (closed.takeWhile fun s => (g.answerTo? s r.name r.use).isNone).length ≠ closed.length := by
        intro hlength
        have hself := (List.takeWhile_prefix _).eq_of_length hlength
        exact hall fun s hs => Option.isNone_iff_eq_none.mp (List.takeWhile_eq_self_iff.mp hself s hs)
      rw [if_neg hne]
      exact (or_iff_left fun hmem => hall hmem.2.1.1).symm
  · have hhead : around.head? ≠ some o.scope := fun hhead =>
      (List.nodup_cons.mp hnodup).1 (haround'.subset (List.mem_of_head? hhead))
    rw [closedAround_eq hx (hopen ▸ haround') fun s hs => hopen ▸ hnotMem s hs]
    exact (or_iff_left fun hmem => hhead hmem.2.1.2).symm

theorem Passes.closeScope (h : Passes p t) : Passes (p.step .closeScope) (t.step .closeScope) := by
  obtain ⟨g, os⟩ := p
  have hfollows := h.follows.closeScope
  cases os with
  | nil =>
    have hstep : t.step .closeScope = t := by
      have hsites : t.sites = [] := by simpa using h.follows.openScopes.symm
      obtain ⟨n, sites, declarations, references⟩ := t
      cases hsites
      rfl
    rw [hstep]
    exact h
  | cons o os =>
    have halike := ScopeGraph.alike_settle g o.scope o.waiting
    have hnodup : (o.scope :: os.map (·.scope)).Nodup := by
      have := h.follows.trace.nested.nodup
      rwa [← h.follows.openScopes] at this
    have hupper := g.upperOf?_settle o.scope o.waiting
    have hsize : (g.settle o.scope o.waiting).scopes.size = g.scopes.size := size_scopes_settle g _ _
    have hlt : o.scope < g.scopes.size := h.linked.1.1
    -- a reference that waits has no variable yet
    have hwaiting : ∀ i ∈ o.waiting, ∃ r, g.references[i]? = some r ∧ r.target? = none := by
      intro i hi
      have hlt := h.follows.waiting o List.mem_cons_self i hi
      obtain ⟨r, closed, around, hr, -, -, -, hwait⟩ := h.follows.references i _ (List.getElem?_eq_getElem hlt)
      exact ⟨r, hr, ((hwait o List.mem_cons_self).mp hi).1⟩
    constructor
    case follows => exact hfollows
    case upward =>
      intro s u hu
      exact h.upward s u ((hupper s).symm.trans hu)
    case linked =>
      have hopen : (Progress.addWaiting (g.unanswered o.scope o.waiting) os).map (·.scope) =
          os.map (·.scope) := map_scope_addWaiting _ _
      show (g.settle o.scope o.waiting).Linked ((Progress.addWaiting _ os).map (·.scope))
      rw [hopen]
      exact h.linked.2.mono (Nat.le_of_eq hsize.symm) fun s _ => hupper s
    case named => exact h.named.of_alike halike
    case chain =>
      intro i x hx
      obtain ⟨r, hr, hlt, hchain⟩ := h.chain i x hx
      have hr' := g.getElem?_references_settle o.scope o.waiting i
      rw [hr, Option.map_some] at hr'
      have hchain' : (g.settle o.scope o.waiting).chain r.scope = g.chain r.scope :=
        h.upward.chain_congr (fun s _ => hupper s) (Nat.le_of_eq hsize.symm) hlt
      exact ⟨_, hr', hsize.symm ▸ hlt, hchain'.trans hchain⟩
    case through =>
      intro s i
      show i ∈ (g.settle o.scope o.waiting).throughOf s ↔ _
      rw [ScopeGraph.throughOf_settle g hlt, List.mem_append, h.through s i]
      have hanswer : ∀ s' name use,
          (g.settle o.scope o.waiting).answerTo? s' name use = g.answerTo? s' name use :=
        halike.answerTo?
      constructor
      · rintro (⟨x, r, hx, hr, hs⟩ | hi)
        · have hr' := g.getElem?_references_settle o.scope o.waiting i
          rw [hr, Option.map_some] at hr'
          refine ⟨x, _, hx, hr', ?_⟩
          simp only [Progress.step, hanswer]
          exact (through_closeScope hnodup (h.follows.references i x hx) hr s).mpr (.inl hs)
        · split at hi
          · rename_i hs
            have hmem := (List.mem_filter.mp hi).1
            obtain ⟨r, hr, -⟩ := hwaiting i hmem
            have hx := List.getElem?_eq_getElem (h.follows.waiting o List.mem_cons_self i hmem)
            have hr' := g.getElem?_references_settle o.scope o.waiting i
            rw [hr, Option.map_some] at hr'
            refine ⟨_, _, hx, hr', ?_⟩
            simp only [Progress.step, hanswer]
            exact (through_closeScope hnodup (h.follows.references i _ hx) hr s).mpr (.inr ⟨hs, hi⟩)
          · exact absurd hi List.not_mem_nil
      · rintro ⟨x, r', hx, hr', hs⟩
        have hr' : (g.settle o.scope o.waiting).references[i]? = some r' := hr'
        rw [g.getElem?_references_settle, Option.map_eq_some_iff] at hr'
        obtain ⟨r, hr, rfl⟩ := hr'
        simp only [Progress.step, hanswer] at hs
        rcases (through_closeScope hnodup (h.follows.references i x hx) hr s).mp hs with hs | ⟨hs, hi⟩
        · exact .inl ⟨x, r, hx, hr, hs⟩
        · exact .inr (by rwa [if_pos hs])
    case sorted =>
      show ((Progress.addWaiting (g.unanswered o.scope o.waiting) os).reverse.flatMap _).Pairwise (· < ·)
      have hsorted := h.sorted
      cases os with
      | nil => exact .nil
      | cons o' os =>
        rw [List.reverse_cons, List.reverse_cons, List.flatMap_append, List.flatMap_append] at hsorted
        rw [Progress.addWaiting, List.reverse_cons, List.flatMap_append]
        refine hsorted.sublist ?_
        simp only [List.flatMap_singleton, List.append_assoc]
        exact (List.Sublist.refl _).append ((List.Sublist.refl _).append List.filter_sublist)
    case users =>
      intro v x hx
      have hx : ((g.answered o.scope o.waiting).foldl ScopeGraph.resolve g).vars[v]? = some x := hx
      rw [g.vars_foldl_resolve, g.map_filter_answered, Option.map_eq_some_iff] at hx
      obtain ⟨y, hy, rfl⟩ := hx
      obtain ⟨hsorted, husers⟩ := h.users v y hy
      have hwaitingSorted : o.waiting.Pairwise (· < ·) := by
        refine h.sorted.sublist ?_
        rw [List.reverse_cons, List.flatMap_append, List.flatMap_singleton]
        exact List.sublist_append_right _ _
      have hnew : ∀ i, i ∈ o.waiting.filter (fun i => g.answer? o.scope i = some v) ↔
          i ∈ o.waiting ∧ g.answer? o.scope i = some v := by
        intro i
        rw [List.mem_filter, decide_eq_true_iff]
      refine ⟨?_, fun i => ?_⟩
      · rcases List.eq_nil_or_concat (o.waiting.filter fun i => g.answer? o.scope i = some v)
          with hnil | ⟨l, j, hj⟩
        · simpa [hnil] using hsorted
        · -- a variable that answers now has answered nothing before
          have hanswer := ((hnew j).mp (by simp [hj])).2
          have hnone : y.references = [] := by
            refine List.eq_nil_iff_forall_not_mem.mpr fun i hi => ?_
            obtain ⟨x, hx, hscope⟩ := h.follows.exists_var_of_target? ((husers i).mp hi)
            obtain ⟨r, -, hanswer⟩ := Option.bind_eq_some_iff.mp (hanswer.symm.trans (g.answer?_eq _ j)).symm
            obtain ⟨x', hx', hscope'⟩ := h.follows.graph.of_answerTo? hanswer
            cases hx.symm.trans hx'
            exact hscope (hscope' ▸ List.mem_cons_self)
          simpa [hnone] using hwaitingSorted.sublist List.filter_sublist
      · rw [List.mem_append, hnew, husers]
        show _ ↔ ((g.settle o.scope o.waiting).references[i]?.bind _) = some v
        rw [g.getElem?_references_settle]
        cases hr : g.references[i]? with
        | none =>
          have hanswer : g.answer? o.scope i = none := by rw [g.answer?_eq, hr]; rfl
          simp [hanswer]
        | some r =>
          by_cases hi : i ∈ o.waiting
          · obtain ⟨r', hr', hnone⟩ := hwaiting i hi
            cases hr.symm.trans hr'
            cases g.answer? o.scope i <;> simp [hi, hnone]
          · simp [hi]

theorem Passes.define (h : Passes p t) (isHoisted : Bool) (name : String) (d : Definition) :
    Passes (p.step (.define isHoisted name d)) (t.step (.declare isHoisted (declaredAs name d))) := by
  obtain ⟨g, os⟩ := p
  have hfollows := h.follows.define isHoisted name d
  cases os with
  | nil =>
    have hstep : t.step (.declare isHoisted (declaredAs name d)) = t := by
      have hsites : t.sites = [] := by simpa using h.follows.openScopes.symm
      rw [Trace.step, hsites]
    rw [hstep]
    exact h
  | cons o os =>
    obtain ⟨scope, hmem, hlt, hp, ht⟩ := h.follows.step_define isHoisted name d
    have hupper := g.upperOf?_addDefinition scope name d
    have hsize : (g.addDefinition scope name d).scopes.size = g.scopes.size :=
      ScopeGraph.size_scopes_addDefinition d
    have hreferences : (g.addDefinition scope name d).references = g.references :=
      ScopeGraph.references_addDefinition d
    rw [hp, ht] at hfollows ⊢
    constructor
    case follows => exact hfollows
    case upward =>
      intro s u hu
      exact h.upward s u ((hupper s).symm.trans hu)
    case linked => exact h.linked.mono (Nat.le_of_eq hsize.symm) fun s _ => hupper s
    case named => exact h.named.addDefinition h.follows.graph hlt name d
    case chain =>
      intro i x hx
      obtain ⟨r, hr, hrlt, hchain⟩ := h.chain i x hx
      have hchain' : (g.addDefinition scope name d).chain r.scope = g.chain r.scope :=
        h.upward.chain_congr (fun s _ => hupper s) (Nat.le_of_eq hsize.symm) hrlt
      exact ⟨r, hreferences.symm ▸ hr, hsize.symm ▸ hrlt, hchain'.trans hchain⟩
    case through =>
      intro s i
      have hthrough : (g.addDefinition scope name d).throughOf s = g.throughOf s :=
        congrArg (Option.getD · []) (ScopeGraph.map_getElem?_addDefinition d (fun _ _ => rfl) s)
      show i ∈ (g.addDefinition scope name d).throughOf s ↔ _
      rw [hthrough, h.through s i]
      refine exists_congr fun x => exists_congr fun r => and_congr_right fun hx => and_congr ?_ ?_
      · rw [hreferences]
      · -- the scope of the definition is open
        refine Eq.to_iff (congrArg (s ∈ ·) (takeWhile_congr fun s' hs' => ?_))
        have hne : s' ≠ scope := by
          rintro rfl
          exact of_decide_eq_true (List.mem_filter.mp hs').2 hmem
        exact congrArg Option.isNone (h.follows.graph.answerTo?_addDefinition d hlt hne r.name r.use).symm
    case sorted => exact h.sorted
    case users =>
      intro v x hx
      have hx : (g.addDefinition scope name d).vars[v]? = some x := hx
      show _ ∧ ∀ i, _ ↔ ((g.addDefinition scope name d).references[i]?.bind _) = some v
      rw [hreferences]
      by_cases hv : v < g.vars.size
      · have hmap : (g.addDefinition scope name d).vars[v]?.map (·.references) =
            g.vars[v]?.map (·.references) :=
          ScopeGraph.map_vars_addDefinition d (fun _ _ => rfl) hv
        rw [hx, Option.map_some, eq_comm, Option.map_eq_some_iff] at hmap
        obtain ⟨y, hy, hyx⟩ := hmap
        exact hyx ▸ h.users v y hy
      · -- nothing refers to a new variable yet
        have hnone : x.references = [] := by
          cases hin : g.variableIn? scope name with
          | some w =>
            rw [ScopeGraph.addDefinition_of_some d hin, Array.getElem?_modify,
              Array.getElem?_eq_none (Nat.le_of_not_lt hv)] at hx
            simp at hx
          | none =>
            rw [ScopeGraph.addDefinition_of_none d hin] at hx
            replace hx : (g.vars.push ⟨name, scope, [d], []⟩)[v]? = some x := hx
            rw [Array.getElem?_push, Array.getElem?_eq_none (Nat.le_of_not_lt hv)] at hx
            split at hx
            · cases hx
              rfl
            · cases hx
        rw [hnone]
        refine ⟨.nil, fun i => ⟨fun hi => absurd hi List.not_mem_nil, fun hi => ?_⟩⟩
        obtain ⟨y, hy, -⟩ := h.follows.exists_var_of_target? hi
        exact absurd (Array.getElem?_eq_some_iff.mp hy).1 hv

theorem Passes.refer (h : Passes p t) (name : String) (identifier : NodeId) (use : Use) :
    Passes (p.step (.refer name identifier use))
      (t.step (.refer ⟨identifier, name, use.isType, use.isInitialization⟩)) := by
  obtain ⟨g, os⟩ := p
  have hfollows := h.follows.refer name identifier use
  cases os with
  | nil =>
    have hstep : t.step (.refer ⟨identifier, name, use.isType, use.isInitialization⟩) = t := by
      have hsites : t.sites = [] := by simpa using h.follows.openScopes.symm
      rw [Trace.step, hsites]
    rw [hstep]
    exact h
  | cons o os =>
    have halike := ScopeGraph.alike_addReference g o.scope name identifier use
    have hreferences : (g.addReference o.scope name identifier use).references =
        g.references.push ⟨identifier, name, o.scope, use, none⟩ := rfl
    have hupper := g.upperOf?_addReference o.scope name identifier use
    have hsize := g.size_scopes_addReference o.scope name identifier use
    have hopen : (Progress.addWaiting [g.references.size] (o :: os)).map (·.scope) = (o :: os).map (·.scope) :=
      map_scope_addWaiting _ _
    obtain ⟨site, sites, hsites⟩ := h.follows.sites_eq_cons
    have ht : (t.step (.refer ⟨identifier, name, use.isType, use.isInitialization⟩)).references =
        t.references ++ [((o :: os).map (·.scope), ⟨identifier, name, use.isType, use.isInitialization⟩)] := by
      rw [Trace.step, h.follows.openScopes, hsites]
    have hnew : ∀ {i : ReferenceId} {r : Reference},
        (g.addReference o.scope name identifier use).references[i]? = some r →
        (i = g.references.size ∧ r = ⟨identifier, name, o.scope, use, none⟩) ∨ g.references[i]? = some r := by
      intro i r hr
      rw [hreferences, Array.getElem?_push] at hr
      split at hr
      · exact .inl ⟨‹_›, (Option.some.inj hr).symm⟩
      · exact .inr hr
    have hold : ∀ {i : ReferenceId} {r : Reference}, g.references[i]? = some r →
        (g.addReference o.scope name identifier use).references[i]? = some r := by
      intro i r hr
      rw [hreferences, Array.getElem?_push, if_neg (Nat.ne_of_lt (Array.getElem?_eq_some_iff.mp hr).1), hr]
    constructor
    case follows => exact hfollows
    case upward =>
      intro s u hu
      exact h.upward s u ((hupper s).symm.trans hu)
    case linked =>
      show (g.addReference o.scope name identifier use).Linked ((Progress.addWaiting _ (o :: os)).map (·.scope))
      rw [hopen]
      exact h.linked.mono (Nat.le_of_eq hsize.symm) fun s _ => hupper s
    case named => exact h.named.of_alike halike
    case chain =>
      intro i x hx
      rw [ht, List.getElem?_append] at hx
      have hchain : ∀ s < g.scopes.size, (g.addReference o.scope name identifier use).chain s = g.chain s :=
        fun s hs => h.upward.chain_congr (fun s _ => hupper s) (Nat.le_of_eq hsize.symm) hs
      split at hx
      · obtain ⟨r, hr, hrlt, hrchain⟩ := h.chain i x hx
        exact ⟨r, hold hr, hsize.symm ▸ hrlt, (hchain _ hrlt).trans hrchain⟩
      · -- the new reference
        rename_i hge
        obtain ⟨hlt, hx'⟩ := List.getElem?_eq_some_iff.mp hx
        have hi : i = g.references.size := by
          rw [h.follows.size_references]
          exact Nat.le_antisymm (Nat.le_of_sub_eq_zero (Nat.lt_one_iff.mp hlt)) (Nat.le_of_not_lt hge)
        subst hi
        rw [List.getElem_singleton] at hx'
        subst hx'
        refine ⟨⟨identifier, name, o.scope, use, none⟩, ?_, hsize.symm ▸ h.linked.1.1, ?_⟩
        · show (g.addReference o.scope name identifier use).references[_]? = _
          rw [hreferences, Array.getElem?_push_size]
        · exact (hchain _ h.linked.1.1).trans (ScopeGraph.Linked.chain_eq h.upward h.linked)
    case through =>
      intro s i
      have hthrough : (g.addReference o.scope name identifier use).throughOf s = g.throughOf s :=
        congrArg (Option.getD · []) (g.map_getElem?_addReference (fun _ _ => rfl) o.scope name identifier use s)
      have hclosed : ∀ around, closedAround (Progress.step ⟨g, o :: os⟩ (.refer name identifier use)) around =
          closedAround ⟨g, o :: os⟩ around := by
        intro around
        show around.filter (fun s => s ∉ (Progress.addWaiting [g.references.size] (o :: os)).map (·.scope)) = _
        rw [hopen]
        rfl
      show i ∈ (g.addReference o.scope name identifier use).throughOf s ↔ _
      rw [hthrough, h.through s i, ht]
      simp only [hclosed]
      constructor
      · rintro ⟨x, r, hx, hr, hs⟩
        refine ⟨x, r, ?_, hold hr, ?_⟩
        · rw [List.getElem?_append_left (List.getElem?_eq_some_iff.mp hx).1, hx]
        · simpa only [Progress.step, halike.answerTo?] using hs
      · rintro ⟨x, r, hx, hr, hs⟩
        rw [List.getElem?_append] at hx
        split at hx
        · rename_i hlt
          rcases hnew hr with ⟨hi, -⟩ | hr
          · exact absurd hi (Nat.ne_of_lt (h.follows.size_references ▸ hlt))
          · exact ⟨x, r, hx, hr, by simpa only [Progress.step, halike.answerTo?] using hs⟩
        · -- no scope around the new reference is closed
          have hx' := List.mem_of_getElem? hx
          rw [List.mem_singleton] at hx'
          have haround : x.1 = [] ++ (o :: os).map (·.scope) := by rw [hx']; rfl
          have hnil : closedAround ⟨g, o :: os⟩ x.1 = [] :=
            closedAround_eq haround (List.suffix_refl _) (by simp)
          rw [hnil] at hs
          exact absurd hs List.not_mem_nil
    case sorted =>
      show ((Progress.addWaiting [g.references.size] (o :: os)).reverse.flatMap (·.waiting)).Pairwise (· < ·)
      have hsorted := h.sorted
      rw [List.reverse_cons, List.flatMap_append, List.flatMap_singleton] at hsorted
      rw [Progress.addWaiting, List.reverse_cons, List.flatMap_append, List.flatMap_singleton,
        ← List.append_assoc]
      refine List.pairwise_append.mpr ⟨hsorted, List.pairwise_singleton _ _, fun i hi j hj => ?_⟩
      rw [List.mem_singleton.mp hj, h.follows.size_references]
      rw [← List.flatMap_singleton OpenScope.waiting o, ← List.flatMap_append, List.mem_flatMap] at hi
      obtain ⟨o', ho', hi⟩ := hi
      exact h.follows.waiting o' (by simpa [or_comm] using ho') i hi
    case users =>
      intro v x hx
      obtain ⟨hsorted, husers⟩ := h.users v x hx
      refine ⟨hsorted, fun i => ?_⟩
      show _ ↔ ((g.addReference o.scope name identifier use).references[i]?.bind _) = some v
      rw [husers, Option.bind_eq_some_iff, Option.bind_eq_some_iff]
      constructor
      · rintro ⟨r, hr, htarget⟩
        exact ⟨r, hold hr, htarget⟩
      · rintro ⟨r, hr, htarget⟩
        rcases hnew hr with ⟨-, rfl⟩ | hr
        · cases htarget
        · exact ⟨r, hr, htarget⟩

/-- A step of the walk keeps what the closed scopes have done. -/
theorem Passes.step (h : Passes p t) (a : Action) : Passes (p.step a) (t.step a.toStep) := by
  cases a with
  | openScope type block startsStrict => exact h.openScope type block startsStrict
  | closeScope => exact h.closeScope
  | define isHoisted name d => exact h.define isHoisted name d
  | refer name identifier use => exact h.refer name identifier use

theorem Passes.follow (h : Passes p t) (as : List Action) :
    Passes (p.follow as) (t.follow (as.map Action.toStep)) := by
  induction as generalizing p t with
  | nil => exact h
  | cons a as ih => exact ih (h.step a)

end Names

end ScriptAnalysis

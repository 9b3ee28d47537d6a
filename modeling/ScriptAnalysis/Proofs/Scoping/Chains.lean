import ScriptAnalysis.Proofs.Names.Graph

/-!
# Chains of scopes

The scope around another one has a smaller number, so the chain of a scope is the scope with the chain of
the scope around it (`Upward.chain_eq`), and it stays the same while the graph grows (`chain_congr`). The
variables of a scope have different names, so the one that is found for a name is the only one that can
answer it (`Named.answerTo?_eq_some_iff`).
-/

namespace ScriptAnalysis

namespace Scoping.ScopeGraph

variable {g g' : ScopeGraph}

/-! ### Scopes around a scope -/

/-- The scope around a scope. -/
def upperOf? (g : ScopeGraph) (s : ScopeId) : Option ScopeId := (g.scopes[s]?.map (·.upper?)).join

/-- The references that a scope has let through. -/
def throughOf (g : ScopeGraph) (s : ScopeId) : List ReferenceId :=
  (g.scopes[s]?.map (·.through)).getD []

/-- The scope around another one was there before. -/
def Upward (g : ScopeGraph) : Prop := ∀ s u, g.upperOf? s = some u → u < s

theorem chainWithin_succ (g : ScopeGraph) (n : Nat) (s : ScopeId) :
    g.chainWithin (n + 1) s = s :: (g.upperOf? s).elim [] (g.chainWithin n) := by
  have hupper : g.scopes[s]?.bind (·.upper?) = g.upperOf? s := by
    rw [upperOf?]
    cases g.scopes[s]? <;> rfl
  rw [chainWithin, hupper]
  cases g.upperOf? s <;> rfl

/-- Scopes with the same scopes around them have the same chain, whatever bounds it. -/
theorem Upward.chainWithin_congr (h : g.Upward) {s : ScopeId}
    (hupper : ∀ s' ≤ s, g'.upperOf? s' = g.upperOf? s') {n m : Nat} (hn : s < n) (hm : s < m) :
    g'.chainWithin n s = g.chainWithin m s := by
  induction s using Nat.strongRecOn generalizing n m with
  | ind s ih =>
    obtain ⟨n, rfl⟩ := Nat.exists_eq_add_one_of_ne_zero (Nat.ne_zero_of_lt hn)
    obtain ⟨m, rfl⟩ := Nat.exists_eq_add_one_of_ne_zero (Nat.ne_zero_of_lt hm)
    rw [chainWithin_succ, chainWithin_succ, hupper s (Nat.le_refl s)]
    cases hu : g.upperOf? s with
    | none => rfl
    | some u =>
      have hlt := h s u hu
      exact congrArg _ (ih u hlt (fun s' hs' => hupper s' (Nat.le_trans hs' (Nat.le_of_lt hlt)))
        (Nat.lt_of_lt_of_le hlt (Nat.le_of_lt_succ hn)) (Nat.lt_of_lt_of_le hlt (Nat.le_of_lt_succ hm)))

/-- The chain of a scope is the scope with the chain of the scope around it. -/
theorem Upward.chain_eq (h : g.Upward) {s : ScopeId} (hs : s < g.scopes.size) :
    g.chain s = s :: (g.upperOf? s).elim [] g.chain := by
  obtain ⟨n, hn⟩ := Nat.exists_eq_add_one_of_ne_zero (Nat.ne_zero_of_lt hs)
  rw [chain, hn, chainWithin_succ]
  cases hu : g.upperOf? s with
  | none => rfl
  | some u =>
    have hlt := h s u hu
    have hlt' := Nat.lt_trans hlt hs
    rw [hn] at hs
    exact congrArg _ (h.chainWithin_congr (fun _ _ => rfl)
      (Nat.lt_of_lt_of_le hlt (Nat.le_of_lt_succ hs)) hlt')

/-- The chain of a scope stays the same when the scopes around stay the same. -/
theorem Upward.chain_congr (h : g.Upward) (hupper : ∀ s < g.scopes.size, g'.upperOf? s = g.upperOf? s)
    (hsize : g.scopes.size ≤ g'.scopes.size) {s : ScopeId} (hs : s < g.scopes.size) :
    g'.chain s = g.chain s :=
  h.chainWithin_congr (fun _ hs' => hupper _ (Nat.lt_of_le_of_lt hs' hs)) (Nat.lt_of_lt_of_le hs hsize) hs

/-- Each scope of the list stands directly in the next one, and the last one in none. -/
def Linked (g : ScopeGraph) : List ScopeId → Prop
  | [] => True
  | s :: ss => (s < g.scopes.size ∧ g.upperOf? s = ss.head?) ∧ g.Linked ss

/-- The chain of a scope is the list that it is linked with. -/
theorem Linked.chain_eq (h : g.Upward) {s : ScopeId} {ss : List ScopeId} (hlinked : g.Linked (s :: ss)) :
    g.chain s = s :: ss := by
  induction ss generalizing s with
  | nil => rw [h.chain_eq hlinked.1.1, hlinked.1.2]; rfl
  | cons u ss ih => rw [h.chain_eq hlinked.1.1, hlinked.1.2, List.head?_cons, Option.elim_some, ih hlinked.2]

theorem Linked.lt {ss : List ScopeId} (h : g.Linked ss) {s : ScopeId} (hs : s ∈ ss) :
    s < g.scopes.size := by
  induction ss with
  | nil => cases hs
  | cons s' ss ih =>
    rcases List.mem_cons.mp hs with rfl | hs
    · exact h.1.1
    · exact ih h.2 hs

theorem Linked.mono {ss : List ScopeId} (h : g.Linked ss) (hsize : g.scopes.size ≤ g'.scopes.size)
    (hupper : ∀ s < g.scopes.size, g'.upperOf? s = g.upperOf? s) : g'.Linked ss := by
  induction ss with
  | nil => trivial
  | cons s ss ih =>
    exact ⟨⟨Nat.lt_of_lt_of_le h.1.1 hsize, (hupper s h.1.1).trans h.1.2⟩, ih h.2⟩

/-! ### What the steps keep of the scopes -/

section

variable (g)

theorem map_getElem?_settle {β : Type} {k : Scope → β} (hk : ∀ x through, k { x with through } = k x)
    (s : ScopeId) (waiting : List ReferenceId) (s' : ScopeId) :
    (g.settle s waiting).scopes[s']?.map k = g.scopes[s']?.map k := by
  rw [settle, map_getElem?_modifyScope _ s k fun x => hk x _, Names.scopes_foldl_resolve]

theorem upperOf?_settle (s : ScopeId) (waiting : List ReferenceId) (s' : ScopeId) :
    (g.settle s waiting).upperOf? s' = g.upperOf? s' :=
  congrArg Option.join (g.map_getElem?_settle (fun _ _ => rfl) s waiting s')

theorem upperOf?_addDefinition (scope : ScopeId) (name : String) (d : Definition) (s : ScopeId) :
    (g.addDefinition scope name d).upperOf? s = g.upperOf? s :=
  congrArg Option.join (map_getElem?_addDefinition d (fun _ _ => rfl) s)

theorem map_getElem?_addReference {β : Type} {k : Scope → β}
    (hk : ∀ x references, k { x with references } = k x) (scope : ScopeId) (name : String)
    (identifier : Ast.NodeId) (use : Use) (s : ScopeId) :
    (g.addReference scope name identifier use).scopes[s]?.map k = g.scopes[s]?.map k :=
  map_getElem?_modifyScope { g with references := _ } scope k (fun x => hk x _) s

theorem upperOf?_addReference (scope : ScopeId) (name : String) (identifier : Ast.NodeId) (use : Use)
    (s : ScopeId) : (g.addReference scope name identifier use).upperOf? s = g.upperOf? s :=
  congrArg Option.join (g.map_getElem?_addReference (fun _ _ => rfl) scope name identifier use s)

@[simp] theorem size_scopes_addReference (scope : ScopeId) (name : String) (identifier : Ast.NodeId)
    (use : Use) : (g.addReference scope name identifier use).scopes.size = g.scopes.size :=
  Array.size_modify

/-- A closed scope lets the references through that it does not answer. -/
theorem throughOf_settle {s : ScopeId} (hs : s < g.scopes.size) (waiting : List ReferenceId)
    (s' : ScopeId) : (g.settle s waiting).throughOf s' =
      g.throughOf s' ++ if s = s' then g.unanswered s waiting else [] := by
  rw [throughOf, settle, getElem?_modifyScope, Names.scopes_foldl_resolve, throughOf]
  by_cases h : s = s'
  · subst h
    simp [Array.getElem?_eq_getElem hs]
  · simp [h]

theorem upperOf?_addScope (type : ScopeType) (block : Ast.NodeId) (upper? : Option ScopeId)
    (startsStrict : Bool) (s : ScopeId) :
    (g.addScope type block upper? startsStrict).upperOf? s =
      if s = g.scopes.size then upper? else g.upperOf? s := by
  rw [upperOf?, map_getElem?_addScope g _ _ _ _ fun _ _ => rfl, Array.getElem?_push]
  split <;> rfl

theorem throughOf_addScope (type : ScopeType) (block : Ast.NodeId) (upper? : Option ScopeId)
    (startsStrict : Bool) (s : ScopeId) :
    (g.addScope type block upper? startsStrict).throughOf s = g.throughOf s := by
  rw [throughOf, map_getElem?_addScope g _ _ _ _ fun _ _ => rfl, Array.getElem?_push]
  split
  · rename_i hs
    rw [throughOf, hs, Array.getElem?_size]
    rfl
  · rfl

/-- A scope that is closed changes nothing of a reference but what it refers to. -/
theorem getElem?_references_settle (s : ScopeId) (waiting : List ReferenceId) (i : ReferenceId) :
    (g.settle s waiting).references[i]? = g.references[i]?.map fun r =>
      { r with target? := if i ∈ waiting ∧ (g.answer? s i).isSome then g.answer? s i else r.target? } := by
  rw [Names.references_settle]
  refine congrArg (fun f => g.references[i]?.map f) (funext fun r => ?_)
  split <;> rfl

/-- The references that a scope answers with a variable. -/
theorem map_filter_answered (s : ScopeId) (waiting : List ReferenceId) (v : VariableId) :
    ((g.answered s waiting).filter (·.2 = v)).map (·.1) = waiting.filter fun i => g.answer? s i = some v := by
  induction waiting with
  | nil => rfl
  | cons i waiting ih =>
    rw [answered] at ih
    rw [answered, List.filterMap_cons, List.filter_cons]
    cases hanswer : g.answer? s i with
    | none => simpa using ih
    | some w => by_cases hw : w = v <;> simp [hw, ih]

/-- Answering references adds each to its variable. -/
theorem vars_foldl_resolve (answered : List (ReferenceId × VariableId)) (v : VariableId) :
    (answered.foldl resolve g).vars[v]? = g.vars[v]?.map fun x =>
      { x with references := x.references ++ (answered.filter (·.2 = v)).map (·.1) } := by
  induction answered generalizing g with
  | nil => simp
  | cons a as ih =>
    obtain ⟨i, w⟩ := a
    have hstep : (g.resolve (i, w)).vars[v]? =
        if w = v then g.vars[v]?.map fun x => { x with references := x.references ++ [i] }
        else g.vars[v]? := Array.getElem?_modify
    rw [List.foldl_cons, ih, hstep]
    by_cases h : w = v <;> simp [h, Function.comp_def]

end

/-! ### Names of variables -/

/-- The variables of a scope have different names. -/
def Named (g : ScopeGraph) : Prop :=
  ∀ s, ∀ v ∈ g.varsOf s, ∀ w ∈ g.varsOf s, g.vars[v]?.map (·.name) = g.vars[w]?.map (·.name) → v = w

theorem Named.of_alike (h : g.Named) (halike : Alike g g') : g'.Named := by
  intro s v hv w hw hname
  rw [halike.varsOf] at hv hw
  rw [halike.map_eq (·.name) fun _ => rfl, halike.map_eq (·.name) fun _ => rfl] at hname
  exact h s v hv w hw hname

theorem Named.addDefinition (h : g.Named) (hg : g.Sound) {scope : ScopeId} (hscope : scope < g.scopes.size)
    (name : String) (d : Definition) : (g.addDefinition scope name d).Named := by
  have hname : ∀ s, ∀ v ∈ g.varsOf s,
      (g.addDefinition scope name d).vars[v]?.map (·.name) = g.vars[v]?.map (·.name) :=
    fun s v hv => map_vars_addDefinition d (fun _ _ => rfl) (hg.lt_size hv)
  intro s v hv w hw heq
  cases hin : g.variableIn? scope name with
  | some u =>
    rw [varsOf_addDefinition_of_some d hin] at hv hw
    rw [hname s v hv, hname s w hw] at heq
    exact h s v hv w hw heq
  | none =>
    have hnew : (g.addDefinition scope name d).vars[g.vars.size]?.map (·.name) = some name := by
      rw [addDefinition_of_none d hin]
      show (g.vars.push _)[g.vars.size]?.map (·.name) = _
      rw [Array.getElem?_push_size]
      rfl
    -- the name of the new variable is new in its scope
    have hother : ∀ u ∈ g.varsOf scope, g.vars[u]?.map (·.name) ≠ some name := by
      rw [variableIn?_eq, List.find?_eq_none] at hin
      exact fun u hu hu' => hin u hu (by rw [hu', beq_self_eq_true])
    rw [varsOf_addDefinition_of_none d hscope hin, List.mem_append] at hv hw
    by_cases hs : s = scope
    · subst hs
      rw [if_pos rfl, List.mem_singleton] at hv hw
      rcases hv with hv | rfl <;> rcases hw with hw | rfl
      · rw [hname s v hv, hname s w hw] at heq
        exact h s v hv w hw heq
      · rw [hname s v hv, hnew] at heq
        exact absurd heq (hother v hv)
      · rw [hname s w hw, hnew] at heq
        exact absurd heq.symm (hother w hw)
      · rfl
    · rw [if_neg hs, or_iff_left List.not_mem_nil] at hv hw
      rw [hname s v hv, hname s w hw] at heq
      exact h s v hv w hw heq

/-- A variable of a scope answers a reference when it has the name and stands for what is asked for. -/
def Answers (g : ScopeGraph) (s : ScopeId) (r : Reference) (v : VariableId) : Prop :=
  v ∈ g.varsOf s ∧ ∃ x, g.vars[v]? = some x ∧ x.name = r.name ∧ x.answers r.use = true

/-- The variable that a scope finds for a name is the one that answers. -/
theorem Named.answerTo?_eq_some_iff (h : g.Named) (hg : g.Sound) {s : ScopeId} {r : Reference}
    {v : VariableId} : g.answerTo? s r.name r.use = some v ↔ g.Answers s r v := by
  rw [answerTo?, Option.filter_eq_some_iff]
  constructor
  · rintro ⟨hin, hany⟩
    obtain ⟨x, hx, -, hname⟩ := hg.of_variableIn? hin
    rw [variableIn?_eq] at hin
    rw [hx, Option.any_some] at hany
    exact ⟨List.mem_of_find?_eq_some hin, x, hx, hname, hany⟩
  · rintro ⟨hv, x, hx, hname, hanswers⟩
    refine ⟨?_, by rw [hx]; exact hanswers⟩
    cases hin : g.variableIn? s r.name with
    | none =>
      rw [variableIn?_eq, List.find?_eq_none] at hin
      exact absurd (by simp [hx, hname]) (hin v hv)
    | some w =>
      obtain ⟨y, hy, -, hyname⟩ := hg.of_variableIn? hin
      rw [variableIn?_eq] at hin
      refine congrArg some (h s w (List.mem_of_find?_eq_some hin) v hv ?_)
      rw [hx, hy, Option.map_some, Option.map_some, hname, hyname]

/-- What an answer is belongs to the scope that gives it. -/
theorem Sound.of_answerTo? (h : g.Sound) {s : ScopeId} {name : String} {use : Use} {v : VariableId}
    (hv : g.answerTo? s name use = some v) : ∃ x, g.vars[v]? = some x ∧ x.scope = s := by
  obtain ⟨x, hx, hscope, -⟩ := h.of_variableIn? (Option.filter_eq_some_iff.mp hv).1
  exact ⟨x, hx, hscope⟩

end Scoping.ScopeGraph

end ScriptAnalysis

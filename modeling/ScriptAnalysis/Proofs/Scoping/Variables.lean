import Mathlib.Data.List.Find
import ScriptAnalysis.Scoping.Analysis

/-!
# The variables of a growing scope graph

What the scopes of a graph declare is `definitionsIn`, and which of their variables answers a name is
`answerTo?`. Only a definition changes what is declared, and only in its own scope; opening a scope,
referring to a name and answering references leave it as it is (`Alike`).
-/

namespace ScriptAnalysis.Scoping

/-- The variable without the references to it. -/
def Variable.core (v : Variable) : Variable := { v with references := [] }

namespace ScopeGraph

/-! ### What is declared -/

/-- The variables of a scope. -/
def varsOf (g : ScopeGraph) (s : ScopeId) : List VariableId := (g.scopes[s]?.map (·.vars)).getD []

/-- The scope that variables declared with `var` in a scope belong to. -/
def variableScopeOf? (g : ScopeGraph) (s : ScopeId) : Option ScopeId :=
  g.scopes[s]?.map (·.variableScope)

/-- The definitions of a name in a scope. -/
def definitionsIn (g : ScopeGraph) (s : ScopeId) (name : String) : List Definition :=
  ((g.variableIn? s name).bind fun v => g.vars[v]?).elim [] (·.definitions)

/-- The variable of a scope that answers a name. -/
def answerTo? (g : ScopeGraph) (s : ScopeId) (name : String) (use : Use) : Option VariableId :=
  (g.variableIn? s name).filter fun v => g.vars[v]?.any (·.answers use)

/-- Every variable that a scope lists belongs to the scope. -/
def Sound (g : ScopeGraph) : Prop := ∀ s, ∀ v ∈ g.varsOf s, ∃ x, g.vars[v]? = some x ∧ x.scope = s

variable {g g' g'' : ScopeGraph}

theorem variableIn?_eq (g : ScopeGraph) (s : ScopeId) (name : String) :
    g.variableIn? s name =
      (g.varsOf s).find? fun v => (g.vars[v]?.map (·.name)) == some name := by
  rw [variableIn?, varsOf]
  cases g.scopes[s]? <;> rfl

theorem answer?_eq (g : ScopeGraph) (s : ScopeId) (i : ReferenceId) :
    g.answer? s i = g.references[i]?.bind fun r => g.answerTo? s r.name r.use := rfl

/-- The variable of a name has the name and belongs to the scope. -/
theorem Sound.of_variableIn? (h : g.Sound) {s : ScopeId} {name : String} {v : VariableId}
    (hv : g.variableIn? s name = some v) :
    ∃ x, g.vars[v]? = some x ∧ x.scope = s ∧ x.name = name := by
  rw [variableIn?_eq] at hv
  obtain ⟨x, hx, hscope⟩ := h s v (List.mem_of_find?_eq_some hv)
  have hname := List.find?_some hv
  rw [hx] at hname
  exact ⟨x, hx, hscope, by simpa using hname⟩

/-- A variable answers when it is defined as what is asked for. -/
theorem answers_iff (x : Variable) (use : Use) :
    x.answers use = true ↔ ∃ d ∈ x.definitions, d.isType = use.isType := by
  rw [Variable.answers]
  cases use.isType <;> simp [Variable.isType, Variable.isValue]

/-- A variable answers a name when the name is defined in the scope as what is asked for. -/
theorem Sound.of_answerTo?_eq_some (h : g.Sound) {s : ScopeId} {name : String} {use : Use}
    {v : VariableId} (hv : g.answerTo? s name use = some v) :
    ∃ x, g.vars[v]? = some x ∧ x.name = name ∧ g.definitionsIn s name = x.definitions ∧
      ∃ d ∈ x.definitions, d.isType = use.isType := by
  obtain ⟨hin, hany⟩ := Option.filter_eq_some_iff.mp hv
  obtain ⟨x, hx, -, hname⟩ := h.of_variableIn? hin
  rw [hx, Option.any_some, answers_iff] at hany
  refine ⟨x, hx, hname, ?_, hany⟩
  rw [definitionsIn, hin, Option.bind_some, hx]
  rfl

/-- Without an answer the name is not defined in the scope as what is asked for. -/
theorem Sound.of_answerTo?_eq_none (h : g.Sound) {s : ScopeId} {name : String} {use : Use}
    (hv : g.answerTo? s name use = none) : ∀ d ∈ g.definitionsIn s name, d.isType ≠ use.isType := by
  intro d hd hd'
  rw [definitionsIn] at hd
  cases hin : g.variableIn? s name with
  | none => simp [hin] at hd
  | some v =>
    obtain ⟨x, hx, -, -⟩ := h.of_variableIn? hin
    rw [hin, Option.bind_some, hx] at hd
    rw [answerTo?, hin, Option.filter_eq_none_iff] at hv
    refine hv v rfl ?_
    rw [hx, Option.any_some, answers_iff]
    exact ⟨d, hd, hd'⟩

/-! ### Graphs that declare the same -/

/-- Both graphs declare the same. -/
structure Alike (g g' : ScopeGraph) : Prop where
  varsOf : ∀ s, g'.varsOf s = g.varsOf s
  core : ∀ v : VariableId, g'.vars[v]?.map Variable.core = g.vars[v]?.map Variable.core

namespace Alike

theorem refl (g : ScopeGraph) : Alike g g := ⟨fun _ => rfl, fun _ => rfl⟩

theorem trans (h : Alike g g') (h' : Alike g' g'') : Alike g g'' :=
  ⟨fun s => (h'.varsOf s).trans (h.varsOf s), fun v => (h'.core v).trans (h.core v)⟩

/-- What does not depend on the references to a variable is the same. -/
theorem map_eq {β : Type} (h : Alike g g') (f : Variable → β) (hf : ∀ x, f x.core = f x)
    (v : VariableId) : g'.vars[v]?.map f = g.vars[v]?.map f := by
  have hcore := congrArg (Option.map f) (h.core v)
  rw [Option.map_map, Option.map_map] at hcore
  have hcomp : f ∘ Variable.core = f := funext hf
  rwa [hcomp] at hcore

theorem variableIn? (h : Alike g g') (s : ScopeId) (name : String) :
    g'.variableIn? s name = g.variableIn? s name := by
  simp only [variableIn?_eq, h.varsOf, h.map_eq (·.name) fun _ => rfl]

theorem definitionsIn (h : Alike g g') (s : ScopeId) (name : String) :
    g'.definitionsIn s name = g.definitionsIn s name := by
  have helim : ∀ x? : Option Variable, x?.elim [] (·.definitions) =
      (x?.map (·.definitions)).getD [] := by
    intro x?
    cases x? <;> rfl
  simp only [ScopeGraph.definitionsIn, h.variableIn?, helim, Option.map_bind]
  congr 2
  funext v
  exact h.map_eq (·.definitions) (fun _ => rfl) v

theorem answerTo? (h : Alike g g') (s : ScopeId) (name : String) (use : Use) :
    g'.answerTo? s name use = g.answerTo? s name use := by
  have hany : ∀ v : VariableId, g'.vars[v]?.any (·.answers use) = g.vars[v]?.any (·.answers use) := by
    intro v
    have hmap := h.map_eq (·.answers use) (fun _ => rfl) v
    have hid : ∀ x? : Option Variable, x?.any (·.answers use) =
        (x?.map (·.answers use)).getD false := by
      intro x?
      cases x? <;> rfl
    rw [hid, hid, hmap]
  simp only [ScopeGraph.answerTo?, h.variableIn?, hany]

theorem sound (h : Alike g g') (hg : g.Sound) : g'.Sound := by
  intro s v hv
  rw [h.varsOf] at hv
  obtain ⟨x, hx, hscope⟩ := hg s v hv
  have hmap := h.map_eq (·.scope) (fun _ => rfl) v
  rw [hx, Option.map_some, Option.map_eq_some_iff] at hmap
  obtain ⟨x', hx', hscope'⟩ := hmap
  exact ⟨x', hx', hscope'.trans hscope⟩

end Alike

/-! ### Steps that declare nothing -/

theorem getElem?_modifyScope (g : ScopeGraph) (s : ScopeId) (f : Scope → Scope) (s' : ScopeId) :
    (g.modifyScope s f).scopes[s']? =
      if s = s' then g.scopes[s']?.map f else g.scopes[s']? :=
  Array.getElem?_modify

/-- What a change of a scope keeps of it, it keeps of all scopes. -/
theorem map_getElem?_modifyScope {β : Type} (g : ScopeGraph) (s : ScopeId) {f : Scope → Scope}
    (k : Scope → β) (hf : ∀ x, k (f x) = k x) (s' : ScopeId) :
    (g.modifyScope s f).scopes[s']?.map k = g.scopes[s']?.map k := by
  rw [getElem?_modifyScope]
  by_cases h : s = s'
  · rw [if_pos h, Option.map_map]
    exact congrArg (fun f => g.scopes[s']?.map f) (funext hf)
  · rw [if_neg h]

theorem alike_modifyScope (g : ScopeGraph) (s : ScopeId) {f : Scope → Scope}
    (hf : ∀ x, (f x).vars = x.vars) : Alike g (g.modifyScope s f) where
  varsOf s' := by rw [varsOf, varsOf, map_getElem?_modifyScope g s (·.vars) hf]
  core _ := rfl

/-- The scope that a step opens inside another one. -/
def newScope (g : ScopeGraph) (type : ScopeType) (block : Ast.NodeId) (upper? : Option ScopeId)
    (startsStrict : Bool) : Scope :=
  let around? := upper?.bind fun upper => g.scopes[upper]?
  { type, block, upper?
    children := []
    variableScope :=
      if type.isVariableScope then g.scopes.size
      else around?.elim g.scopes.size (·.variableScope)
    isStrict := startsStrict || around?.any (·.isStrict)
    vars := []
    references := []
    through := [] }

section AddScope

variable (g : ScopeGraph) (type : ScopeType) (block : Ast.NodeId) (upper? : Option ScopeId)
  (startsStrict : Bool)

@[simp] theorem size_scopes_addScope :
    (g.addScope type block upper? startsStrict).scopes.size = g.scopes.size + 1 := by
  cases upper? <;> simp [addScope, modifyScope]

@[simp] theorem references_addScope :
    (g.addScope type block upper? startsStrict).references = g.references := by
  cases upper? <;> rfl

/-- There is one more scope, and the others stay as they are up to their children. -/
theorem map_getElem?_addScope {β : Type} {k : Scope → β}
    (hk : ∀ x children, k { x with children } = k x) (s : ScopeId) :
    (g.addScope type block upper? startsStrict).scopes[s]?.map k =
      (g.scopes.push (g.newScope type block upper? startsStrict))[s]?.map k := by
  cases upper? with
  | none => rfl
  | some upper => exact map_getElem?_modifyScope { g with scopes := _ } upper k (fun x => hk x _) s

theorem alike_addScope : Alike g (g.addScope type block upper? startsStrict) where
  varsOf s := by
    rw [varsOf, varsOf, map_getElem?_addScope g _ _ _ _ fun _ _ => rfl, Array.getElem?_push]
    by_cases hs : s = g.scopes.size
    · rw [if_pos hs, hs, Array.getElem?_size]
      rfl
    · rw [if_neg hs]
  core v := by cases upper? <;> rfl

/-- The scope for `var` of a new scope is the scope itself or that of the scope around. -/
theorem variableScopeOf?_addScope (s : ScopeId) :
    (g.addScope type block upper? startsStrict).variableScopeOf? s =
      if s = g.scopes.size then
        some (if type.isVariableScope then g.scopes.size
          else (upper?.bind g.variableScopeOf?).getD g.scopes.size)
      else g.variableScopeOf? s := by
  rw [variableScopeOf?, map_getElem?_addScope g _ _ _ _ fun _ _ => rfl, Array.getElem?_push]
  by_cases hs : s = g.scopes.size
  · rw [if_pos hs, if_pos hs, Option.map_some, newScope]
    cases upper? with
    | none => rfl
    | some upper =>
      simp only [Option.bind_some, variableScopeOf?]
      cases g.scopes[upper]? <;> rfl
  · rw [if_neg hs, if_neg hs]
    rfl

end AddScope

theorem alike_addReference (g : ScopeGraph) (s : ScopeId) (name : String) (identifier : Ast.NodeId)
    (use : Use) : Alike g (g.addReference s name identifier use) := by
  have h : Alike g { g with references := g.references.push ⟨identifier, name, s, use, none⟩ } :=
    ⟨fun _ => rfl, fun _ => rfl⟩
  exact h.trans (alike_modifyScope _ s fun _ => rfl)

theorem alike_resolve (g : ScopeGraph) (answered : ReferenceId × VariableId) :
    Alike g (g.resolve answered) where
  varsOf _ := rfl
  core v := by
    obtain ⟨reference, id⟩ := answered
    show (g.vars.modify id _)[v]?.map Variable.core = _
    rw [Array.getElem?_modify]
    split
    · rw [Option.map_map]
      rfl
    · rfl

theorem alike_foldl_resolve (g : ScopeGraph) (answered : List (ReferenceId × VariableId)) :
    Alike g (answered.foldl resolve g) := by
  induction answered generalizing g with
  | nil => exact .refl g
  | cons a as ih => exact (alike_resolve g a).trans (ih _)

theorem alike_settle (g : ScopeGraph) (s : ScopeId) (waiting : List ReferenceId) :
    Alike g (g.settle s waiting) :=
  (alike_foldl_resolve g _).trans (alike_modifyScope _ s fun _ => rfl)

/-! ### Definitions -/

section AddDefinition

variable {scope : ScopeId} {name : String} (d : Definition)

theorem addDefinition_of_some {v : VariableId} (hv : g.variableIn? scope name = some v) :
    g.addDefinition scope name d =
      { g with
        vars := g.vars.modify v fun x => { x with definitions := x.definitions ++ [d] }
        definitions := g.definitions.push (v, d) } := by
  rw [addDefinition, variableFor, hv]
  rfl

theorem addDefinition_of_none (hv : g.variableIn? scope name = none) :
    g.addDefinition scope name d =
      { g with
        vars := g.vars.push ⟨name, scope, [d], []⟩
        definitions := g.definitions.push (g.vars.size, d) }.modifyScope scope
          fun s => { s with vars := s.vars ++ [g.vars.size] } := by
  rw [addDefinition, variableFor, hv]
  rfl

@[simp] theorem references_addDefinition :
    (g.addDefinition scope name d).references = g.references := by
  rw [addDefinition]
  split <;> rfl

@[simp] theorem definitions_addDefinition :
    (g.addDefinition scope name d).definitions = g.definitions.push (g.variableFor scope name, d) := by
  rw [addDefinition]
  split <;> rfl

/-- A definition changes only what variables the scope has. -/
theorem map_getElem?_addDefinition {β : Type} {k : Scope → β}
    (hk : ∀ x vars, k { x with vars } = k x) (s : ScopeId) :
    (g.addDefinition scope name d).scopes[s]?.map k = g.scopes[s]?.map k := by
  cases hv : g.variableIn? scope name with
  | some v => rw [addDefinition_of_some d hv]
  | none =>
    rw [addDefinition_of_none d hv]
    exact map_getElem?_modifyScope { g with vars := _, definitions := _ } scope k (fun x => hk x _) s

theorem variableScopeOf?_addDefinition (s : ScopeId) :
    (g.addDefinition scope name d).variableScopeOf? s = g.variableScopeOf? s :=
  map_getElem?_addDefinition d (fun _ _ => rfl) s

@[simp] theorem size_scopes_addDefinition :
    (g.addDefinition scope name d).scopes.size = g.scopes.size := by
  rw [addDefinition]
  split <;> simp [modifyScope]

theorem varsOf_addDefinition_of_none (hscope : scope < g.scopes.size)
    (hv : g.variableIn? scope name = none) (s : ScopeId) :
    (g.addDefinition scope name d).varsOf s =
      g.varsOf s ++ if s = scope then [g.vars.size] else [] := by
  rw [addDefinition_of_none d hv, varsOf, getElem?_modifyScope, varsOf]
  by_cases hs : scope = s
  · subst hs
    rw [if_pos rfl, if_pos rfl]
    simp [Array.getElem?_eq_getElem hscope]
  · rw [if_neg hs, if_neg (Ne.symm hs), List.append_nil]

theorem varsOf_addDefinition_of_some {v : VariableId} (hv : g.variableIn? scope name = some v)
    (s : ScopeId) : (g.addDefinition scope name d).varsOf s = g.varsOf s := by
  rw [addDefinition_of_some d hv]
  rfl

/-- A variable that was there before keeps everything but its definitions. -/
theorem map_vars_addDefinition {β : Type} {k : Variable → β}
    (hk : ∀ x definitions, k { x with definitions } = k x) {v : VariableId} (hlt : v < g.vars.size) :
    (g.addDefinition scope name d).vars[v]?.map k = g.vars[v]?.map k := by
  cases hv : g.variableIn? scope name with
  | some v' =>
    rw [addDefinition_of_some d hv, Array.getElem?_modify]
    split
    · rw [Option.map_map]
      exact congrArg (fun f => g.vars[v]?.map f) (funext fun x => hk x _)
    · rfl
  | none =>
    rw [addDefinition_of_none d hv]
    show (g.vars.push _)[v]?.map k = _
    rw [Array.getElem?_push, if_neg (Nat.ne_of_lt hlt)]

theorem Sound.lt_size (hg : g.Sound) {s : ScopeId} {v : VariableId} (hv : v ∈ g.varsOf s) :
    v < g.vars.size := by
  obtain ⟨x, hx, -⟩ := hg s v hv
  exact (Array.getElem?_eq_some_iff.mp hx).1

/-- A definition gives the name its variable and leaves those of other names and scopes. -/
theorem Sound.variableIn?_addDefinition (hg : g.Sound) (hscope : scope < g.scopes.size) (s : ScopeId)
    (n : String) :
    (g.addDefinition scope name d).variableIn? s n =
      if s = scope ∧ n = name then some (g.variableFor scope name) else g.variableIn? s n := by
  have hold : (g.varsOf s).find? (fun v =>
      ((g.addDefinition scope name d).vars[v]?.map (·.name)) == some n) = g.variableIn? s n := by
    rw [variableIn?_eq]
    refine List.find?_congr fun v hv => ?_
    rw [map_vars_addDefinition d (fun _ _ => rfl) (hg.lt_size hv)]
  rw [variableIn?_eq, variableFor]
  cases hv : g.variableIn? scope name with
  | some v =>
    rw [varsOf_addDefinition_of_some d hv, hold]
    split
    · rename_i h
      rw [h.1, h.2, hv]
      rfl
    · rfl
  | none =>
    rw [varsOf_addDefinition_of_none d hscope hv, List.find?_append, hold]
    have hnew : (g.addDefinition scope name d).vars[g.vars.size]?.map (·.name) = some name := by
      rw [addDefinition_of_none d hv]
      show (g.vars.push _)[g.vars.size]?.map (·.name) = _
      rw [Array.getElem?_push_size]
      rfl
    by_cases hs : s = scope
    · by_cases hn : n = name
      · subst hs hn
        simp [hv, hnew]
      · simp [hs, hn, hnew, Ne.symm hn]
    · simp [hs]

theorem Sound.addDefinition (hg : g.Sound) (hscope : scope < g.scopes.size) :
    (g.addDefinition scope name d).Sound := by
  have hold : ∀ s, ∀ v ∈ g.varsOf s,
      ∃ x, (g.addDefinition scope name d).vars[v]? = some x ∧ x.scope = s := by
    intro s v hv
    obtain ⟨x, hx, hxs⟩ := hg s v hv
    have hmap : (g.addDefinition scope name d).vars[v]?.map (·.scope) = g.vars[v]?.map (·.scope) :=
      map_vars_addDefinition d (fun _ _ => rfl) (hg.lt_size hv)
    rw [hx, Option.map_some, Option.map_eq_some_iff] at hmap
    obtain ⟨x', hx', hxs'⟩ := hmap
    exact ⟨x', hx', hxs'.trans hxs⟩
  intro s v hv
  cases hin : g.variableIn? scope name with
  | some v' =>
    rw [varsOf_addDefinition_of_some d hin] at hv
    exact hold s v hv
  | none =>
    rw [varsOf_addDefinition_of_none d hscope hin, List.mem_append] at hv
    rcases hv with hv | hv
    · exact hold s v hv
    · split at hv
      · rename_i hs
        rw [List.mem_singleton] at hv
        refine ⟨⟨name, scope, [d], []⟩, ?_, hs.symm⟩
        rw [addDefinition_of_none d hin, hv]
        exact Array.getElem?_push_size
      · simp at hv

/-- A definition is added to those of its name in its scope. -/
theorem Sound.definitionsIn_addDefinition (hg : g.Sound) (hscope : scope < g.scopes.size)
    (s : ScopeId) (n : String) :
    (g.addDefinition scope name d).definitionsIn s n =
      g.definitionsIn s n ++ if s = scope ∧ n = name then [d] else [] := by
  rw [definitionsIn, hg.variableIn?_addDefinition d hscope]
  by_cases h : s = scope ∧ n = name
  · rw [if_pos h, if_pos h, h.1, h.2, Option.bind_some, definitionsIn, variableFor]
    cases hv : g.variableIn? scope name with
    | some v =>
      obtain ⟨x, hx, -⟩ := hg.of_variableIn? hv
      rw [addDefinition_of_some d hv]
      simp [Array.getElem?_modify, hx]
    | none =>
      rw [addDefinition_of_none d hv]
      show ((g.vars.push _)[g.vars.size]?).elim _ _ = _
      rw [Array.getElem?_push_size]
      rfl
  · rw [if_neg h, if_neg h, List.append_nil, definitionsIn]
    cases hv : g.variableIn? s n with
    | none => rfl
    | some v =>
      obtain ⟨x, hx, hxs, hxn⟩ := hg.of_variableIn? hv
      have hlt := (Array.getElem?_eq_some_iff.mp hx).1
      rw [Option.bind_some, Option.bind_some]
      cases hv' : g.variableIn? scope name with
      | some v' =>
        have hne : v' ≠ v := by
          rintro rfl
          obtain ⟨x', hx', hxs', hxn'⟩ := hg.of_variableIn? hv'
          rw [hx] at hx'
          cases hx'
          exact h ⟨hxs.symm.trans hxs', hxn.symm.trans hxn'⟩
        rw [addDefinition_of_some d hv', Array.getElem?_modify, if_neg hne]
      | none =>
        rw [addDefinition_of_none d hv']
        show ((g.vars.push _)[v]?).elim _ _ = _
        rw [Array.getElem?_push, if_neg (Nat.ne_of_lt hlt)]

/-- In the other scopes the same names are answered by the same variables. -/
theorem Sound.answerTo?_addDefinition (hg : g.Sound) (hscope : scope < g.scopes.size) {s : ScopeId}
    (hs : s ≠ scope) (n : String) (use : Use) :
    (g.addDefinition scope name d).answerTo? s n use = g.answerTo? s n use := by
  have hin : (g.addDefinition scope name d).variableIn? s n = g.variableIn? s n := by
    rw [hg.variableIn?_addDefinition d hscope, if_neg fun h => hs h.1]
  rw [answerTo?, answerTo?, hin]
  cases hv : g.variableIn? s n with
  | none => rfl
  | some v =>
    obtain ⟨x, hx, hxs, -⟩ := hg.of_variableIn? hv
    have hdefs : (g.addDefinition scope name d).definitionsIn s n = g.definitionsIn s n ++ _ :=
      hg.definitionsIn_addDefinition d hscope s n
    rw [if_neg fun h => hs h.1, List.append_nil, definitionsIn, hin, hv, definitionsIn, hv] at hdefs
    have hg' : (g.addDefinition scope name d).Sound := hg.addDefinition d hscope
    obtain ⟨x', hx', -⟩ := hg'.of_variableIn? (hin.trans hv)
    rw [Option.bind_some, Option.bind_some, hx, hx', Option.elim_some, Option.elim_some] at hdefs
    have hany : x'.answers use = x.answers use := by
      rw [Bool.eq_iff_iff, answers_iff, answers_iff, hdefs]
    rw [Option.filter_some, Option.filter_some, hx, hx', Option.any_some, Option.any_some, hany]

end AddDefinition

end ScopeGraph

end ScriptAnalysis.Scoping

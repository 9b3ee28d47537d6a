import ScriptAnalysis.Scoping.Action

/-!
# Scope analysis

The scope graph of a program, built by following the actions of the walk. References wait in the scope
they stand in. When a scope is closed, its variables answer those they can, and the rest wait on in the
scope around it; so a declaration answers references that stand before it as well as after it.
-/

namespace ScriptAnalysis.Scoping

/-! ### Changes to a graph -/

namespace ScopeGraph

/-- The graph with a scope changed. -/
def modifyScope (g : ScopeGraph) (scope : ScopeId) (f : Scope → Scope) : ScopeGraph :=
  { g with scopes := g.scopes.modify scope f }

/-- The graph with a scope inside another one, if there is another one. The strict rules of the scope
around hold in it too. -/
def addScope (g : ScopeGraph) (type : ScopeType) (block : Ast.NodeId) (upper? : Option ScopeId)
    (startsStrict : Bool) : ScopeGraph :=
  let id := g.scopes.size
  let around? := upper?.bind fun upper => g.scopes[upper]?
  let scope : Scope :=
    { type, block, upper?
      children := []
      variableScope := if type.isVariableScope then id else around?.elim id (·.variableScope)
      isStrict := startsStrict || around?.any (·.isStrict)
      vars := []
      references := []
      through := [] }
  let g := { g with scopes := g.scopes.push scope }
  upper?.elim g fun upper => g.modifyScope upper fun s => { s with children := s.children ++ [id] }

/-- The number of the variable that a scope has or would get for a name. -/
def variableFor (g : ScopeGraph) (scope : ScopeId) (name : String) : VariableId :=
  (g.variableIn? scope name).getD g.vars.size

/-- The graph with a definition of a name in a scope. The first one makes the variable. -/
def addDefinition (g : ScopeGraph) (scope : ScopeId) (name : String) (d : Definition) : ScopeGraph :=
  let id := g.variableFor scope name
  let definitions := g.definitions.push (id, d)
  match g.variableIn? scope name with
  | some _ =>
    { g with
      vars := g.vars.modify id fun v => { v with definitions := v.definitions ++ [d] }
      definitions }
  | none =>
    { g with vars := g.vars.push ⟨name, scope, [d], []⟩, definitions }.modifyScope scope
      fun s => { s with vars := s.vars ++ [id] }

/-- The graph with a reference that stands in a scope. -/
def addReference (g : ScopeGraph) (scope : ScopeId) (name : String) (identifier : Ast.NodeId)
    (use : Use) : ScopeGraph :=
  let id := g.references.size
  { g with references := g.references.push ⟨identifier, name, scope, use, none⟩ }.modifyScope scope
    fun s => { s with references := s.references ++ [id] }

/-- The variable of a scope that answers a reference. -/
def answer? (g : ScopeGraph) (scope : ScopeId) (reference : ReferenceId) : Option VariableId :=
  g.references[reference]?.bind fun r =>
    (g.variableIn? scope r.name).filter fun v => g.vars[v]?.any (·.answers r.use)

/-- The graph with a reference that means a variable. -/
def resolve (g : ScopeGraph) (answered : ReferenceId × VariableId) : ScopeGraph :=
  let (reference, id) := answered
  { g with
    references := g.references.modify reference fun r => { r with target? := some id }
    vars := g.vars.modify id fun v => { v with references := v.references ++ [reference] } }

/-- The waiting references that a scope answers, each with its variable. -/
def answered (g : ScopeGraph) (scope : ScopeId) (waiting : List ReferenceId) :
    List (ReferenceId × VariableId) :=
  waiting.filterMap fun reference => (g.answer? scope reference).map fun v => (reference, v)

/-- The waiting references that a scope does not answer. -/
def unanswered (g : ScopeGraph) (scope : ScopeId) (waiting : List ReferenceId) : List ReferenceId :=
  waiting.filter fun reference => (g.answer? scope reference).isNone

/-- The graph after a scope has answered what it can. -/
def settle (g : ScopeGraph) (scope : ScopeId) (waiting : List ReferenceId) : ScopeGraph :=
  ((g.answered scope waiting).foldl resolve g).modifyScope scope fun s =>
    { s with through := s.through ++ g.unanswered scope waiting }

end ScopeGraph

/-! ### Following the walk -/

/-- An open scope with the references that wait in it, in source order. -/
structure OpenScope where
  /-- The scope. -/
  scope : ScopeId
  /-- The waiting references. -/
  waiting : List ReferenceId
  deriving DecidableEq, Repr

/-- How far the analysis has got. -/
structure Progress where
  /-- The graph so far. -/
  graph : ScopeGraph := {}
  /-- The open scopes, innermost first. -/
  openScopes : List OpenScope := []
  deriving DecidableEq, Repr

namespace Progress

/-- References join those that wait in the innermost scope. -/
def addWaiting (references : List ReferenceId) : List OpenScope → List OpenScope
  | [] => []
  | o :: os => { o with waiting := o.waiting ++ references } :: os

/-- The progress after an action. Outside all scopes nothing but opening one has an effect. -/
def step (p : Progress) (action : Action) : Progress :=
  let g := p.graph
  match action, p.openScopes with
  | .openScope type block startsStrict, os =>
    ⟨g.addScope type block (os.head?.map (·.scope)) startsStrict, ⟨g.scopes.size, []⟩ :: os⟩
  | .closeScope, o :: os =>
    ⟨g.settle o.scope o.waiting, addWaiting (g.unanswered o.scope o.waiting) os⟩
  | .define isHoisted name definition, o :: os =>
    let scope :=
      if isHoisted then (g.scopes[o.scope]?).elim o.scope (·.variableScope) else o.scope
    ⟨g.addDefinition scope name definition, o :: os⟩
  | .refer name identifier use, o :: os =>
    ⟨g.addReference o.scope name identifier use, addWaiting [g.references.size] (o :: os)⟩
  | _, [] => p

/-- The progress after actions. -/
def follow (p : Progress) (actions : List Action) : Progress := actions.foldl step p

@[simp] theorem follow_nil (p : Progress) : p.follow [] = p := rfl

@[simp] theorem follow_cons (p : Progress) (a : Action) (as : List Action) :
    p.follow (a :: as) = (p.step a).follow as := rfl

@[simp] theorem follow_append (p : Progress) (as bs : List Action) :
    p.follow (as ++ bs) = (p.follow as).follow bs := List.foldl_append

end Progress

/-- The scope graph of a program. -/
def ScopeGraph.ofTree (options : Options) (t : Ast.Tree) : ScopeGraph :=
  (Progress.follow { graph := { options } } (Action.ofProgram options t)).graph

end ScriptAnalysis.Scoping

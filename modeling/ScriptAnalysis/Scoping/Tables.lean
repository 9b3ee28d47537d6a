import ScriptAnalysis.Scoping.Action
import ScriptAnalysis.Table

/-!
# Scope analysis with tables

The scopes, variables and references of a program as they are stored while the walk goes on: each scope
has a table of its variables by name and a list of the references that wait in it, each variable keeps
the names that declare it and whether it stands for a value or a type, and two more tables know the
scopes that a node opens and the variables that it declares. A `ScopeGraph` reads all of that off the
rest; here every step of the walk brings each table up to date.
-/

namespace ScriptAnalysis.Scoping

open Ast (NodeId)

/-- A scope as it is stored. -/
structure ScopeRow extends Scope where
  /-- Its variables by their names. -/
  byName : Table VariableId
  /-- The references that wait until it is closed. -/
  waiting : List ReferenceId

/-- A variable as it is stored. -/
structure VariableRow extends Variable where
  /-- The declared names. -/
  names : List NodeId
  /-- Whether it stands for a value. -/
  standsForValue : Bool
  /-- Whether it stands for a type. -/
  standsForType : Bool

namespace VariableRow

/-- A variable that is not defined yet. -/
def new (name : String) (scope : ScopeId) : VariableRow :=
  { name, scope
    definitions := []
    references := []
    names := []
    standsForValue := false
    standsForType := false }

/-- The variable with one more definition. -/
def addDefinition (x : VariableRow) (d : Definition) : VariableRow :=
  { x with
    definitions := x.definitions ++ [d]
    names := x.names ++ [d.name]
    standsForValue := x.standsForValue || !d.isType
    standsForType := x.standsForType || d.isType }

/-- Whether the variable can answer a reference. -/
def answers (x : VariableRow) (use : Use) : Bool :=
  if use.isType then x.standsForType else x.standsForValue

end VariableRow

/-- The scopes, variables and references of a program with everything that is looked up in them. -/
structure ScopeTables where
  /-- How the program is analysed. -/
  options : Options := {}
  /-- The scopes; the outermost is the first. -/
  scopes : Array ScopeRow := #[]
  /-- The variables. -/
  vars : Array VariableRow := #[]
  /-- The references. -/
  references : Array Reference := #[]
  /-- By node, the scopes that it opens, outermost first. -/
  opened : NodeId → List ScopeId := fun _ => []
  /-- By node, the variables that it declares. -/
  declared : NodeId → List VariableId := fun _ => []

namespace ScopeTables

/-! ### Changes -/

/-- The tables with a scope changed. -/
def modifyScope (t : ScopeTables) (scope : ScopeId) (f : ScopeRow → ScopeRow) : ScopeTables :=
  { t with scopes := t.scopes.modify scope f }

/-- The tables with a variable changed. -/
def modifyVariable (t : ScopeTables) (id : VariableId) (f : VariableRow → VariableRow) :
    ScopeTables :=
  { t with vars := t.vars.modify id f }

/-- The row of a scope inside another one, if there is another one. -/
def newRow (t : ScopeTables) (type : ScopeType) (block : NodeId) (upper? : Option ScopeId)
    (isStrict : Bool) : ScopeRow :=
  let id := t.scopes.size
  let around? := upper?.bind fun upper => t.scopes[upper]?
  { type, block, upper?
    children := []
    variableScope := if type.isVariableScope then id else around?.elim id (·.variableScope)
    isStrict
    vars := []
    references := []
    through := []
    byName := .empty
    waiting := [] }

/-- The tables with one more scope, which the scope around it lists. -/
def pushScope (t : ScopeTables) (type : ScopeType) (block : NodeId) (upper? : Option ScopeId)
    (isStrict : Bool) : ScopeTables :=
  let id := t.scopes.size
  let t :=
    { t with
      scopes := t.scopes.push (t.newRow type block upper? isStrict)
      opened := fun node => if node = block then t.opened node ++ [id] else t.opened node }
  upper?.elim t fun upper => t.modifyScope upper fun s => { s with children := s.children ++ [id] }

/-- The tables with a variable among those that a node declares. -/
def declareOn (t : ScopeTables) (id : VariableId) (node : NodeId) : ScopeTables :=
  { t with
    declared := fun n =>
      if n = node ∧ id ∉ t.declared n then t.declared n ++ [id] else t.declared n }

/-- The variable of a scope that has a name. -/
def find? (t : ScopeTables) (scope : ScopeId) (name : String) : Option VariableId :=
  t.scopes[scope]?.bind (·.byName.get? name)

/-- The tables with a variable that has not been there. -/
def pushVariable (t : ScopeTables) (scope : ScopeId) (name : String) : ScopeTables :=
  let id := t.vars.size
  { t with vars := t.vars.push (.new name scope) }.modifyScope scope fun s =>
    { s with byName := s.byName.insert name id, vars := s.vars ++ [id] }

/-- The tables with a definition of a name in a scope. The first one makes the variable. -/
def define (t : ScopeTables) (scope : ScopeId) (name : String) (d : Definition) : ScopeTables :=
  let (id, t) := match t.find? scope name with
    | some id => (id, t)
    | none => (t.vars.size, t.pushVariable scope name)
  (d.node :: d.parent?.toList).foldl (·.declareOn id) (t.modifyVariable id (·.addDefinition d))

/-- The tables with a reference that stands in a scope. -/
def pushReference (t : ScopeTables) (scope : ScopeId) (name : String) (identifier : NodeId)
    (use : Use) : ScopeTables :=
  let id := t.references.size
  { t with references := t.references.push ⟨identifier, name, scope, use, none⟩ }.modifyScope scope
    fun s => { s with references := s.references ++ [id], waiting := s.waiting ++ [id] }

/-- The variable of a scope that answers a reference. -/
def answer? (t : ScopeTables) (scope : ScopeId) (reference : ReferenceId) : Option VariableId :=
  t.references[reference]?.bind fun r =>
    (t.find? scope r.name).filter fun v => t.vars[v]?.any (·.answers r.use)

/-- The tables after a scope has answered a reference, or has passed it on to the scope around. -/
def settle (scope : ScopeId) (upper? : Option ScopeId) (t : ScopeTables) (reference : ReferenceId) :
    ScopeTables :=
  match t.answer? scope reference with
  | some v =>
    { t with references := t.references.modify reference fun r => { r with target? := some v } }
      |>.modifyVariable v fun x => { x with references := x.references ++ [reference] }
  | none =>
    let t := t.modifyScope scope fun s => { s with through := s.through ++ [reference] }
    upper?.elim t fun upper =>
      t.modifyScope upper fun s => { s with waiting := s.waiting ++ [reference] }

/-- The tables after a scope has been closed. -/
def close (t : ScopeTables) (scope : ScopeId) : ScopeTables :=
  match t.scopes[scope]? with
  | none => t
  | some s =>
    s.waiting.foldl (settle scope s.upper?) (t.modifyScope scope fun s => { s with waiting := [] })

end ScopeTables

/-! ### Following the walk -/

/-- How far the walk has got. -/
structure TableWalk where
  /-- The tables so far. -/
  tables : ScopeTables := {}
  /-- The scope that was opened last and is still open. -/
  current? : Option ScopeId := none

namespace TableWalk

/-- The walk after an action. Outside all scopes nothing but opening one has an effect. -/
def step (w : TableWalk) (action : Action) : TableWalk :=
  let t := w.tables
  match action, w.current? with
  | .openScope type block startsStrict, current? =>
    let isStrict := (current?.bind fun s => t.scopes[s]?).any (·.isStrict) || startsStrict
    ⟨t.pushScope type block current? isStrict, some t.scopes.size⟩
  | .closeScope, some scope => ⟨t.close scope, t.scopes[scope]?.bind (·.upper?)⟩
  | .define isHoisted name definition, some scope =>
    let home := if isHoisted then (t.scopes[scope]?).elim scope (·.variableScope) else scope
    ⟨t.define home name definition, some scope⟩
  | .refer name identifier use, some scope =>
    ⟨t.pushReference scope name identifier use, some scope⟩
  | _, none => w

/-- The walk after actions. -/
def follow (w : TableWalk) (actions : List Action) : TableWalk := actions.foldl step w

end TableWalk

/-- The tables of a program. -/
def ScopeTables.ofTree (options : Options) (t : Ast.Tree) : ScopeTables :=
  (TableWalk.follow { tables := { options } } (Action.ofProgram options t)).tables

end ScriptAnalysis.Scoping

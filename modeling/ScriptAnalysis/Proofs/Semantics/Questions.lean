import ScriptAnalysis.Semantics.Checker

/-!
# Questions do not depend on each other

A checker keeps one set while it computes types. Whatever it computes, it leaves the set as it found it
(`Asking.Restores`), also where it comes back to a node that it is computing already: the function that
adds a node to the set takes it out again (`View.restores_askWithin`), and every other function keeps the set
if the questions it asks do. So a checker is as good as new after every question
(`Checker.answer_ofProgram`), and what it answers is what the program alone says
(`Checker.answers_ofProgram`).
-/

namespace ScriptAnalysis.Semantics

open Syntax

variable {α β : Type} {s : IdSet}

namespace Asking

/-- While the set is kept, `x` computes `a` and leaves the set as it was. -/
def Restores (x : Asking α) (s : IdSet) (a : α) : Prop := x.run s = (a, s)

theorem restores_pure (a : α) : Restores (pure a) s a := rfl

theorem Restores.bind {x : Asking α} {f : α → Asking β} {a : α} {b : β} (hx : Restores x s a)
    (hf : Restores (f a) s b) : Restores (x >>= f) s b := by
  rw [Restores, StateT.run_bind, hx]
  exact hf

/-- Computing further without asking changes nothing about the set. -/
theorem Restores.then_pure {x : Asking α} {a : α} (hx : Restores x s a) (f : α → β) :
    Restores (x >>= fun a => pure (f a)) s (f a) :=
  hx.bind (restores_pure _)

theorem Restores.ite {c : Prop} [Decidable c] {x y : Asking α} {a b : α} (hx : Restores x s a)
    (hy : Restores y s b) : Restores (if c then x else y) s (if c then a else b) := by
  split
  · exact hx
  · exact hy

theorem restores_mapM {f : β → Asking α} {g : β → α} (h : ∀ b, Restores (f b) s (g b)) (bs : List β) :
    Restores (bs.mapM f) s (bs.map g) := by
  induction bs with
  | nil => exact restores_pure _
  | cons b bs ih =>
    rw [List.mapM_cons]
    exact (h b).bind (ih.then_pure _)

end Asking

open Asking

namespace View

variable {v : View} {ask : NodeId → Asking Ty} {types : NodeId → Ty}

/-! ### Types -/

section

variable (hask : ∀ id, Restores (ask id) s (types id))

include hask

theorem restores_askOption (id? : Option NodeId) :
    Restores (askOption ask id?) s ((id?.map types).getD .any) := by
  cases id? with
  | none => exact restores_pure _
  | some id => exact hask id

theorem restores_askBinary (op : BinaryOperator) (left right : NodeId) :
    Restores (v.askBinary ask op left right) s (v.binaryType types op left right) := by
  cases op with
  | assign | and => exact hask right
  | or => exact (hask left).bind ((hask right).then_pure fun r => Ty.unionOf v.strict [types left, r])
  | plus | plusAssign => exact (hask left).bind ((hask right).then_pure fun r => sumType (types left) r)
  | _ => exact restores_pure _

theorem restores_askWidened (id : NodeId) :
    Restores (v.askWidened ask id) s ((types id).widen v.strict) :=
  (hask id).then_pure (·.widen v.strict)

theorem restores_askReturned (expr? : Option (Node Place)) :
    Restores (v.askReturned ask expr?) s
      (match expr? with
        | some expr => (types expr.id).widen v.strict
        | none => .undefined) := by
  cases expr? with
  | none => exact restores_pure _
  | some expr => exact restores_askWidened hask expr.id

theorem restores_askIdentifier (id : NodeId) (text : String) :
    Restores (v.askIdentifier ask id text) s (v.identifierType types id text) := by
  rw [askIdentifier, identifierType]
  cases v.binding? with
  | none => exact restores_pure _
  | some binding =>
    refine Restores.ite (restores_askOption hask _) ?_
    cases binding.resolvedSymbol? id with
    | some symbol => exact restores_askOption hask _
    | none =>
      cases v.tree.parentNode? id with
      | none => exact restores_pure _
      | some parent =>
        dsimp only
        cases parent.kind with
        | propertyAccess object name => exact Restores.ite (hask _) (restores_pure _)
        | _ => exact restores_pure _

theorem restores_askVariable (id init : NodeId) :
    Restores (v.askVariable ask id init) s
      (if v.variableKind? id = some .const then (types init).widenNullish v.strict
        else (types init).widen v.strict) :=
  (hask init).then_pure fun type =>
    if v.variableKind? id = some .const then type.widenNullish v.strict else type.widen v.strict

theorem restores_askParams (params : List (Node Place)) :
    Restores (askParams ask params) s
      (params.filterMap fun p => match p.kind with
        | .parameter name _ init? =>
          some { name := name.text, type := types p.id, optional := init?.isSome : Param Ty }
        | _ => none) := by
  induction params with
  | nil => exact restores_pure _
  | cons p ps ih =>
    rw [askParams, List.filterMap_cons]
    cases p.kind with
    | parameter name type? init? => exact (hask p.id).bind (ih.then_pure _)
    | _ => exact ih

end

mutual

theorem restores_askWritten (hask : ∀ id, Restores (ask id) s (types id)) :
    (n : Node Place) → Restores (v.askWritten ask n) s (v.writtenType types n)
  | .mk l k => by
    cases k <;> rw [askWritten, writtenType]
    case keywordType => exact restores_pure _
    case typeReference name => exact restores_askOption hask _
    case arrayType element => exact (restores_askWritten hask element).then_pure Ty.array
    case unionType members =>
      exact (restores_askWrittenList hask members).then_pure (Ty.unionOf v.strict)
    all_goals first | exact restores_pure _ | nofun

theorem restores_askWrittenList (hask : ∀ id, Restores (ask id) s (types id)) :
    (ns : List (Node Place)) → Restores (v.askWrittenList ask ns) s (v.writtenTypes types ns)
  | [] => by
    rw [askWrittenList, writtenTypes]
    exact restores_pure _
  | n :: ns => by
    rw [askWrittenList, writtenTypes]
    exact (restores_askWritten hask n).bind ((restores_askWrittenList hask ns).then_pure _)

end

section

variable (hask : ∀ id, Restores (ask id) s (types id))

include hask

theorem restores_askFunction (params : List (Node Place)) (returnType? : Option (Node Place))
    (body : Node Place) :
    Restores (v.askFunction ask params returnType? body) s
      (v.functionType types params returnType? body) := by
  refine (restores_askParams hask params).bind (Restores.then_pure ?_ _)
  unfold askResult
  cases returnType? with
  | some type => exact restores_askWritten hask type
  | none =>
    dsimp only
    cases body.kind with
    | block statements =>
      exact (restores_pure _).ite
        ((restores_mapM (restores_askReturned hask) _).then_pure (Ty.unionOf v.strict))
    | _ => exact restores_askWidened hask body.id

/-- The type of a node is computed without a change of the set when the types it is computed from are. -/
theorem restores_askComputed (n : Node Place) :
    Restores (v.askComputed ask n) s (v.computeType types n) := by
  obtain ⟨l, k⟩ := n
  cases k with
  | arrayLiteral elements =>
    cases elements with
    | nil => exact restores_pure _
    | cons e es =>
      exact (restores_mapM (fun e => restores_askWidened hask e.id) (e :: es)).then_pure fun ts =>
        Ty.array (Ty.unionOf v.strict ts)
  | parenthesized expr => exact hask expr.id
  | identifier text => exact restores_askIdentifier hask l.id text
  | variableDeclaration name type? init? =>
    match type?, init? with
    | some type, _ => exact restores_askWritten hask type
    | none, some init => exact restores_askVariable hask l.id init.id
    | none, none => exact restores_pure _
  | parameter name type? init? =>
    match type?, init? with
    | some type, _ => exact restores_askWritten hask type
    | none, some init => exact restores_askWidened hask init.id
    | none, none => exact restores_pure _
  | functionDeclaration _ params returnType? body | arrowFunction params returnType? body =>
    exact restores_askFunction hask params returnType? body
  | typeAlias name type => exact restores_askWritten hask type
  | call callee args => exact (hask callee.id).then_pure resultType
  | propertyAccess object name => exact (hask object.id).then_pure (memberType · name.text)
  | prefixUnary op operand => cases op <;> exact restores_pure _
  | binary op left right => exact restores_askBinary hask op left.id right.id
  | keywordType | typeReference | arrayType | unionType => exact restores_askWritten hask _
  | _ => exact restores_pure _

end

/-- A node whose type is being computed, or that the file does not have, has type `any`; any other node is in
the set only while its type is being computed. -/
theorem run_askWithin_succ (v : View) (n : Nat) (id : NodeId) (s : IdSet) :
    (v.askWithin (n + 1) id).run s =
      match v.tree.node? id with
      | none => (.any, s)
      | some node =>
        if s.contains id then (.any, s)
        else
          let result := (v.askComputed (v.askWithin n) node).run (s.insert id)
          (result.1, result.2.erase id) := by
  rw [askWithin]
  cases v.tree.node? id with
  | none => rfl
  | some node =>
    by_cases h : s.contains id = true
    · simp [h]
      rfl
    · simp [h]
      rfl

theorem restores_askWithin (v : View) (n : Nat) (s : IdSet) (id : NodeId) :
    Restores (v.askWithin n id) s (v.typeWithin n s id) := by
  induction n generalizing s id with
  | zero => exact restores_pure _
  | succ n ih =>
    rw [Restores, run_askWithin_succ, typeWithin]
    cases v.tree.node? id with
    | none => rfl
    | some node =>
      dsimp only
      split
      · rfl
      · rename_i hid
        rw [restores_askComputed (ih (s.insert id)) node,
          IdSet.erase_insert (Bool.eq_false_iff.mpr hid)]

theorem restores_askType (v : View) (id : NodeId) : Restores (v.askType id) .empty (v.typeAt id) :=
  restores_askWithin v _ _ id

/-! ### The number of nested questions -/

/-- How many nodes of the file are not in the set. -/
def freeCount (v : View) (s : IdSet) : Nat := (List.range v.tree.size).countP (!s.contains ·)

theorem freeCount_le (v : View) (s : IdSet) : v.freeCount s ≤ v.tree.size := by
  have h := List.countP_le_length (p := (!s.contains ·)) (l := List.range v.tree.size)
  rwa [List.length_range] at h

/-- A node that is put into the set is free no longer. -/
theorem freeCount_insert_lt (v : View) {id : NodeId} (hid : id < v.tree.size) (h : s.contains id = false) :
    v.freeCount (s.insert id) < v.freeCount s := by
  obtain ⟨before, after, hrange⟩ := List.append_of_mem (List.mem_range.mpr hid)
  have hle : ∀ ids : List NodeId, ids.countP (!(s.insert id).contains ·) ≤ ids.countP (!s.contains ·) := by
    refine fun ids => List.countP_mono_left fun other _ hother => ?_
    rw [IdSet.contains_insert, Bool.not_or, Bool.and_eq_true] at hother
    exact hother.1
  have hbefore := hle before
  have hafter := hle after
  rw [freeCount, freeCount, hrange, List.countP_append, List.countP_append,
    List.countP_cons_of_neg (by simp), List.countP_cons_of_pos (by simp [h])]
  omega

/-- Nested questions never run out when there are more of them than free nodes. -/
theorem typeWithin_eq (v : View) {n m : Nat} (hn : v.freeCount s < n) (hm : v.freeCount s < m) :
    v.typeWithin n s = v.typeWithin m s := by
  induction n generalizing m s with
  | zero => exact absurd hn (Nat.not_lt_zero _)
  | succ n ih =>
    cases m with
    | zero => exact absurd hm (Nat.not_lt_zero _)
    | succ m =>
      funext id
      rw [typeWithin, typeWithin]
      cases hnode : v.tree.node? id with
      | none => rfl
      | some node =>
        dsimp only
        split
        · rfl
        · rename_i hid
          obtain ⟨e, he, -⟩ := Option.map_eq_some_iff.mp hnode
          have hlt := v.freeCount_insert_lt (Array.getElem?_eq_some_iff.mp he).1 (Bool.eq_false_iff.mpr hid)
          rw [ih (m := m) (by omega) (by omega)]

/-- **No node needs more nested questions than the file has nodes**, so that `any` is never the type of a node
because the questions have run out. -/
theorem askWithin_eq_askType (v : View) {n : Nat} (h : v.tree.size < n) : v.askWithin n = v.askType := by
  funext id s
  have hfree := v.freeCount_le s
  rw [askType]
  exact (restores_askWithin v n s id).trans
    ((congrArg (fun types => (types id, s)) (v.typeWithin_eq (by omega) (by omega))).trans
      (restores_askWithin v _ s id).symm)

/-! ### Symbols and reports -/

theorem restores_askIdentifierSymbol (v : View) (id : NodeId) (text : String) :
    Restores (v.askIdentifierSymbol id text) .empty (v.identifierSymbol? id text) := by
  rw [askIdentifierSymbol, identifierSymbol?]
  cases v.binding? with
  | none => exact restores_pure _
  | some binding =>
    dsimp only [Option.bind_eq_bind, Option.bind_some]
    cases binding.symbol? id with
    | some symbol => exact restores_pure _
    | none =>
      cases v.accessedObject? id with
      | none => exact restores_pure _
      | some object =>
        refine (restores_askType v object.id).bind ?_
        dsimp only
        cases v.typeAt object.id <;> exact restores_pure _

theorem restores_askSymbol (v : View) (id : NodeId) :
    Restores (v.askSymbol id) .empty (v.symbolAt? id) := by
  rw [askSymbol, symbolAt?]
  cases v.tree.node? id with
  | none => exact restores_pure _
  | some n =>
    dsimp only [Option.bind_eq_bind, Option.bind_some]
    cases n.kind with
    | variableDeclaration | parameter | functionDeclaration | typeAlias | identifier =>
      exact restores_askIdentifierSymbol ..
    | _ => exact restores_pure _

theorem restores_askAssignment (v : View) (value : NodeId) (type : Node Place) (span : Span) :
    Restores (v.askAssignment value type span) .empty (v.assignmentReport value type span) :=
  (restores_askType v value).bind
    ((restores_askWritten (restores_askType v) type).bind ((restores_pure _).ite (restores_pure _)))

theorem restores_askAssignments (v : View) (binding : Binding) (op : BinaryOperator)
    (left right : Node Place) :
    Restores (v.askAssignments binding op left right) .empty (v.assignmentReports binding op left right) := by
  rw [askAssignments, assignmentReports]
  cases binding.resolvedSymbol? left.id with
  | none => exact restores_pure _
  | some symbol =>
    refine Restores.ite (restores_pure _) ?_
    cases symbol.firstDeclaration?.bind v.writtenVariableType? with
    | none => cases op <;> exact restores_pure _
    | some type =>
      cases op with
      | assign => exact restores_askAssignment ..
      | _ => exact restores_pure _

theorem restores_askNodeReports (v : View) (binding : Binding) (n : Node Place) :
    Restores (v.askNodeReports binding n) .empty (v.nodeReports binding n) := by
  rw [askNodeReports, nodeReports]
  cases n.kind with
  | variableDeclaration name type? init? =>
    match type?, init? with
    | some type, some init => exact restores_askAssignment ..
    | some type, none | none, some init | none, none => exact restores_pure _
  | parameter name type? init? =>
    match type?, init? with
    | some type, some init => exact restores_askAssignment ..
    | some type, none | none, some init => exact restores_pure _
    | none, none => exact Restores.ite (restores_pure _) (restores_pure _)
  | returnStatement expr? =>
    cases expr? with
    | none => exact restores_pure _
    | some expr =>
      dsimp only
      cases (v.enclosingFunction? n.id).bind writtenReturnType? with
      | none => exact restores_pure _
      | some type => exact restores_askAssignment ..
  | binary op left right => exact (restores_askAssignments v binding op left right).ite (restores_pure _)
  | _ => exact restores_pure _

theorem restores_askDiagnostics (v : View) :
    Restores v.askDiagnostics .empty v.semanticDiagnostics := by
  rw [askDiagnostics, semanticDiagnostics]
  cases v.binding? with
  | none => exact restores_pure _
  | some binding =>
    have hreports := restores_mapM (fun e : Entry => restores_askNodeReports v binding e.node)
      v.tree.entries.toList
    exact hreports.then_pure _

end View

/-! ### Questions one after the other -/

/-- Every question leaves the empty set empty and is answered by the program alone. -/
theorem Program.restores_ask (p : Program) (q : Question) : Restores (p.ask q) .empty (p.answer q) := by
  cases q with
  | typeAt tree id => exact (View.restores_askType _ id).then_pure Answer.type
  | symbolAt tree id => exact (View.restores_askSymbol _ id).then_pure Answer.symbol
  | semanticDiagnostics tree => exact (View.restores_askDiagnostics _).then_pure Answer.diagnostics

namespace Checker

/-- A new checker is as good as new after a question. -/
theorem answer_ofProgram (p : Program) (q : Question) :
    (ofProgram p).answer q = (p.answer q, ofProgram p) := by
  have h := p.restores_ask q
  rw [Restores] at h
  rw [answer, ofProgram, h]

/-- **Questions do not depend on each other**: whatever a checker is asked one after the other, each answer is
the one that a new checker gives to that question alone, which is the one of the program, and no node is left
over as being computed. -/
theorem answers_ofProgram (p : Program) (qs : List Question) :
    (ofProgram p).answers qs = qs.map (fun q => (((ofProgram p).answer q).1, IdSet.empty)) ∧
      ∀ q, ((ofProgram p).answer q).1 = p.answer q := by
  refine ⟨?_, fun q => congrArg Prod.fst (answer_ofProgram p q)⟩
  induction qs with
  | nil => rfl
  | cons q qs ih =>
    rw [answers, List.map_cons, answer_ofProgram]
    exact congrArg _ ih

end Checker

end ScriptAnalysis.Semantics

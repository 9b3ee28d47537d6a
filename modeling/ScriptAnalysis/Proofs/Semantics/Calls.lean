import Mathlib.Data.List.Chain
import Mathlib.Order.WellFounded
import ScriptAnalysis.Proofs.Semantics.Questions
import ScriptAnalysis.Proofs.Syntax.Nodes

/-!
# Questions for types end

The functions that compute types call each other: for the type of a node its type is computed unless that
is being done already, computing it looks at what the node is, and for a function, an operator, a name or a
written type there is a function of its own. Declarations may refer to themselves and to each other, and
so the calls may come back to a node.

`View.body` is what each function does with the functions that it calls, and `View.calls` lists the calls
that it makes, each with the set of nodes that are being computed. `View.wellFounded_nests` says that
calls inside calls come to an end: a call for the type of a node leaves fewer nodes outside of the set, and
every other one goes to a later function, or from a written type to a part of it.
`View.questionsEnd` puts this together with what the functions of a checker compute.
-/

namespace ScriptAnalysis.Semantics

open Syntax

/-! ### Calls -/

/-- A call of one of the functions that compute types. -/
inductive Call where
  /-- The type of a node. -/
  | typeAt (id : NodeId)
  /-- The type of a node that is not being computed yet. -/
  | compute (n : Node Place)
  /-- The type of a function. -/
  | function (params : List (Node Place)) (returnType? : Option (Node Place)) (body : Node Place)
  /-- The type of an operator's result. -/
  | binary (op : BinaryOperator) (left right : NodeId)
  /-- The type of an identifier. -/
  | identifier (id : NodeId) (text : String)
  /-- The type that a node writes. -/
  | written (n : Node Place)

/-- Something computed with the functions that are called. -/
abbrev Calling (α : Type) := (Call → Asking Ty) → Asking α

namespace View

/-- A call of a checker's function. -/
def perform (v : View) : Call → Asking Ty
  | .typeAt id => v.askType id
  | .compute n => v.askComputed v.askType n
  | .function params returnType? body => v.askFunction v.askType params returnType? body
  | .binary op left right => v.askBinary v.askType op left right
  | .identifier id text => v.askIdentifier v.askType id text
  | .written n => v.askWritten v.askType n

/-- What a function does, with the functions that it calls. -/
def body (v : View) (c : Call) : Calling Ty := fun call =>
  let ask id := call (.typeAt id)
  match c with
  | .typeAt id =>
    match v.tree.node? id with
    | none => pure .any
    | some n => do
      if (← get).contains id then pure .any
      else
        modify (·.insert id)
        let type ← call (.compute n)
        modify (·.erase id)
        pure type
  | .compute n =>
    match n.kind with
    | .identifier text => call (.identifier n.id text)
    | .variableDeclaration _ (some type) _ | .parameter _ (some type) _ | .typeAlias _ type =>
      call (.written type)
    | .functionDeclaration _ params returnType? body | .arrowFunction params returnType? body =>
      call (.function params returnType? body)
    | .binary op left right => call (.binary op left.id right.id)
    | .keywordType _ | .typeReference _ | .arrayType _ | .unionType _ => call (.written n)
    | _ => v.askComputed ask n
  | .function params (some type) _ => return .function (← askParams ask params) (← call (.written type))
  | .function params none body => return .function (← askParams ask params) (← v.askResult ask none body)
  | .binary op left right => v.askBinary ask op left right
  | .identifier id text => v.askIdentifier ask id text
  | .written n =>
    match n.kind with
    | .keywordType keyword => pure (keywordType keyword)
    | .typeReference name => askOption ask (v.aliasDeclaration? name.id)
    | .arrayType element => return .array (← call (.written element))
    | .unionType members => return Ty.unionOf v.strict (← members.mapM fun m => call (.written m))
    | _ => pure .any

/-! ### The calls that a function makes -/

/-- The nodes whose types an identifier's type is computed from. -/
def askedByIdentifier (v : View) (id : NodeId) : List NodeId :=
  match v.binding? with
  | none => []
  | some binding =>
    if (binding.declaredSymbol? id).isSome then (v.tree.parent? id).toList
    else
      match binding.resolvedSymbol? id with
      | some symbol => symbol.firstDeclaration?.toList
      | none =>
        match v.tree.parentNode? id with
        | none => []
        | some parent =>
          match parent.kind with
          | .propertyAccess _ name => if name.id = id then [parent.id] else []
          | _ => []

/-- The nodes whose types the type of an operator's result is computed from. -/
def askedByBinary (op : BinaryOperator) (left right : NodeId) : List NodeId :=
  match op with
  | .assign | .and => [right]
  | .or | .plus | .plusAssign => [left, right]
  | _ => []

/-- The parameters of a function. -/
def askedByParams (params : List (Node Place)) : List NodeId :=
  params.filterMap fun p => match p.kind with
    | .parameter .. => some p.id
    | _ => none

/-- The values that a function without a written type returns. -/
def askedByResult (body : Node Place) : List NodeId :=
  match body.kind with
  | .block _ => (returnsOf body).filterMap (·.map Node.id)
  | _ => [body.id]

/-- The calls that a function makes, in order, apart from the set. -/
def callsWithin (v : View) : Call → List Call
  | .typeAt id => (v.tree.node? id).toList.map .compute
  | .compute n =>
    match n.kind with
    | .arrayLiteral elements => elements.map fun e => .typeAt e.id
    | .parenthesized expr => [.typeAt expr.id]
    | .identifier text => [.identifier n.id text]
    | .variableDeclaration _ (some type) _ | .parameter _ (some type) _ | .typeAlias _ type =>
      [.written type]
    | .variableDeclaration _ none (some init) | .parameter _ none (some init) => [.typeAt init.id]
    | .functionDeclaration _ params returnType? body | .arrowFunction params returnType? body =>
      [.function params returnType? body]
    | .call callee _ => [.typeAt callee.id]
    | .propertyAccess object _ => [.typeAt object.id]
    | .binary op left right => [.binary op left.id right.id]
    | .keywordType _ | .typeReference _ | .arrayType _ | .unionType _ => [.written n]
    | _ => []
  | .function params (some type) _ => (askedByParams params).map .typeAt ++ [.written type]
  | .function params none body => (askedByParams params ++ askedByResult body).map .typeAt
  | .binary op left right => (askedByBinary op left right).map .typeAt
  | .identifier id _ => (v.askedByIdentifier id).map .typeAt
  | .written n =>
    match n.kind with
    | .typeReference name => (v.aliasDeclaration? name.id).toList.map .typeAt
    | .arrayType element => [.written element]
    | .unionType members => members.map .written
    | _ => []

/-- The calls that a function makes while the nodes of a set are being computed, each with the set it is
made with: a node is entered only when it is not in the set. -/
def calls (v : View) (s : IdSet) : Call → List (IdSet × Call)
  | .typeAt id =>
    if s.contains id then [] else (v.callsWithin (.typeAt id)).map fun c => (s.insert id, c)
  | c => (v.callsWithin c).map fun c => (s, c)

/-- One call is made directly inside another. -/
def Nests (v : View) (a b : IdSet × Call) : Prop := b ∈ v.calls a.1 a.2

end View

/-- A computation that begins with one set and ends with another makes calls, one after the other, each
with the set that is there; a call gives the set back. -/
inductive Makes {α : Type} : Calling α → IdSet → List (IdSet × Call) → IdSet → Prop where
  /-- Without calls the set stays. -/
  | pure {s : IdSet} (a : α) : Makes (fun _ => pure a) s [] s
  /-- A call comes first, and whatever it answers, the others after it. -/
  | call {c : Call} {k : Ty → Calling α} {s t : IdSet} {calls : List (IdSet × Call)}
    (h : ∀ type, Makes (k type) s calls t) :
    Makes (fun call => call c >>= fun type => k type call) s ((s, c) :: calls) t
  /-- The set is looked at. -/
  | get {k : IdSet → Calling α} {s t : IdSet} {calls : List (IdSet × Call)} (h : Makes (k s) s calls t) :
    Makes (fun call => get >>= fun s => k s call) s calls t
  /-- The set is changed. -/
  | modify {f : IdSet → IdSet} {k : Calling α} {s t : IdSet} {calls : List (IdSet × Call)}
    (h : Makes k (f s) calls t) : Makes (fun call => modify f >>= fun _ => k call) s calls t

namespace Makes

variable {α β : Type} {s t u : IdSet} {cs ds : List (IdSet × Call)}

theorem of_call (c : Call) : Makes (fun call => call c) s [(s, c)] s :=
  .call fun type => .pure type

theorem bind {x : Calling α} {k : α → Calling β} (hx : Makes x s cs t)
    (hk : ∀ a, Makes (k a) t ds u) : Makes (fun call => x call >>= fun a => k a call) s (cs ++ ds) u := by
  induction hx with
  | pure a => exact hk a
  | call h ih =>
    simp only [bind_assoc]
    exact .call fun type => ih type hk
  | get h ih =>
    simp only [bind_assoc]
    exact .get (ih hk)
  | modify h ih =>
    simp only [bind_assoc]
    exact .modify (ih hk)

/-- Computing further without a call. -/
theorem then_pure {x : Calling α} (hx : Makes x s cs t) (f : α → β) :
    Makes (fun call => x call >>= fun a => Pure.pure (f a)) s cs t := by
  have h := hx.bind fun a => Makes.pure (f a)
  rwa [List.append_nil] at h

theorem mapM {x : β → Calling α} {calls : β → List (IdSet × Call)}
    (h : ∀ b, Makes (x b) s (calls b) s) (bs : List β) :
    Makes (fun call => bs.mapM fun b => x b call) s (bs.flatMap calls) s := by
  induction bs with
  | nil => exact .pure []
  | cons b bs ih =>
    simp only [List.mapM_cons, List.flatMap_cons]
    exact (h b).bind fun a => ih.then_pure (a :: ·)

end Makes

namespace View

variable (v : View) {s : IdSet}

/-! ### The bodies make these calls -/

section

/-- Calls for the types of nodes. -/
def typesAt (s : IdSet) (ids : List NodeId) : List (IdSet × Call) :=
  (ids.map Call.typeAt).map fun c => (s, c)

theorem makes_askOption (id? : Option NodeId) :
    Makes (fun call => askOption (fun id => call (.typeAt id)) id?) s (typesAt s id?.toList) s := by
  cases id? with
  | none => exact .pure _
  | some id => exact .of_call _

theorem makes_askBinary (op : BinaryOperator) (left right : NodeId) :
    Makes (fun call => v.askBinary (fun id => call (.typeAt id)) op left right) s
      (typesAt s (askedByBinary op left right)) s := by
  have hright := Makes.of_call (s := s) (.typeAt right)
  cases op with
  | assign | and => exact hright
  | or => exact .call fun l => hright.then_pure fun r => Ty.unionOf v.strict [l, r]
  | plus | plusAssign => exact .call fun l => hright.then_pure fun r => sumType l r
  | _ => exact .pure _

theorem makes_askWidened (id : NodeId) :
    Makes (fun call => v.askWidened (fun id => call (.typeAt id)) id) s (typesAt s [id]) s :=
  (Makes.of_call (.typeAt id)).then_pure (·.widen v.strict)

theorem makes_askReturned (expr? : Option (Node Place)) :
    Makes (fun call => v.askReturned (fun id => call (.typeAt id)) expr?) s
      (typesAt s (expr?.map Node.id).toList) s := by
  cases expr? with
  | none => exact .pure _
  | some expr => exact v.makes_askWidened expr.id

theorem makes_askIdentifier (id : NodeId) (text : String) :
    Makes (fun call => v.askIdentifier (fun id => call (.typeAt id)) id text) s
      (typesAt s (v.askedByIdentifier id)) s := by
  simp only [askIdentifier, askedByIdentifier]
  cases v.binding? with
  | none => exact .pure _
  | some binding =>
    dsimp only
    split
    · exact makes_askOption _
    · cases binding.resolvedSymbol? id with
      | some symbol => exact makes_askOption _
      | none =>
        cases v.tree.parentNode? id with
        | none => exact .pure _
        | some parent =>
          dsimp only
          cases parent.kind with
          | propertyAccess object name =>
            dsimp only
            split
            · exact .of_call _
            · exact .pure _
          | _ => exact .pure _

theorem makes_askParams (params : List (Node Place)) :
    Makes (fun call => askParams (fun id => call (.typeAt id)) params) s
      (typesAt s (askedByParams params)) s := by
  induction params with
  | nil => exact .pure _
  | cons p ps ih =>
    simp only [askParams, askedByParams, List.filterMap_cons]
    cases p.kind with
    | parameter name type? init? => exact .call fun type => ih.then_pure _
    | _ => exact ih

theorem makes_askResult (body : Node Place) :
    Makes (fun call => v.askResult (fun id => call (.typeAt id)) none body) s
      (typesAt s (askedByResult body)) s := by
  simp only [askResult, askedByResult]
  cases body.kind with
  | block statements =>
    dsimp only
    have hcalls : typesAt s ((returnsOf body).filterMap (·.map Node.id)) =
        (returnsOf body).flatMap fun e => typesAt s (e.map Node.id).toList := by
      induction returnsOf body with
      | nil => rfl
      | cons e es ih =>
        rw [List.flatMap_cons, ← ih]
        cases e <;> rfl
    split
    · rename_i hnone
      have hempty : (returnsOf body).filterMap (·.map Node.id) = [] := by
        rw [List.filterMap_eq_nil_iff]
        intro e he
        rw [Option.isNone_iff_eq_none.1 (List.all_eq_true.1 hnone e he)]
        rfl
      rw [hempty]
      exact .pure _
    · rw [hcalls]
      exact (Makes.mapM v.makes_askReturned _).then_pure (Ty.unionOf v.strict)
  | _ => exact v.makes_askWidened body.id

/-- A function makes its calls, in their order, and leaves the set as it is. -/
theorem makes_body (s : IdSet) (c : Call) : Makes (v.body c) s (v.calls s c) s := by
  cases c with
  | typeAt id =>
    unfold body
    simp only [calls, callsWithin]
    cases v.tree.node? id with
    | none =>
      simp only [Option.toList_none, List.map_nil, ite_self]
      exact .pure _
    | some n =>
      refine .get ?_
      by_cases hid : s.contains id = true
      · simp only [if_pos hid]
        exact .pure _
      · simp only [if_neg hid]
        refine .modify (.call fun type => .modify ?_)
        rw [IdSet.erase_insert (Bool.eq_false_iff.2 hid)]
        exact .pure type
  | compute n =>
    obtain ⟨l, k⟩ := n
    cases k with
    | arrayLiteral elements =>
      cases elements with
      | nil => exact .pure _
      | cons e es =>
        have hcalls : v.calls s (.compute (.mk l (.arrayLiteral (e :: es)))) =
            (e :: es).flatMap fun e => typesAt s [e.id] :=
          List.map_map.trans List.map_eq_flatMap
        rw [hcalls]
        exact (Makes.mapM (fun e => v.makes_askWidened e.id) (e :: es)).then_pure fun types =>
          Ty.array (Ty.unionOf v.strict types)
    | parenthesized expr => exact .of_call _
    | identifier text => exact .of_call _
    | variableDeclaration name type? init? =>
      cases type? with
      | some type => exact .of_call _
      | none =>
        cases init? with
        | some init =>
          exact .call fun type => .pure (if v.variableKind? l.id = some .const
            then type.widenNullish v.strict else type.widen v.strict)
        | none => exact .pure _
    | parameter name type? init? =>
      cases type? with
      | some type => exact .of_call _
      | none =>
        cases init? with
        | some init => exact v.makes_askWidened init.id
        | none => exact .pure _
    | functionDeclaration | arrowFunction => exact .of_call _
    | typeAlias name type => exact .of_call _
    | call callee args => exact .call fun type => .pure (resultType type)
    | propertyAccess object name => exact .call fun type => .pure (memberType type name.text)
    | prefixUnary op operand => cases op <;> exact .pure _
    | binary op left right => exact .of_call _
    | keywordType | typeReference | arrayType | unionType => exact .of_call _
    | _ => exact .pure _
  | function params returnType? body =>
    have hparams := makes_askParams (s := s) params
    cases returnType? with
    | some type =>
      have hcalls : v.calls s (.function params (some type) body) =
          typesAt s (askedByParams params) ++ [(s, .written type)] := by
        simp [calls, callsWithin, typesAt]
      rw [hcalls]
      exact hparams.bind fun ps => (Makes.of_call (.written type)).then_pure (Ty.function ps)
    | none =>
      have hcalls : v.calls s (.function params none body) =
          typesAt s (askedByParams params) ++ typesAt s (askedByResult body) := by
        simp [calls, callsWithin, typesAt]
      rw [hcalls]
      exact hparams.bind fun ps => (v.makes_askResult body).then_pure (Ty.function ps)
  | binary op left right => exact v.makes_askBinary op left right
  | identifier id text => exact v.makes_askIdentifier id text
  | written n =>
    obtain ⟨l, k⟩ := n
    cases k with
    | keywordType keyword => exact .pure _
    | typeReference name => exact makes_askOption _
    | arrayType element => exact .call fun type => .pure (Ty.array type)
    | unionType members =>
      have hcalls : v.calls s (.written (.mk l (.unionType members))) =
          members.flatMap fun m => [(s, .written m)] :=
        List.map_map.trans List.map_eq_flatMap
      rw [hcalls]
      exact (Makes.mapM (fun m => .of_call (.written m)) members).then_pure (Ty.unionOf v.strict)
    | _ => exact .pure _

end

/-! ### The functions of a checker -/

theorem askWrittenList_eq_mapM (ask : NodeId → Asking Ty) (ns : List (Node Place)) :
    v.askWrittenList ask ns = ns.mapM (v.askWritten ask) := by
  induction ns with
  | nil => rw [askWrittenList, List.mapM_nil]
  | cons n ns ih => rw [askWrittenList, List.mapM_cons, ih]

/-- What a checker does for the type of a node does not depend on how many nested questions it could
still have. -/
theorem askType_eq_body (id : NodeId) : v.askType id = v.body (.typeAt id) v.perform := by
  have hmore : v.askWithin (v.tree.size + 1 + 1) = v.askType := v.askWithin_eq_askType (by omega)
  rw [← hmore, askWithin]
  rfl

/-- The functions of a checker do what their bodies say, with each other. -/
theorem perform_eq_body (c : Call) : v.perform c = v.body c v.perform := by
  cases c with
  | typeAt id => exact v.askType_eq_body id
  | compute n =>
    obtain ⟨l, k⟩ := n
    cases k with
    | variableDeclaration name type? init? | parameter name type? init? =>
      cases type? <;> cases init? <;> rfl
    | _ => rfl
  | function params returnType? body => cases returnType? <;> rfl
  | binary op left right => rfl
  | identifier id text => rfl
  | written n =>
    obtain ⟨l, k⟩ := n
    cases k
    case unionType members =>
      unfold body
      simp only [perform, askWritten, askWrittenList_eq_mapM]
      rfl
    all_goals
      unfold body
      simp only [perform, askWritten]
      rfl

/-- Every call gives back the set. -/
theorem run_perform_snd (s : IdSet) (c : Call) : ((v.perform c).run s).2 = s := by
  have hask := v.restores_askWithin (v.tree.size + 1) s
  cases c with
  | typeAt id => exact congrArg Prod.snd (hask id)
  | compute n => exact congrArg Prod.snd (restores_askComputed hask n)
  | function params returnType? body =>
    exact congrArg Prod.snd (restores_askFunction hask params returnType? body)
  | binary op left right => exact congrArg Prod.snd (restores_askBinary hask op left right)
  | identifier id text => exact congrArg Prod.snd (restores_askIdentifier hask id text)
  | written n => exact congrArg Prod.snd (restores_askWritten hask n)

end View

/-! ### Calls inside calls -/

namespace Call

/-- The place of a function in the order in which functions call each other. -/
@[simp] def phase : Call → Nat
  | .typeAt _ => 0
  | .identifier .. | .binary .. => 1
  | .written _ => 2
  | .function .. => 3
  | .compute _ => 4

/-- How large a written type is. -/
def extent : Call → Nat
  | .written n => n.size
  | _ => 0

end Call

namespace View

variable (v : View)

/-- A written type asks for its parts, which are children of its node, and for the types of nodes. -/
theorem of_mem_callsWithin_written {n : Node Place} {c : Call} (h : c ∈ v.callsWithin (.written n)) :
    (∃ id, c = .typeAt id) ∨ ∃ m ∈ n.children, c = .written m := by
  obtain ⟨l, k⟩ := n
  cases k with
  | typeReference name =>
    obtain ⟨id, -, rfl⟩ := List.mem_map.1 h
    exact .inl ⟨id, rfl⟩
  | arrayType element => exact .inr ⟨element, List.mem_singleton_self _, List.mem_singleton.1 h⟩
  | unionType members =>
    obtain ⟨m, hm, rfl⟩ := List.mem_map.1 h
    exact .inr ⟨m, by simpa [Node.children, Node.shape, Kind.map, Kind.children] using hm, rfl⟩
  | _ => cases h

/-- A function only calls functions that come before it, and a written type its parts. -/
theorem phase_lt_of_mem_callsWithin {c c' : Call} (hc : ∀ id, c ≠ .typeAt id)
    (h : c' ∈ v.callsWithin c) :
    c'.phase < c.phase ∨ c'.phase = c.phase ∧ c'.extent < c.extent := by
  have htypes : ∀ {ids : List NodeId}, c' ∈ ids.map Call.typeAt → ∃ id, c' = .typeAt id := by
    intro ids hmem
    obtain ⟨id, -, rfl⟩ := List.mem_map.1 hmem
    exact ⟨id, rfl⟩
  cases c with
  | typeAt id => exact absurd rfl (hc id)
  | compute n =>
    left
    obtain ⟨l, k⟩ := n
    cases k with
    | arrayLiteral elements =>
      obtain ⟨e, -, rfl⟩ := List.mem_map.1 h
      simp
    | variableDeclaration name type? init? | parameter name type? init? =>
      cases type? with
      | some type =>
        rw [List.mem_singleton.1 h]
        simp
      | none =>
        cases init? with
        | some init =>
          rw [List.mem_singleton.1 h]
          simp
        | none => cases h
    | parenthesized | identifier | functionDeclaration | arrowFunction | typeAlias | call
    | propertyAccess | binary | keywordType | typeReference | arrayType | unionType =>
      rw [List.mem_singleton.1 h]
      simp
    | _ => cases h
  | function params returnType? body =>
    left
    cases returnType? with
    | some type =>
      rcases List.mem_append.1 h with h | h
      · obtain ⟨id, rfl⟩ := htypes h
        simp
      · rw [List.mem_singleton.1 h]
        simp
    | none =>
      obtain ⟨id, rfl⟩ := htypes h
      simp
  | binary op left right =>
    obtain ⟨id, rfl⟩ := htypes h
    simp
  | identifier id text =>
    obtain ⟨id, rfl⟩ := htypes h
    simp
  | written n =>
    rcases v.of_mem_callsWithin_written h with ⟨id, rfl⟩ | ⟨m, hm, rfl⟩
    · simp
    · exact .inr ⟨rfl, Node.size_lt_of_mem_children hm⟩

/-- Either a node is entered that was not in the set before, or the set stays. -/
theorem Nests.cases {v : View} {s s' : IdSet} {c c' : Call} (h : v.Nests (s, c) (s', c')) :
    (∃ id n, c = .typeAt id ∧ c' = .compute n ∧ v.tree.node? id = some n ∧ s.contains id = false ∧
      s' = s.insert id) ∨ (∀ id, c ≠ .typeAt id) ∧ c' ∈ v.callsWithin c ∧ s' = s := by
  cases c with
  | typeAt id =>
    left
    simp only [Nests, calls] at h
    split at h
    · cases h
    · rename_i hid
      obtain ⟨c'', hc'', heq⟩ := List.mem_map.1 h
      obtain ⟨rfl, rfl⟩ := Prod.mk.inj heq
      obtain ⟨n, hn, rfl⟩ := List.mem_map.1 hc''
      exact ⟨id, n, rfl, rfl, by simpa using hn, Bool.eq_false_iff.2 hid, rfl⟩
  | _ =>
    obtain ⟨c'', hc'', heq⟩ := List.mem_map.1 h
    obtain ⟨rfl, rfl⟩ := Prod.mk.inj heq
    exact .inr ⟨by simp, hc'', rfl⟩

/-- What decreases from call to call: the nodes that are not in the set, then the place of the function,
then the size of a written type. -/
def measure (v : View) (a : IdSet × Call) : Nat × Nat × Nat :=
  (v.freeCount a.1, a.2.phase, a.2.extent)

theorem Nests.measure_lt {v : View} {a b : IdSet × Call} (h : v.Nests a b) :
    Prod.Lex (· < ·) (Prod.Lex (· < ·) (· < ·)) (v.measure b) (v.measure a) := by
  obtain ⟨s, c⟩ := a
  obtain ⟨s', c'⟩ := b
  rcases h.cases with ⟨id, n, rfl, rfl, hnode, hid, rfl⟩ | ⟨hc, hmem, rfl⟩
  · obtain ⟨e, he, -⟩ := Option.map_eq_some_iff.1 hnode
    exact .left _ _ (v.freeCount_insert_lt (Array.getElem?_eq_some_iff.1 he).1 hid)
  · rcases v.phase_lt_of_mem_callsWithin hc hmem with hlt | ⟨heq, hlt⟩
    · exact .right _ (.left _ _ hlt)
    · rw [measure, measure, heq]
      exact .right _ (.right _ hlt)

/-- **Calls inside calls come to an end**, whatever the names of a file refer to. -/
theorem wellFounded_nests (v : View) : WellFounded fun b a => v.Nests a b := by
  have hlex : WellFounded (Prod.Lex (· < ·) (Prod.Lex (· < ·) (· < ·)) :
      Nat × Nat × Nat → Nat × Nat × Nat → Prop) :=
    WellFounded.prod_lex Nat.lt_wfRel.wf (WellFounded.prod_lex Nat.lt_wfRel.wf Nat.lt_wfRel.wf)
  exact Subrelation.wf Nests.measure_lt (InvImage.wf v.measure hlex)

/-! ### Chains of calls -/

/-- The nodes that are entered along a chain of calls: those whose types are asked for and computed. -/
def entered : List (IdSet × Call) → List NodeId
  | (_, .typeAt id) :: b :: chain => id :: entered (b :: chain)
  | _ :: chain => entered chain
  | [] => []

/-- Along a chain no node is entered that was in the set, and none twice. -/
theorem nodup_entered {s : IdSet} {c : Call} {chain : List (IdSet × Call)}
    (h : ((s, c) :: chain).IsChain v.Nests) :
    (∀ id ∈ entered ((s, c) :: chain), s.contains id = false) ∧ (entered ((s, c) :: chain)).Nodup := by
  induction chain generalizing s c with
  | nil => cases c <;> simp [entered]
  | cons b chain ih =>
    obtain ⟨s', c'⟩ := b
    obtain ⟨hnests, hchain⟩ := List.isChain_cons_cons.1 h
    obtain ⟨hfree, hnodup⟩ := ih hchain
    rcases hnests.cases with ⟨id, n, rfl, rfl, -, hid, rfl⟩ | ⟨hc, -, rfl⟩
    · -- the node is in the set for the rest of the chain
      have hrest : ∀ other ∈ entered ((s.insert id, .compute n) :: chain),
          s.contains other = false ∧ id ≠ other := by
        intro other hother
        simpa using hfree other hother
      rw [entered]
      refine ⟨fun other hother => ?_, List.nodup_cons.2 ⟨fun hmem => (hrest id hmem).2 rfl, hnodup⟩⟩
      rcases List.mem_cons.1 hother with rfl | hother
      · exact hid
      · exact (hrest other hother).1
    · have hentered : entered ((s', c) :: (s', c') :: chain) = entered ((s', c') :: chain) := by
        cases c with
        | typeAt id => exact absurd rfl (hc id)
        | _ => rfl
      rw [hentered]
      exact ⟨hfree, hnodup⟩

/-! ### Questions end -/

/-- The functions that compute types do not call each other without end. -/
structure QuestionsEnd (v : View) : Prop where
  /-- The functions of a checker do what their bodies say, with each other. -/
  perform : ∀ c, v.perform c = v.body c v.perform
  /-- The bodies make the listed calls, one after the other. -/
  makes : ∀ s c, Makes (v.body c) s (v.calls s c) s
  /-- What is called gives back the set, so that each call is made with the set of the list. -/
  restores : ∀ s c, ((v.perform c).run s).2 = s
  /-- No chain of calls goes on without end. -/
  finite : ∀ chain : Nat → IdSet × Call, ∃ i, ¬v.Nests (chain i) (chain (i + 1))
  /-- Along a chain no node is entered twice. -/
  once : ∀ chain : List (IdSet × Call), chain.IsChain v.Nests → (entered chain).Nodup
  /-- As long as no node is entered, a written type only goes on to children of its node. -/
  descends : ∀ s n b, v.Nests (s, .written n) b →
    (∃ id, b = (s, .typeAt id)) ∨ ∃ m ∈ n.children, b = (s, .written m)

/-- **Questions for types end** on every file, however its declarations refer to each other. -/
theorem questionsEnd (v : View) : v.QuestionsEnd where
  perform := v.perform_eq_body
  makes := v.makes_body
  restores := v.run_perform_snd
  finite := by
    intro chain
    by_contra hforever
    have hnests : ∀ i, v.Nests (chain i) (chain (i + 1)) := by simpa using hforever
    exact (wellFounded_iff_isEmpty_descending_chain.1 v.wellFounded_nests).false ⟨chain, hnests⟩
  once := by
    intro chain hchain
    cases chain with
    | nil => simp [entered]
    | cons a chain => exact (v.nodup_entered hchain).2
  descends := by
    rintro s n ⟨s', c⟩ hnests
    rcases hnests.cases with ⟨id, -, heq, -⟩ | ⟨-, hmem, rfl⟩
    · cases heq
    · rcases v.of_mem_callsWithin_written hmem with ⟨id, rfl⟩ | ⟨m, hm, rfl⟩
      · exact .inl ⟨id, rfl⟩
      · exact .inr ⟨m, hm, rfl⟩

end View

end ScriptAnalysis.Semantics

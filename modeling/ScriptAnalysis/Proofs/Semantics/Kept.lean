import ScriptAnalysis.Semantics.Typing

/-!
# What holds of the types of all nodes

The type of a node is put together from plain types, from the types of the environment and from the types of
other nodes. What holds of plain types and of the environment and is kept wherever types are put together
(`View.Keeps`) holds of the type of every node, whichever nodes are in progress (`View.Keeps.typeAt`).
-/

namespace ScriptAnalysis

/-- The type is not put together from other types. -/
def Ty.isPlain : Ty → Bool
  | .array _ | .union _ | .function _ _ | .object _ _ _ => false
  | _ => true

theorem Ty.isPlain_ofNumeral (text : String) : (Ty.ofNumeral text).isPlain = true := by
  rw [Ty.ofNumeral]
  split <;> rfl

namespace Semantics

open Syntax

/-! ### The environment -/

/-- What holds of the names that are always there and is kept when a name comes along holds of the names that
sets bring along. -/
theorem Globals.induction_ofLibs {P : Globals → Prop} (libs : List Config.Lib) (hinitial : P initial)
    (hdefine : ∀ globals, P globals → ∀ e ∈ Ambient.language ++ Ambient.document, P (globals.define e)) :
    P (ofLibs libs) := by
  have hsome : ∀ (b : Bool) (entries : List (String × Ambient)), entries ⊆ Ambient.language ++ Ambient.document →
      (if b then entries else []) ⊆ Ambient.language ++ Ambient.document := by
    intro b entries h
    split
    · exact h
    · exact List.nil_subset _
  have hlanguage : Ambient.language ⊆ Ambient.language ++ Ambient.document := List.subset_append_left ..
  have hdocument : Ambient.document ⊆ Ambient.language ++ Ambient.document := List.subset_append_right ..
  have hconsole : Ambient.console ⊆ Ambient.document := List.subset_append_left ..
  refine List.foldlRecOn _ _ hinitial fun globals h e he => hdefine globals h e ?_
  refine List.append_subset.mpr ⟨List.append_subset.mpr ⟨?_, ?_⟩, ?_⟩ he
  · exact hsome _ _ hlanguage
  · exact hsome _ _ hdocument
  · exact hsome _ _ (List.Subset.trans hconsole hdocument)

/-- A name of the environment is found where it is listed. -/
theorem Globals.getElem?_of_findFrom? {name : String} {index i : Nat} {gs : List Global} {g : Global}
    (h : findFrom? name index gs = some (i, g)) : ∃ k, i = index + k ∧ gs[k]? = some g := by
  induction gs generalizing index with
  | nil => cases h
  | cons g' gs ih =>
    rw [findFrom?] at h
    split at h
    · obtain ⟨rfl, rfl⟩ := Prod.mk.inj (Option.some.inj h)
      exact ⟨0, rfl, rfl⟩
    · obtain ⟨k, rfl, hk⟩ := ih h
      exact ⟨k + 1, by omega, hk⟩

theorem Globals.getElem?_of_get? {globals : Globals} {name : String} {i : Nat} {g : Global}
    (h : globals.get? name = some (i, g)) : globals.all[i]? = some g := by
  obtain ⟨k, rfl, hk⟩ := getElem?_of_findFrom? h
  rwa [Nat.zero_add]

/-- A member of an object is found where it is listed. -/
theorem getElem?_of_memberFrom? {name : String} {index i : Nat} {members : List (String × Ty)} {t : Ty}
    (h : Ty.memberFrom? name index members = some (i, t)) : ∃ k, i = index + k ∧ members[k]? = some (name, t) := by
  induction members generalizing index with
  | nil => cases h
  | cons m members ih =>
    rw [Ty.memberFrom?] at h
    split at h
    · rename_i hname
      obtain ⟨rfl, rfl⟩ := Prod.mk.inj (Option.some.inj h)
      exact ⟨0, rfl, by rw [← hname]; rfl⟩
    · obtain ⟨k, rfl, hk⟩ := ih h
      exact ⟨k + 1, by omega, hk⟩

theorem getElem?_of_member? {name : String} {i : Nat} {members : List (String × Ty)} {t : Ty}
    (h : Ty.member? members name = some (i, t)) : members[i]? = some (name, t) := by
  obtain ⟨k, rfl, hk⟩ := getElem?_of_memberFrom? h
  rwa [Nat.zero_add]

/-! ### Types of nodes -/

namespace View

variable {v : View} {P : Ty → Prop} {ask : NodeId → Ty}

/-- What holds of plain types and of the types of the environment, and is kept wherever types are put
together. -/
structure Keeps (v : View) (P : Ty → Prop) : Prop where
  plain : ∀ t : Ty, t.isPlain = true → P t
  array : ∀ t, P t → P (.array t)
  function : ∀ params ret, (∀ p ∈ params, P p.type) → P ret → P (.function params ret)
  result : ∀ params ret, P (.function params ret) → P ret
  member : ∀ id name members, P (.object id name members) → ∀ m ∈ members, P m.2
  union : ∀ ts, (∀ t ∈ ts, P t) → P (Ty.unionOf v.strict ts)
  widen : ∀ t, P t → P (t.widen v.strict)
  globals : ∀ g ∈ v.globals.all, P g.type

namespace Keeps

section

variable (h : v.Keeps P)

include h

theorem any : P .any := h.plain _ rfl

theorem widenNullish {t : Ty} (ht : P t) : P (t.widenNullish v.strict) := by
  rw [Ty.widenNullish]
  split
  · exact h.any
  · exact ht

/-- It holds of the type of a name of the environment, `any` if there is no such name. -/
theorem ambient (name : String) : P (((v.globals.get? name).map (·.2.type)).getD .any) := by
  cases hget : v.globals.get? name with
  | none => exact h.any
  | some found => exact h.globals found.2 (List.mem_of_getElem? (Globals.getElem?_of_get? hget))

theorem memberType {object : Ty} (hobject : P object) (name : String) : P (View.memberType object name) := by
  unfold View.memberType
  split
  · rename_i members
    cases hget : Ty.member? members name with
    | none => exact h.any
    | some found => exact h.member _ _ _ hobject _ (List.mem_of_getElem? (getElem?_of_member? hget))
  all_goals
    first
      | exact h.any
      | split <;> exact h.plain _ rfl

theorem sumType (left right : Ty) : P (View.sumType left right) := by
  rw [View.sumType]
  split
  · exact h.plain _ rfl
  split <;> exact h.plain _ rfl

theorem keywordType (keyword : KeywordType) : P (View.keywordType keyword) := by
  cases keyword <;> exact h.plain _ rfl

/-- It holds of the type that some node has, `any` if there is no node. -/
theorem map (hask : ∀ id, P (ask id)) (id? : Option NodeId) : P ((id?.map ask).getD .any) := by
  cases id? with
  | none => exact h.any
  | some id => exact hask id

end

mutual

theorem writtenType (h : v.Keeps P) (hask : ∀ id, P (ask id)) : (n : Node Place) → P (v.writtenType ask n)
  | .mk l k => by
    cases k <;> rw [View.writtenType]
    case keywordType keyword => exact h.keywordType keyword
    case typeReference name => exact h.map hask _
    case arrayType element => exact h.array _ (writtenType h hask element)
    case unionType members => exact h.union _ (writtenTypes h hask members)
    all_goals first | exact h.any | nofun

theorem writtenTypes (h : v.Keeps P) (hask : ∀ id, P (ask id)) :
    (ns : List (Node Place)) → ∀ t ∈ v.writtenTypes ask ns, P t
  | [] => by
    rw [View.writtenTypes]
    exact fun _ ht => absurd ht List.not_mem_nil
  | n :: ns => by
    rw [View.writtenTypes]
    exact List.forall_mem_cons.mpr ⟨writtenType h hask n, writtenTypes h hask ns⟩

end

section

variable (h : v.Keeps P)

include h

section

variable (hask : ∀ id, P (ask id))

include hask

theorem binaryType (op : BinaryOperator) (left right : NodeId) : P (v.binaryType ask op left right) := by
  unfold View.binaryType
  split
  · exact hask right
  · exact hask right
  · exact h.union _ (List.forall_mem_cons.mpr ⟨hask left, List.forall_mem_singleton.mpr (hask right)⟩)
  · exact h.sumType ..
  · exact h.sumType ..
  · split <;> exact h.plain _ rfl

/-- It holds of what a function returns where no type is written for it. -/
theorem returns (returns : List (Option (Node Place))) :
    P (Ty.unionOf v.strict (returns.map fun
      | some expr => (ask expr.id).widen v.strict
      | none => .undefined)) := by
  refine h.union _ (List.forall_mem_map.mpr fun expr? _ => ?_)
  cases expr? with
  | none => exact h.plain _ rfl
  | some expr => exact h.widen _ (hask expr.id)

theorem functionType (params : List (Node Place)) (returnType? : Option (Node Place)) (body : Node Place) :
    P (v.functionType ask params returnType? body) := by
  refine h.function _ _ (fun p hp => ?params) ?ret
  case params =>
    obtain ⟨n, -, hn⟩ := List.mem_filterMap.mp hp
    split at hn
    · obtain rfl := Option.some.inj hn
      exact hask n.id
    · cases hn
  case ret =>
    split
    · exact h.writtenType hask _
    · dsimp only
      split
      · exact h.plain _ rfl
      · exact h.returns hask _
    · exact h.widen _ (hask body.id)

theorem identifierType (id : NodeId) (text : String) : P (v.identifierType ask id text) := by
  rw [View.identifierType]
  split
  · exact h.any
  split
  · exact h.map hask _
  split
  · exact h.map hask _
  have hambient := h.ambient text
  split
  · exact hambient
  split
  · split
    · exact hask _
    · exact hambient
  · exact h.any
  · exact hambient

/-- It holds of the type of a node when it holds of the types that it is computed from. -/
theorem computeType (n : Node Place) : P (v.computeType ask n) := by
  obtain ⟨l, k⟩ := n
  cases k with
  | numericLiteral text => exact h.plain _ (Ty.isPlain_ofNumeral text)
  | stringLiteral | trueLiteral | falseLiteral | nullLiteral => exact h.plain _ rfl
  | arrayLiteral elements =>
    cases elements with
    | nil =>
      refine h.array _ ?_
      split <;> exact h.plain _ rfl
    | cons e es => exact h.array _ (h.union _ (List.forall_mem_map.mpr fun e _ => h.widen _ (hask e.id)))
  | parenthesized expr => exact hask expr.id
  | identifier text => exact h.identifierType hask l.id text
  | variableDeclaration name type? init? =>
    match type?, init? with
    | some type, _ => exact h.writtenType hask type
    | none, some init =>
      show P (if _ then _ else _)
      split
      · exact h.widenNullish (hask init.id)
      · exact h.widen _ (hask init.id)
    | none, none => exact h.any
  | parameter name type? init? =>
    match type?, init? with
    | some type, _ => exact h.writtenType hask type
    | none, some init => exact h.widen _ (hask init.id)
    | none, none => exact h.any
  | functionDeclaration _ params returnType? body | arrowFunction params returnType? body =>
    exact h.functionType hask params returnType? body
  | typeAlias name type => exact h.writtenType hask type
  | call callee args =>
    simp only [View.computeType, Node.kind_mk]
    split
    · rename_i params ret hcallee
      exact h.result params ret (hcallee ▸ hask callee.id)
    · exact h.any
  | propertyAccess object name => exact h.memberType (hask object.id) name.text
  | prefixUnary op operand => cases op <;> exact h.plain _ rfl
  | binary op left right => exact h.binaryType hask op left.id right.id
  | keywordType | typeReference | arrayType | unionType => exact h.writtenType hask _
  | sourceFile | variableStatement | block | expressionStatement | returnStatement | ifStatement
  | whileStatement | emptyStatement => exact h.any

end

/-- It holds of the type of a node, whichever nodes are in progress. -/
theorem typeWithin (fuel : Nat) (path : IdSet) (id : NodeId) : P (v.typeWithin fuel path id) := by
  induction fuel generalizing path id with
  | zero => exact h.any
  | succ fuel ih =>
    rw [View.typeWithin]
    split
    · exact h.any
    split
    · exact h.any
    · exact h.computeType (fun id => ih _ id) _

/-- **What is kept holds of the type of every node.** -/
theorem typeAt (id : NodeId) : P (v.typeAt id) := h.typeWithin _ _ id

end

end Keeps

end View

end Semantics

end ScriptAnalysis

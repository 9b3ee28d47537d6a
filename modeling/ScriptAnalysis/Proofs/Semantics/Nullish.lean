import ScriptAnalysis.Proofs.Semantics.Relays
import ScriptAnalysis.Proofs.Syntax.Functions
import ScriptAnalysis.Proofs.Types.Unions
import ScriptAnalysis.Semantics.Check
import ScriptAnalysis.Semantics.Checker

/-!
# Null and undefined in inferred types

Where null and undefined are no types of their own, a union is the same without them as long as something else is in
it (`Ty.unionOf_filter_isNullish`). But what elements and returned values have is widened before the union is built,
and null and undefined alone are widened to `any`, which takes over the union. So lists and functions with such a
value have `any` in their types (`View.takesNullishOver_parse`), while a return without a value, which nothing widens,
makes no difference.
-/

namespace ScriptAnalysis

namespace Ty

variable {strict : Bool} {t : Ty} {ts : List Ty}

/-! ### Unions -/

theorem unionOf_of_any_mem (h : any ∈ ts) : unionOf strict ts = any := by
  rw [unionOf_eq, ofConstituents, if_pos (List.mem_flatMap.mpr ⟨any, h, List.mem_singleton_self _⟩)]

theorem widen_of_isNullish (h : t.isNullish = true) : t.widen false = any := by
  cases t with
  | null | undefined => rfl
  | _ => cases h

/-- What is neither null nor undefined stays when these are left out. -/
theorem mem_filter_isNullish_iff (ht : t.isNullish = false) : t ∈ ts.filter (!·.isNullish) ↔ t ∈ ts := by
  simp [List.mem_filter, ht]

theorem joinBooleans_filter_isNullish (ts : List Ty) :
    joinBooleans (ts.filter (!·.isNullish)) = (joinBooleans ts).filter (!·.isNullish) := by
  rw [joinBooleans, joinBooleans]
  by_cases h : booleanLiteral true ∈ ts ∧ booleanLiteral false ∈ ts
  · rw [if_pos h, if_pos ⟨(mem_filter_isNullish_iff rfl).mpr h.1, (mem_filter_isNullish_iff rfl).mpr h.2⟩]
    rw [List.filter_append, List.filter_filter, List.filter_filter]
    simp only [Bool.and_comm]
    rfl
  · rw [if_neg h, if_neg fun h' => h ⟨(mem_filter_isNullish_iff rfl).mp h'.1, (mem_filter_isNullish_iff rfl).mp h'.2⟩]

theorem absorbLiterals_filter_isNullish (ts : List Ty) :
    absorbLiterals (ts.filter (!·.isNullish)) = (absorbLiterals ts).filter (!·.isNullish) := by
  rw [absorbLiterals, absorbLiterals, List.filter_filter, List.filter_filter]
  refine List.filter_congr fun t _ => ?_
  rw [Bool.and_comm]
  refine congrArg (!t.isNullish && ·) ?_
  cases hliteral : t.isLiteral with
  | false => rfl
  | true => simp [mem_filter_isNullish_iff (isNullish_base hliteral)]

/-- What stays in a union beside another type is the same without null and undefined. -/
theorem reduced_filter_isNullish (h : ∃ t ∈ ts, t.isNullish = false) :
    reduced false (ts.filter (!·.isNullish)) = reduced false ts := by
  have hsteps : absorbNullish false (absorbLiterals (joinBooleans ts)) =
      (absorbLiterals (joinBooleans ts)).filter (!·.isNullish) := by
    obtain ⟨t, ht, hnot⟩ := h
    obtain ⟨v, hv, hbase, hnot⟩ := exists_stays_not_nullish (P := Among ts) (.inl ht) hnot
    refine if_pos (Bool.and_eq_true_iff.mpr ⟨rfl, List.any_eq_true.mpr ⟨v, ?_, by simp [hnot]⟩⟩)
    exact mem_absorbLiterals_joinBooleans_iff.mpr ⟨hv, hbase⟩
  rw [reduced, reduced, hsteps, joinBooleans_filter_isNullish, absorbLiterals_filter_isNullish, absorbNullish]
  split
  · rw [List.filter_filter]
    simp only [Bool.and_self]
  · rfl

/-- Null and undefined contribute to a union nothing but themselves. -/
theorem filter_isNullish_flatMap_constituents (ts : List Ty) :
    ((ts.filter (!·.isNullish)).flatMap constituents).filter (!·.isNullish) =
      (ts.flatMap constituents).filter (!·.isNullish) := by
  induction ts with
  | nil => rfl
  | cons t ts ih =>
    rw [List.flatMap_cons, List.filter_append, ← ih, List.filter_cons]
    cases hnullish : t.isNullish with
    | false =>
      rw [Bool.not_false, if_pos rfl, List.flatMap_cons, List.filter_append]
    | true =>
      have hnone : t.constituents.filter (!·.isNullish) = [] := by
        cases t with
        | null | undefined => rfl
        | _ => cases hnullish
      rw [hnone]
      rfl

/-- **A union absorbs null and undefined** beside any other type where they are no types of their own. -/
theorem unionOf_filter_isNullish (h : ∃ c ∈ ts.flatMap constituents, c.isNullish = false) :
    unionOf false (ts.filter (!·.isNullish)) = unionOf false ts := by
  have hsame := filter_isNullish_flatMap_constituents ts
  rw [unionOf_eq, unionOf_eq]
  generalize (ts.filter (!·.isNullish)).flatMap constituents = cs' at hsame ⊢
  generalize ts.flatMap constituents = cs at h hsame ⊢
  have hmem : ∀ {c : Ty}, c.isNullish = false → (c ∈ cs' ↔ c ∈ cs) := fun hc => by
    rw [← mem_filter_isNullish_iff hc, hsame, mem_filter_isNullish_iff hc]
  obtain ⟨c, hc, hnot⟩ := h
  have hreduced : reduced false cs' = reduced false cs := by
    rw [← reduced_filter_isNullish ⟨c, (hmem hnot).mpr hc, hnot⟩, hsame, reduced_filter_isNullish ⟨c, hc, hnot⟩]
  have hany : any ∈ cs' ↔ any ∈ cs := hmem rfl
  have hunknown : unknown ∈ cs' ↔ unknown ∈ cs := hmem rfl
  simp only [ofConstituents, hany, hunknown, hreduced]

end Ty

namespace Semantics

open Syntax

namespace View

/-! ### Types that are inferred -/

/-- The type of a node as it is asked for while the type of another one is computed. -/
def typeWhile (v : View) (id : NodeId) : NodeId → Ty := v.typeWithin v.tree.size (IdSet.empty.insert id)

/-- What a return adds to the inferred result of its function. -/
def returnedType (v : View) (ask : NodeId → Ty) : Option (Node Place) → Ty
  | some expr => (ask expr.id).widen v.strict
  | none => .undefined

/-- What is inferred for the result of a function from the values that its returns give back. -/
def inferredReturn (v : View) (ask : NodeId → Ty) (returns : List (Option (Node Place))) : Ty :=
  if returns.all (·.isNone) then .void else Ty.unionOf v.strict (returns.map (v.returnedType ask))

/-- Whether a value is left when those that are null or undefined are left out. -/
def isLeft (ask : NodeId → Ty) (value : Node Place) : Bool := !(ask value.id).isNullish

/-- Whether a return is left when the values that are null or undefined are left out. -/
def returnIsLeft (ask : NodeId → Ty) : Option (Node Place) → Bool
  | some expr => isLeft ask expr
  | none => true

/-- The type of a list without the elements that are null or undefined. -/
def leftListType (v : View) (n : Node Place) (es : List (Node Place)) : Ty :=
  v.computeType (v.typeWhile n.id) (.mk n.label (.arrayLiteral (es.filter (isLeft (v.typeWhile n.id)))))

/-- What is inferred for the result of a function without the returned values that are null or undefined. -/
def leftReturn (v : View) (f body : Node Place) : Ty :=
  v.inferredReturn (v.typeWhile f.id) ((returnsOf body).filter (returnIsLeft (v.typeWhile f.id)))

/-- What the function returns is inferred from its body, a block. -/
structure InfersReturn (v : View) (f body : Node Place) : Prop where
  mem : f ∈ v.tree.root.nodes
  hasBody : f.kind.body? = some body
  isBlock : body.kind.isBlock = true
  notWritten : writtenReturnType? f = none

/-- Inferred types are the same without null and undefined: in a list with another element, and in what a function
returns with another value. -/
structure AbsorbsNullish (v : View) : Prop where
  /-- Elements that are null or undefined make no difference to the type of a list. -/
  elements : ∀ n ∈ v.tree.root.nodes, ∀ es, n.kind = .arrayLiteral es →
    (∃ e ∈ es, isLeft (v.typeWhile n.id) e = true) → v.typeAt n.id = v.leftListType n es
  /-- Returned values that are null or undefined make no difference to what a function returns. -/
  returns : ∀ f body, v.InfersReturn f body →
    (∃ e, some e ∈ returnsOf body ∧ isLeft (v.typeWhile f.id) e = true) →
    resultType (v.typeAt f.id) = v.leftReturn f body

/-- Whether a list with some element that is left has the type that it has without the others. -/
def listAbsorbs (v : View) (n : Node Place) : Bool :=
  match n.kind with
  | .arrayLiteral es => !es.any (isLeft (v.typeWhile n.id)) || v.typeAt n.id == v.leftListType n es
  | _ => true

/-- Where null and undefined are no types of their own, null is not absorbed in the type of a list. -/
theorem not_absorbsNullish_list :
    let v := ofProgram (.ofFiles {} [.ofText "/file.ts" "[1, null];"]) (.parse "/file.ts" "[1, null];")
    v.strict = false ∧ ¬ v.AbsorbsNullish := by
  intro v
  have hmisses : ∃ n ∈ v.tree.root.nodes, v.listAbsorbs n = false := by decide +kernel
  refine ⟨rfl, fun h => ?_⟩
  obtain ⟨n, hn, hmisses⟩ := hmisses
  unfold listAbsorbs at hmisses
  split at hmisses
  · rename_i es hkind
    obtain ⟨hleft, hne⟩ := Bool.or_eq_false_iff.mp hmisses
    obtain ⟨e, he, hleft⟩ := List.any_eq_true.mp (by simpa using hleft)
    exact absurd (h.elements n hn es hkind ⟨e, he, hleft⟩) (beq_eq_false_iff_ne.mp hne)
  · cases hmisses

/-- What is inferred for lists and for the results of functions. -/
structure TakesNullishOver (v : View) : Prop where
  /-- The type of a list is the same without elements that are null or undefined if there are none, or if the other
  elements make `any` themselves. -/
  elements : ∀ n ∈ v.tree.root.nodes, ∀ es, n.kind = .arrayLiteral es → (v.typeAt n.id = v.leftListType n es ↔
    (∀ e ∈ es, isLeft (v.typeWhile n.id) e = true) ∨ v.leftListType n es = .array .any)
  /-- A list with such an element is one of `any`. -/
  anyElement : ∀ n ∈ v.tree.root.nodes, ∀ es, n.kind = .arrayLiteral es →
    (∃ e ∈ es, isLeft (v.typeWhile n.id) e = false) → v.typeAt n.id = .array .any
  /-- What a function returns is the same without such values if there are none, or if the other returns make `any`
  themselves. -/
  returns : ∀ f body, v.InfersReturn f body → (resultType (v.typeAt f.id) = v.leftReturn f body ↔
    (∀ e, some e ∈ returnsOf body → isLeft (v.typeWhile f.id) e = true) ∨ v.leftReturn f body = .any)
  /-- A function that gives back such a value returns `any`. -/
  anyReturn : ∀ f body, v.InfersReturn f body →
    (∃ e, some e ∈ returnsOf body ∧ isLeft (v.typeWhile f.id) e = false) → resultType (v.typeAt f.id) = .any
  /-- Returns without a value make no difference beside a value that is something else once it is widened. -/
  bare : ∀ f body, v.InfersReturn f body → (∃ e, some e ∈ returnsOf body ∧
      ∃ c ∈ ((v.typeWhile f.id e.id).widen false).constituents, c.isNullish = false) →
    resultType (v.typeAt f.id) = v.inferredReturn (v.typeWhile f.id) ((returnsOf body).filter (·.isSome))

variable {v : View} {ask : NodeId → Ty}

/-- A list with an element that is null or undefined is one of `any`. -/
theorem computeType_arrayLiteral_of_nullish (hstrict : v.strict = false) {n : Node Place} {es : List (Node Place)}
    (hkind : n.kind = .arrayLiteral es) (h : ∃ e ∈ es, isLeft ask e = false) :
    v.computeType ask n = .array .any := by
  obtain ⟨e, he, hnullish⟩ := h
  rw [isLeft, Bool.not_eq_false'] at hnullish
  have hany : Ty.any ∈ es.map fun e => (ask e.id).widen v.strict :=
    List.mem_map.mpr ⟨e, he, hstrict ▸ Ty.widen_of_isNullish hnullish⟩
  have htype : v.computeType ask n = .array (Ty.unionOf v.strict (es.map fun e => (ask e.id).widen v.strict)) := by
    rw [computeType, hkind]
    cases es with
    | nil => exact absurd he List.not_mem_nil
    | cons => rfl
  rw [htype, Ty.unionOf_of_any_mem hany]

/-- A function that gives back a value that is null or undefined returns `any`. -/
theorem inferredReturn_of_nullish (hstrict : v.strict = false) {returns : List (Option (Node Place))}
    (h : ∃ e, some e ∈ returns ∧ isLeft ask e = false) : v.inferredReturn ask returns = .any := by
  obtain ⟨e, he, hnullish⟩ := h
  rw [isLeft, Bool.not_eq_false'] at hnullish
  rw [inferredReturn, if_neg fun hall => absurd (List.all_eq_true.mp hall _ he) Bool.false_ne_true, hstrict]
  refine Ty.unionOf_of_any_mem (List.mem_map.mpr ⟨some e, he, ?_⟩)
  rw [returnedType, hstrict]
  exact Ty.widen_of_isNullish hnullish

/-- Returns without a value are absorbed beside a value that is something else once it is widened. -/
theorem inferredReturn_filter_isSome (hstrict : v.strict = false) {returns : List (Option (Node Place))}
    (h : ∃ e, some e ∈ returns ∧ ∃ c ∈ ((ask e.id).widen false).constituents, c.isNullish = false) :
    v.inferredReturn ask (returns.filter (·.isSome)) = v.inferredReturn ask returns := by
  obtain ⟨e, he, c, hc, hnot⟩ := h
  have he' : some e ∈ returns.filter (·.isSome) := List.mem_filter.mpr ⟨he, rfl⟩
  have hvalues : ∀ {returns : List (Option (Node Place))}, some e ∈ returns →
      v.inferredReturn ask returns = Ty.unionOf false ((returns.map (v.returnedType ask)).filter (!·.isNullish)) :=
    fun {returns} he => by
      rw [inferredReturn, if_neg fun hall => absurd (List.all_eq_true.mp hall _ he) Bool.false_ne_true, hstrict]
      refine (Ty.unionOf_filter_isNullish ⟨c, List.mem_flatMap.mpr ⟨_, List.mem_map_of_mem he, ?_⟩, hnot⟩).symm
      rw [returnedType, hstrict]
      exact hc
  -- what a bare return adds is left out anyway
  have hsame : ((returns.filter (·.isSome)).map (v.returnedType ask)).filter (!·.isNullish) =
      (returns.map (v.returnedType ask)).filter (!·.isNullish) := by
    rw [List.filter_map, List.filter_map, List.filter_filter]
    refine congrArg _ (List.filter_congr fun r _ => ?_)
    cases r with
    | none => rfl
    | some => simp
  rw [hvalues he', hvalues he, hsame]

/-- What is inferred for the result of a function without a written type. -/
theorem InfersReturn.resultType_typeAt {f body : Node Place} (h : v.InfersReturn f body)
    (hf : v.tree.node? f.id = some f) :
    resultType (v.typeAt f.id) = v.inferredReturn (v.typeWhile f.id) (returnsOf body) := by
  obtain ⟨-, hbody, hblock, htype⟩ := h
  obtain ⟨statements, hkind⟩ : ∃ statements, body.kind = .block statements := by
    cases hkind : body.kind <;> simp [hkind, Kind.isBlock] at hblock
    exact ⟨_, rfl⟩
  have hfunction : ∃ params, v.computeType (v.typeWhile f.id) f =
      v.functionType (v.typeWhile f.id) params none body := by
    unfold writtenReturnType? at htype
    rw [computeType]
    cases hf : f.kind <;> simp [hf, Kind.body?] at hbody htype <;> subst hbody htype <;> exact ⟨_, rfl⟩
  obtain ⟨params, hfunction⟩ := hfunction
  rw [typeAt_eq_computeType hf]
  change resultType (v.computeType (v.typeWhile f.id) f) = _
  rw [hfunction]
  unfold functionType inferredReturn
  rw [hkind]
  have hreturned : (v.returnedType (v.typeWhile f.id)) = fun
      | some expr => (v.typeWhile f.id expr.id).widen v.strict
      | none => .undefined := by
    funext r
    cases r <;> rfl
  rw [hreturned]
  rfl

/-- A list without its elements that are null or undefined has another type unless there are none or it is one of
`any` anyway. -/
theorem typeAt_eq_leftListType_iff (hstrict : v.strict = false) {n : Node Place} {es : List (Node Place)}
    (hn : v.tree.node? n.id = some n) (hkind : n.kind = .arrayLiteral es) :
    v.typeAt n.id = v.leftListType n es ↔
      (∀ e ∈ es, isLeft (v.typeWhile n.id) e = true) ∨ v.leftListType n es = .array .any := by
  have htype : v.typeAt n.id = v.computeType (v.typeWhile n.id) n := typeAt_eq_computeType hn
  by_cases hall : ∀ e ∈ es, isLeft (v.typeWhile n.id) e = true
  · refine iff_of_true ?_ (.inl hall)
    rw [htype, leftListType, List.filter_eq_self.mpr hall, ← hkind]
    obtain ⟨l, k⟩ := n
    rfl
  · have hsome : ∃ e ∈ es, isLeft (v.typeWhile n.id) e = false := by simpa using hall
    rw [htype, computeType_arrayLiteral_of_nullish hstrict hkind hsome, or_iff_right hall]
    exact eq_comm

/-- A function without the returned values that are null or undefined returns another type unless there are none
or it is `any` anyway. -/
theorem InfersReturn.eq_leftReturn_iff (hstrict : v.strict = false) {f body : Node Place} (h : v.InfersReturn f body)
    (hf : v.tree.node? f.id = some f) : resultType (v.typeAt f.id) = v.leftReturn f body ↔
      (∀ e, some e ∈ returnsOf body → isLeft (v.typeWhile f.id) e = true) ∨ v.leftReturn f body = .any := by
  rw [h.resultType_typeAt hf]
  by_cases hall : ∀ e, some e ∈ returnsOf body → isLeft (v.typeWhile f.id) e = true
  · refine iff_of_true ?_ (.inl hall)
    rw [leftReturn, List.filter_eq_self.mpr]
    rintro (_ | e) he
    · rfl
    · exact hall e he
  · have hsome : ∃ e, some e ∈ returnsOf body ∧ isLeft (v.typeWhile f.id) e = false := by simpa using hall
    rw [inferredReturn_of_nullish hstrict hsome, or_iff_right hall]
    exact eq_comm

/-- **Null and undefined alone take the type over**: lists with such an element and functions that return such a value
have `any` in their types where null and undefined are no types of their own. -/
theorem takesNullishOver_parse (p : Program) (hstrict : p.options.strictNullChecks = false)
    (fileName text : String) : (ofProgram p (Tree.parse fileName text)).TakesNullishOver := by
  have hstrict : (ofProgram p (Tree.parse fileName text)).strict = false := hstrict
  have ht := Tree.numbered_parse fileName text
  have hnode : ∀ {n : Node Place}, n ∈ (Tree.parse fileName text).root.nodes →
      (ofProgram p (Tree.parse fileName text)).tree.node? n.id = some n := fun hn => ht.node?_iff.mpr ⟨hn, rfl⟩
  refine ⟨fun n hn es hkind => ?_, fun n hn es hkind hsome => ?_, fun f body h => ?_, fun f body h hsome => ?_,
    fun f body h hsome => ?_⟩
  · exact typeAt_eq_leftListType_iff hstrict (hnode hn) hkind
  · rw [typeAt_eq_computeType (hnode hn)]
    exact computeType_arrayLiteral_of_nullish hstrict hkind hsome
  · exact h.eq_leftReturn_iff hstrict (hnode h.mem)
  · rw [h.resultType_typeAt (hnode h.mem)]
    exact inferredReturn_of_nullish hstrict hsome
  · rw [h.resultType_typeAt (hnode h.mem)]
    exact (inferredReturn_filter_isSome hstrict hsome).symm

/-- Such a program is one without options. -/
theorem takesNullishOver_parse_list :
    (Program.ofFiles {} [.ofText "/file.ts" "[1, null];"]).options.strictNullChecks = false ∧
      (ofProgram (.ofFiles {} [.ofText "/file.ts" "[1, null];"]) (.parse "/file.ts" "[1, null];")).TakesNullishOver :=
  ⟨rfl, takesNullishOver_parse _ rfl _ _⟩

end View

end Semantics

end ScriptAnalysis

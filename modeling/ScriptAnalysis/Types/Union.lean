import ScriptAnalysis.Types.Basic

/-!
# Unions and widening

`Ty.union` builds the union of some types in its normal form: it has no union and no `never` among its
members and no member twice, `any` and `unknown` take over the others, a literal gives way to its own
type, `true` and `false` together are `boolean`, and where null and undefined are no types of their own
they give way to any other member. A union of one member is that member, one of none is `never`.

Widening turns literals into the types they belong to, as for a variable that can change.
-/

namespace ScriptAnalysis.Ty

/-- The members of a union; `never` has none and any other type is its only member. -/
def constituents : Ty → List Ty
  | union members => members
  | never => []
  | t => [t]

/-- The list without the members that occurred earlier in it or in `seen`. -/
def dedupAfter (seen : List Ty) : List Ty → List Ty
  | [] => []
  | t :: ts => if t ∈ seen then dedupAfter seen ts else t :: dedupAfter (t :: seen) ts

/-- `true` and `false` together as `boolean`, which comes last. -/
def joinBooleans (ts : List Ty) : List Ty :=
  if booleanLiteral true ∈ ts ∧ booleanLiteral false ∈ ts then
    (ts.filter fun t => match t with
      | booleanLiteral _ => false
      | _ => true) ++ [boolean]
  else ts

/-- The list without the literals whose own type is in it. -/
def absorbLiterals (ts : List Ty) : List Ty :=
  ts.filter fun t => !(t.isLiteral && ts.contains t.base)

/-- The list without null and undefined where they are no types of their own and something else is
there. -/
def absorbNullish (strict : Bool) (ts : List Ty) : List Ty :=
  if !strict && ts.any (!·.isNullish) then ts.filter (!·.isNullish) else ts

/-- The union of distinct members. -/
def ofMembers : List Ty → Ty
  | [] => never
  | [t] => t
  | ts => union ts

/-- The union of some types; `strict` says whether null and undefined are types of their own. -/
def unionOf (strict : Bool) (ts : List Ty) : Ty :=
  let members := ts.flatMap constituents
  if members.any isAny then any
  else if unknown ∈ members then unknown
  else ofMembers (dedupAfter [] (absorbNullish strict (absorbLiterals (joinBooleans members))))

mutual

/-- The type of a variable that starts with a value of the type and can change. Where null and
undefined are no types of their own such a variable can hold anything. -/
def widen (strict : Bool) : Ty → Ty
  | .numberLiteral _ => .number
  | .stringLiteral _ => .string
  | .booleanLiteral _ => .boolean
  | .null => if strict then .null else .any
  | .undefined => if strict then .undefined else .any
  | .union members => unionOf strict (widenList strict members)
  | t => t

/-- The types widened. -/
def widenList (strict : Bool) : List Ty → List Ty
  | [] => []
  | t :: ts => widen strict t :: widenList strict ts

end

@[simp] theorem widenList_eq_map (strict : Bool) (ts : List Ty) :
    widenList strict ts = ts.map (widen strict) := by
  induction ts with
  | nil => rfl
  | cons t ts ih => simp [widenList, ih]

/-- The type of a constant: only null and undefined widen, where they are no types of their own. -/
def widenNullish (strict : Bool) (t : Ty) : Ty := if !strict && t.isNullish then any else t

end ScriptAnalysis.Ty

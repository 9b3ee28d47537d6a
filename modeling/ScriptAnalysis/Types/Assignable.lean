import ScriptAnalysis.Types.Basic

/-!
# Assignability

`Ty.assignable strict s t` says whether a value of type `s` can be given to what has type `t`; `strict`
says whether null and undefined are types of their own. The measure is the size of the two types
together, since parameters are compared in both directions.
-/

namespace ScriptAnalysis.Ty

/-- Whether `s` is assignable to `t` without looking inside: the types are the same, `t` takes every
value, `s` is `any` or has no value, or `s` is null or undefined and may stand for anything or is
undefined for `void`. -/
def assignableAtOnce (strict : Bool) (s t : Ty) : Bool :=
  if s = t then true
  else
    match s, t with
    | _, any | _, unknown | any, _ | never, _ => true
    | undefined, void => true
    | null, _ | undefined, _ => !strict
    | _, _ => false

/-- How many parameters need an argument. -/
def requiredCount (params : List (Param Ty)) : Nat :=
  params.countP fun p => !p.optional && !p.rest

/-- Whether a function that needs so many arguments as `source` can be called as `target` is. -/
def arityFits (source target : List (Param Ty)) : Bool :=
  requiredCount source ≤ target.length || target.any (·.rest)

mutual

/-- Whether a value of the first type can be given to what has the second. -/
def assignable (strict : Bool) (s t : Ty) : Bool :=
  if assignableAtOnce strict s t then true
  else
    match s, t with
    | .union members, t => allAssignable strict members t
    | s, .union members => anyAssignable strict s members
    | .numberLiteral _, .number | .stringLiteral _, .string | .booleanLiteral _, .boolean => true
    | .array s, .array t => assignable strict s t
    | .function ps r, .function qs r' =>
      arityFits ps qs && paramsRelated strict ps qs &&
        (match r' with
          | .void => true
          | r' => assignable strict r r')
    | .object i _ _, .object j _ _ => i == j
    | _, _ => false
termination_by sizeOf s + sizeOf t

/-- Whether every one of the types is assignable. -/
def allAssignable (strict : Bool) (members : List Ty) (t : Ty) : Bool :=
  match members with
  | [] => true
  | s :: members => assignable strict s t && allAssignable strict members t
termination_by sizeOf members + sizeOf t

/-- Whether the type is assignable to one of the types. -/
def anyAssignable (strict : Bool) (s : Ty) (members : List Ty) : Bool :=
  match members with
  | [] => false
  | t :: members => assignable strict s t || anyAssignable strict s members
termination_by sizeOf s + sizeOf members

/-- Whether parameters at the same places are assignable one way or the other. -/
def paramsRelated (strict : Bool) (ps qs : List (Param Ty)) : Bool :=
  match ps, qs with
  | ⟨_, s, _, _⟩ :: ps, ⟨_, t, _, _⟩ :: qs =>
    (assignable strict t s || assignable strict s t) && paramsRelated strict ps qs
  | _, _ => true
termination_by sizeOf ps + sizeOf qs

end

end ScriptAnalysis.Ty

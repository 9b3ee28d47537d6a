/-!
# Types

The types of values. A union of types is a list of members; a function has parameters, which may be
optional or take the rest of the arguments; an object is one of the named objects of the environment
with its members. Equality of types is decided by `Ty.beq`.
-/

namespace ScriptAnalysis

/-- A parameter of a function type. -/
structure Param (τ : Type) where
  /-- The name of the parameter. -/
  name : String
  /-- Its type. -/
  type : τ
  /-- Whether it may be left out. -/
  optional : Bool := false
  /-- Whether it takes all further arguments. -/
  rest : Bool := false
  deriving DecidableEq, Repr

/-- A type. -/
inductive Ty where
  /-- Every value, unchecked. -/
  | any
  /-- Every value. -/
  | unknown
  /-- No value. -/
  | never
  /-- What a function without a result returns. -/
  | void
  /-- The undefined value. -/
  | undefined
  /-- The null value. -/
  | null
  /-- Numbers. -/
  | number
  /-- Strings. -/
  | string
  /-- Truth values. -/
  | boolean
  /-- One number, by its written form. -/
  | numberLiteral (text : String)
  /-- One string. -/
  | stringLiteral (value : String)
  /-- One truth value. -/
  | booleanLiteral (value : Bool)
  /-- Lists. -/
  | array (element : Ty)
  /-- What belongs to one of the members. -/
  | union (members : List Ty)
  /-- Functions. -/
  | function (params : List (Param Ty)) (ret : Ty)
  /-- An object of the environment, known by its number. -/
  | object (id : Nat) (name : String) (members : List (String × Ty))
  deriving Inhabited

namespace Ty

/-! ### Equality -/

mutual

/-- Whether two types are the same. -/
def beq : Ty → Ty → Bool
  | .any, .any | .unknown, .unknown | .never, .never | .void, .void | .undefined, .undefined
  | .null, .null | .number, .number | .string, .string | .boolean, .boolean => true
  | .numberLiteral a, .numberLiteral b => a == b
  | .stringLiteral a, .stringLiteral b => a == b
  | .booleanLiteral a, .booleanLiteral b => a == b
  | .array a, .array b => beq a b
  | .union as, .union bs => beqList as bs
  | .function ps a, .function qs b => beqParams ps qs && beq a b
  | .object i m as, .object j n bs => i == j && m == n && beqMembers as bs
  | _, _ => false

/-- Whether two lists of types are the same. -/
def beqList : List Ty → List Ty → Bool
  | [], [] => true
  | a :: as, b :: bs => beq a b && beqList as bs
  | _, _ => false

/-- Whether two lists of parameters are the same. -/
def beqParams : List (Param Ty) → List (Param Ty) → Bool
  | [], [] => true
  | ⟨m, a, o, r⟩ :: ps, ⟨n, b, p, s⟩ :: qs =>
    m == n && beq a b && o == p && r == s && beqParams ps qs
  | _, _ => false

/-- Whether two lists of members are the same. -/
def beqMembers : List (String × Ty) → List (String × Ty) → Bool
  | [], [] => true
  | (m, a) :: as, (n, b) :: bs => m == n && beq a b && beqMembers as bs
  | _, _ => false

end

mutual

theorem beq_iff : ∀ a b : Ty, beq a b = true ↔ a = b
  | .any, b | .unknown, b | .never, b | .void, b | .undefined, b | .null, b | .number, b
  | .string, b | .boolean, b | .numberLiteral _, b | .stringLiteral _, b
  | .booleanLiteral _, b => by cases b <;> simp [beq]
  | .array a, b => by cases b <;> simp [beq, beq_iff a]
  | .union as, b => by cases b <;> simp [beq, beqList_iff as]
  | .function ps a, b => by cases b <;> simp [beq, beqParams_iff ps, beq_iff a]
  | .object i m as, b => by cases b <;> simp [beq, beqMembers_iff as, and_assoc]

theorem beqList_iff : ∀ as bs : List Ty, beqList as bs = true ↔ as = bs
  | [], bs => by cases bs <;> simp [beqList]
  | a :: as, bs => by cases bs <;> simp [beqList, beq_iff a, beqList_iff as]

theorem beqParams_iff : ∀ ps qs : List (Param Ty), beqParams ps qs = true ↔ ps = qs
  | [], qs => by cases qs <;> simp [beqParams]
  | ⟨_, _, _, _⟩ :: _, [] => by simp [beqParams]
  | ⟨_, a, _, _⟩ :: ps, ⟨_, _, _, _⟩ :: qs => by
    simp [beqParams, beq_iff a, beqParams_iff ps, and_assoc]

theorem beqMembers_iff : ∀ as bs : List (String × Ty), beqMembers as bs = true ↔ as = bs
  | [], bs => by cases bs <;> simp [beqMembers]
  | (_, _) :: _, [] => by simp [beqMembers]
  | (_, a) :: as, (_, _) :: bs => by
    simp [beqMembers, beq_iff a, beqMembers_iff as, and_assoc]

end

instance : DecidableEq Ty := fun a b => decidable_of_iff (beq a b = true) (beq_iff a b)

/-! ### Kinds of types -/

/-- Whether the type is `any`. -/
def isAny : Ty → Bool
  | any => true
  | _ => false

/-- Whether the type is a single number, string or truth value. -/
def isLiteral : Ty → Bool
  | numberLiteral _ | stringLiteral _ | booleanLiteral _ => true
  | _ => false

/-- Whether the type is that of null or of undefined. -/
def isNullish : Ty → Bool
  | null | undefined => true
  | _ => false

mutual

/-- Whether every value of the type is a number; of a union every member has to be so. -/
def isNumberLike : Ty → Bool
  | .number | .numberLiteral _ => true
  | .union members => allNumberLike members
  | _ => false

/-- Whether all types are number-like. -/
def allNumberLike : List Ty → Bool
  | [] => true
  | t :: ts => isNumberLike t && allNumberLike ts

end

mutual

/-- Whether every value of the type is a string; of a union every member has to be so. -/
def isStringLike : Ty → Bool
  | .string | .stringLiteral _ => true
  | .union members => allStringLike members
  | _ => false

/-- Whether all types are string-like. -/
def allStringLike : List Ty → Bool
  | [] => true
  | t :: ts => isStringLike t && allStringLike ts

end

/-- The type that a literal belongs to; any other type is itself. -/
def base : Ty → Ty
  | numberLiteral _ => number
  | stringLiteral _ => string
  | booleanLiteral _ => boolean
  | t => t

end Ty

namespace Ty

/-- The place and the type of the first member with a name. -/
def memberFrom? (name : String) (index : Nat) : List (String × Ty) → Option (Nat × Ty)
  | [] => none
  | (n, t) :: members => if n = name then some (index, t) else memberFrom? name (index + 1) members

/-- The place and the type of the member of an object with a name. -/
def member? (members : List (String × Ty)) (name : String) : Option (Nat × Ty) :=
  memberFrom? name 0 members

end Ty

end ScriptAnalysis

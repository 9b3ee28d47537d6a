import ScriptAnalysis.Types.Assignable
import ScriptAnalysis.Proofs.Types.Normal

/-!
# Assignability as an order

What assignability comes down to: from a union it asks every member (`assignable_union_left`), to a union some
member (`assignable_union_right`), and between types that are no unions there are the few ways of `Ty.Fits`
(`assignable_iff_fits`).

Every type is assignable to itself. Assignability is transitive through a type in which neither `any` nor a
function occurs (`Ty.Concrete`, `preorder_assignable`): `any` stands between types that have nothing in common, and
parameters are compared in both directions.
-/

namespace ScriptAnalysis.Ty

variable {strict : Bool} {s t u : Ty} {ts : List Ty}

/-! ### The ends of the order -/

/-- Whether the type is assignable to every type by its form alone. -/
def isLeast (strict : Bool) : Ty → Bool
  | any | never => true
  | null | undefined => !strict
  | _ => false

/-- Whether every type is assignable to the type by its form alone. -/
def isGreatest : Ty → Bool
  | any | unknown => true
  | _ => false

theorem assignableAtOnce_iff : assignableAtOnce strict s t = true ↔
    s = t ∨ t.isGreatest = true ∨ s.isLeast strict = true ∨ (s = undefined ∧ t = void) := by
  unfold assignableAtOnce
  by_cases h : s = t
  · simp [h]
  · rw [if_neg h]
    cases s <;> cases t <;> simp_all [isLeast, isGreatest]

/-! ### Lists of types -/

theorem allAssignable_iff : allAssignable strict ts t = true ↔ ∀ s ∈ ts, s.assignable strict t = true := by
  induction ts with
  | nil => simp [allAssignable]
  | cons s ts ih => rw [allAssignable, Bool.and_eq_true, ih, List.forall_mem_cons]

theorem anyAssignable_iff : anyAssignable strict s ts = true ↔ ∃ t ∈ ts, s.assignable strict t = true := by
  induction ts with
  | nil => simp [anyAssignable]
  | cons t ts ih => simp [anyAssignable, ih]

/-! ### At once -/

theorem assignable_of_atOnce (h : assignableAtOnce strict s t = true) : s.assignable strict t = true := by
  unfold assignable
  exact if_pos h

theorem assignable_self (strict : Bool) (t : Ty) : t.assignable strict t = true :=
  assignable_of_atOnce (assignableAtOnce_iff.mpr (.inl rfl))

theorem assignable_of_isGreatest (h : t.isGreatest = true) : s.assignable strict t = true :=
  assignable_of_atOnce (assignableAtOnce_iff.mpr (.inr (.inl h)))

theorem assignable_of_isLeast (h : s.isLeast strict = true) : s.assignable strict t = true :=
  assignable_of_atOnce (assignableAtOnce_iff.mpr (.inr (.inr (.inl h))))

/-! ### Unions -/

/-- What holds of the types that are no unions, and of a union if it holds of its members, holds of all types. -/
theorem induction_union {P : Ty → Prop} (single : ∀ t, (∀ ts, t ≠ union ts) → P t)
    (union : ∀ ts, (∀ t ∈ ts, P t) → P (.union ts)) : ∀ t, P t
  | .union ts => union ts fun t _ => induction_union single union t
  | .any | .unknown | .never | .void | .undefined | .null | .number | .string | .boolean | .numberLiteral _
  | .stringLiteral _ | .booleanLiteral _ | .array _ | .function _ _ | .object _ _ _ => single _ nofun

/-- How a union comes to be assignable. -/
private theorem cases_of_union (h : (union ts).assignable strict t = true) :
    union ts = t ∨ t.isGreatest = true ∨ ∀ s ∈ ts, s.assignable strict t = true := by
  unfold assignable at h
  split at h
  · rename_i hatOnce
    rcases assignableAtOnce_iff.mp hatOnce with rfl | hgreatest | hleast | ⟨hundefined, -⟩
    · exact .inl rfl
    · exact .inr (.inl hgreatest)
    · cases hleast
    · cases hundefined
  · exact .inr (.inr (allAssignable_iff.mp h))

/-- What is assignable to a member of a union is assignable to the union. -/
theorem assignable_union_of_mem (ht : t ∈ ts) (h : s.assignable strict t = true) :
    s.assignable strict (union ts) = true := by
  induction s using induction_union generalizing t ts with
  | single s hs =>
    unfold assignable
    split
    · rfl
    · cases s with
      | union ss => exact absurd rfl (hs ss)
      | _ => exact anyAssignable_iff.mpr ⟨t, ht, h⟩
  | union ss ih =>
    have hmembers : ∀ s ∈ ss, s.assignable strict t = true := by
      intro s hs
      rcases cases_of_union h with rfl | hgreatest | hall
      · exact ih s hs hs (assignable_self strict s)
      · exact assignable_of_isGreatest hgreatest
      · exact hall s hs
    unfold assignable
    split
    · rfl
    · exact allAssignable_iff.mpr fun s hs => ih s hs ht (hmembers s hs)

/-- A union is assignable exactly when all of its members are. -/
theorem assignable_union_left : (union ts).assignable strict t = true ↔ ∀ s ∈ ts, s.assignable strict t = true := by
  constructor
  · intro h s hs
    rcases cases_of_union h with rfl | hgreatest | hall
    · exact assignable_union_of_mem hs (assignable_self strict s)
    · exact assignable_of_isGreatest hgreatest
    · exact hall s hs
  · intro h
    unfold assignable
    split
    · rfl
    · exact allAssignable_iff.mpr h

/-- What is no union itself is assignable to a union when it is to one of the members, or to everything. -/
theorem assignable_union_right (hs : ∀ ss, s ≠ union ss) :
    s.assignable strict (union ts) = true ↔ s.isLeast strict = true ∨ ∃ t ∈ ts, s.assignable strict t = true := by
  constructor
  · intro h
    unfold assignable at h
    split at h
    · rename_i hatOnce
      rcases assignableAtOnce_iff.mp hatOnce with rfl | hgreatest | hleast | ⟨-, hvoid⟩
      · exact absurd rfl (hs ts)
      · cases hgreatest
      · exact .inl hleast
      · cases hvoid
    · refine .inr (anyAssignable_iff.mp ?_)
      cases s with
      | union ss => exact absurd rfl (hs ss)
      | _ => exact h
  · rintro (hleast | ⟨t, ht, h⟩)
    · exact assignable_of_isLeast hleast
    · exact assignable_union_of_mem ht h

/-! ### Types that are no unions -/

/-- The ways in which a type that is no union is assignable to another one. -/
inductive Fits (strict : Bool) : Ty → Ty → Prop where
  /-- The types are the same. -/
  | self (t : Ty) : Fits strict t t
  /-- The target takes every value. -/
  | greatest {s t : Ty} (h : t.isGreatest = true) : Fits strict s t
  /-- The source can stand for everything. -/
  | least {s t : Ty} (h : s.isLeast strict = true) : Fits strict s t
  /-- A function without a result returns undefined. -/
  | undefined : Fits strict undefined void
  /-- A literal belongs to its own type. -/
  | literal {s t : Ty} (h : s.isLiteral = true) (ht : t = s.base) : Fits strict s t
  /-- Lists are compared by their elements. -/
  | array {s t : Ty} (h : s.assignable strict t = true) : Fits strict (array s) (array t)
  /-- Functions are compared by how they are called and by what they return. -/
  | function {ps qs : List (Param Ty)} {r r' : Ty} (harity : arityFits ps qs = true)
      (hparams : paramsRelated strict ps qs = true) (hret : r' = void ∨ r.assignable strict r' = true) :
      Fits strict (function ps r) (function qs r')
  /-- Objects are known by their numbers. -/
  | object (id : Nat) (m n : String) (ms ns : List (String × Ty)) : Fits strict (object id m ms) (object id n ns)

theorem Fits.assignable (h : Fits strict s t) : s.assignable strict t = true := by
  cases h with
  | self => exact assignable_self strict s
  | greatest h => exact assignable_of_isGreatest h
  | least h => exact assignable_of_isLeast h
  | undefined => exact assignable_of_atOnce (assignableAtOnce_iff.mpr (.inr (.inr (.inr ⟨rfl, rfl⟩))))
  | literal h ht =>
    subst ht
    unfold Ty.assignable
    cases s with
    | numberLiteral | stringLiteral | booleanLiteral => exact ite_self _
    | _ => cases h
  | array h =>
    unfold Ty.assignable
    split
    · rfl
    · exact h
  | function harity hparams hret =>
    unfold Ty.assignable
    split
    · rfl
    · dsimp only
      rw [harity, hparams]
      split
      · rfl
      · rename_i hvoid
        exact hret.resolve_left hvoid
  | object id =>
    unfold Ty.assignable
    split
    · rfl
    · exact beq_self_eq_true id

/-- Between types that are no unions there is no other way. -/
theorem assignable_iff_fits (hs : ∀ ss, s ≠ union ss) (ht : ∀ ts, t ≠ union ts) :
    s.assignable strict t = true ↔ Fits strict s t := by
  refine ⟨fun h => ?_, Fits.assignable⟩
  unfold Ty.assignable at h
  split at h
  · rename_i hatOnce
    rcases assignableAtOnce_iff.mp hatOnce with rfl | hgreatest | hleast | ⟨rfl, rfl⟩
    · exact .self _
    · exact .greatest hgreatest
    · exact .least hleast
    · exact .undefined
  · split at h
    · exact absurd rfl (hs _)
    · exact absurd rfl (ht _)
    · exact .literal rfl rfl
    · exact .literal rfl rfl
    · exact .literal rfl rfl
    · exact .array h
    · obtain ⟨⟨harity, hparams⟩, hret⟩ := by simpa only [Bool.and_eq_true] using h
      refine .function harity hparams ?_
      split at hret
      · exact .inl rfl
      · exact .inr hret
    · obtain rfl := eq_of_beq h
      exact .object _ _ _ _ _
    · cases h

/-! ### Transitivity -/

/-- Neither `any` nor a function occurs in the type. The members of an object may have any types, since objects are
known by their numbers. -/
inductive Concrete : Ty → Prop where
  /-- A list of what is concrete. -/
  | array {t : Ty} (h : t.Concrete) : Concrete (array t)
  /-- A union of concrete types. -/
  | union {ts : List Ty} (h : ∀ t ∈ ts, t.Concrete) : Concrete (union ts)
  /-- Any other type but the two. -/
  | other {t : Ty} (hany : t ≠ any) (hfunction : ∀ params ret, t ≠ function params ret)
      (harray : ∀ element, t ≠ array element) (hunion : ∀ ts, t ≠ union ts) : Concrete t

/-- Only what is assignable to everything is assignable to such a type, unless that is `any`. -/
theorem Fits.isLeast (h : Fits strict s t) (ht : t.isLeast strict = true) (hany : t ≠ any) :
    s.isLeast strict = true := by
  cases h with
  | self => exact ht
  | greatest h =>
    cases t with
    | any => exact absurd rfl hany
    | unknown => cases ht
    | _ => cases h
  | least h => exact h
  | literal h hbase =>
    subst hbase
    cases s with
    | numberLiteral | stringLiteral | booleanLiteral => cases ht
    | _ => cases h
  | undefined | array | function | object => cases ht

/-- Below a literal and below undefined there is nothing but what is assignable to everything. -/
theorem Fits.eq_or_isLeast (h : Fits strict s t) (ht : t.isLiteral = true ∨ t = Ty.undefined) :
    s = t ∨ s.isLeast strict = true := by
  cases h with
  | self => exact .inl rfl
  | greatest h => cases t <;> simp_all [isLiteral, isGreatest]
  | least h => exact .inr h
  | literal h hbase => cases s <;> simp_all [isLiteral, base]
  | undefined | array | function | object => simp [isLiteral] at ht

/-- Transitivity through a type that is no union follows from the case of no unions at all. -/
theorem assignable_trans_of_fits (hany : t ≠ any) (hunion : ∀ ts, t ≠ union ts)
    (h : ∀ s u, Fits strict s t → Fits strict t u → s.assignable strict u = true)
    (hst : s.assignable strict t = true) (htu : t.assignable strict u = true) : s.assignable strict u = true := by
  induction s using induction_union with
  | union ss ih =>
    exact assignable_union_left.mpr fun s hs => ih s hs (assignable_union_left.mp hst s hs)
  | single s hs =>
    have hfits : Fits strict s t := (assignable_iff_fits hs hunion).mp hst
    induction u using induction_union with
    | union us ih =>
      rcases (assignable_union_right hunion).mp htu with hleast | ⟨u, hu, htu⟩
      · exact assignable_of_isLeast (hfits.isLeast hleast hany)
      · exact assignable_union_of_mem hu (ih u hu htu)
    | single u hu => exact h s u hfits ((assignable_iff_fits hunion hu).mp htu)

/-- Assignability is transitive through a concrete type. -/
theorem Concrete.trans (ht : t.Concrete) (hst : s.assignable strict t = true) (htu : t.assignable strict u = true) :
    s.assignable strict u = true := by
  induction ht generalizing s u with
  | @union ts h ih =>
    induction s using induction_union with
    | union ss ihs =>
      exact assignable_union_left.mpr fun s hs => ihs s hs (assignable_union_left.mp hst s hs)
    | single s hs =>
      rcases (assignable_union_right hs).mp hst with hleast | ⟨t, ht, hst⟩
      · exact assignable_of_isLeast hleast
      · exact ih t ht hst (assignable_union_left.mp htu t ht)
  | @array t _ ih =>
    refine assignable_trans_of_fits (t := .array t) nofun nofun (fun s u hst htu => ?_) hst htu
    cases htu with
    | self => exact hst.assignable
    | greatest h => exact assignable_of_isGreatest h
    | least h => cases h
    | literal h => cases h
    | array htu =>
      cases hst with
      | self => exact (Fits.array htu).assignable
      | greatest h => cases h
      | least h => exact assignable_of_isLeast h
      | literal h hbase =>
        cases s with
        | numberLiteral | stringLiteral | booleanLiteral => cases hbase
        | _ => cases h
      | array hst => exact (Fits.array (ih hst htu)).assignable
  | @other t hany hfunction harray hunion =>
    refine assignable_trans_of_fits hany hunion (fun s u hst htu => ?_) hst htu
    cases htu with
    | self => exact hst.assignable
    | greatest h => exact assignable_of_isGreatest h
    | least h => exact assignable_of_isLeast (hst.isLeast h hany)
    | undefined =>
      rcases hst.eq_or_isLeast (.inr rfl) with rfl | hleast
      · exact Fits.undefined.assignable
      · exact assignable_of_isLeast hleast
    | literal h hbase =>
      rcases hst.eq_or_isLeast (.inl h) with rfl | hleast
      · exact (Fits.literal h hbase).assignable
      · exact assignable_of_isLeast hleast
    | array => exact absurd rfl (harray _)
    | function => exact absurd rfl (hfunction _ _)
    | object =>
      cases hst with
      | self => exact (Fits.object ..).assignable
      | greatest h => cases h
      | least h => exact assignable_of_isLeast h
      | literal h hbase =>
        cases s with
        | numberLiteral | stringLiteral | booleanLiteral => cases hbase
        | _ => cases h
      | object => exact (Fits.object ..).assignable

/-- **Assignability is a preorder** away from `any` and functions: every type is assignable to itself, and what is
assignable to a concrete type is assignable to everything that type is assignable to. -/
theorem preorder_assignable (strict : Bool) : (∀ t : Ty, t.assignable strict t = true) ∧
    ∀ s t u : Ty, t.Concrete → s.assignable strict t = true → t.assignable strict u = true →
      s.assignable strict u = true :=
  ⟨assignable_self strict, fun _ _ _ ht => ht.trans⟩

-- That `any` is left out is needed: numbers are assignable to it, and it is to strings.
example : number.assignable true any = true ∧ any.assignable true string = true ∧
    number.assignable true string = false := by
  decide +kernel

end ScriptAnalysis.Ty

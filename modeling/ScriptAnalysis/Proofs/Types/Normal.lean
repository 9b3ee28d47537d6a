import ScriptAnalysis.Types.Union
import Mathlib.Data.List.Nodup

/-!
# Normal types

A type is normal when every union in it, at whatever depth, has at least two members, all of them different
and none of them superfluous (`Ty.Normal`). The union of normal types is normal (`normal_unionOf`), although
it flattens their members by one level only, and so is a normal type widened (`Normal.widen`).
-/

namespace ScriptAnalysis.Ty

/-- The types that a type is put together from. -/
def parts : Ty → List Ty
  | array element => [element]
  | union members => members
  | function params ret => params.map (·.type) ++ [ret]
  | object _ _ members => members.map (·.2)
  | _ => []

/-- The type can stand beside others in a union: it is no union, and it neither takes the others over nor is
without values. -/
structure IsMember (t : Ty) : Prop where
  ne_any : t ≠ any
  ne_unknown : t ≠ unknown
  ne_never : t ≠ never
  ne_union : ∀ ts, t ≠ union ts

/-- None of the types makes another one superfluous, apart from being the same. Where null and undefined are
no types of their own they stand beside each other at most. -/
structure Settled (strict : Bool) (ts : List Ty) : Prop where
  isMember : ∀ t ∈ ts, t.IsMember
  base_not_mem : ∀ t ∈ ts, t.isLiteral = true → t.base ∉ ts
  booleans : ¬ (booleanLiteral true ∈ ts ∧ booleanLiteral false ∈ ts)
  nullish : strict = false → ∀ t ∈ ts, t.isNullish = true → ∀ u ∈ ts, u.isNullish = true

/-- The members of a union in its normal form. -/
structure NormalMembers (strict : Bool) (ts : List Ty) : Prop where
  two_le : 2 ≤ ts.length
  nodup : ts.Nodup
  settled : Settled strict ts

/-- The unions at every depth of the type are in their normal form; `strict` says whether null and undefined
are types of their own. -/
inductive Normal (strict : Bool) : Ty → Prop where
  /-- The parts are normal, and the type is normal itself if it is a union. -/
  | mk {t : Ty} (parts : ∀ p ∈ t.parts, Normal strict p)
      (members : ∀ ts, t = union ts → NormalMembers strict ts) : Normal strict t

variable {strict : Bool} {t : Ty} {ts : List Ty}

/-! ### Types that are no unions -/

theorem normal_iff_of_ne_union (h : ∀ ts, t ≠ union ts) :
    t.Normal strict ↔ ∀ p ∈ t.parts, p.Normal strict :=
  ⟨fun ⟨parts, _⟩ => parts, fun parts => ⟨parts, fun ts ht => absurd ht (h ts)⟩⟩

theorem normal_of_parts_eq_nil (hparts : t.parts = []) (h : ∀ ts, t ≠ union ts) : t.Normal strict := by
  rw [normal_iff_of_ne_union h, hparts]
  exact fun _ hp => absurd hp List.not_mem_nil

@[simp] theorem normal_any : any.Normal strict := normal_of_parts_eq_nil rfl nofun

@[simp] theorem normal_unknown : unknown.Normal strict := normal_of_parts_eq_nil rfl nofun

@[simp] theorem normal_never : never.Normal strict := normal_of_parts_eq_nil rfl nofun

@[simp] theorem normal_void : void.Normal strict := normal_of_parts_eq_nil rfl nofun

@[simp] theorem normal_undefined : undefined.Normal strict := normal_of_parts_eq_nil rfl nofun

@[simp] theorem normal_null : null.Normal strict := normal_of_parts_eq_nil rfl nofun

@[simp] theorem normal_number : number.Normal strict := normal_of_parts_eq_nil rfl nofun

@[simp] theorem normal_string : string.Normal strict := normal_of_parts_eq_nil rfl nofun

@[simp] theorem normal_boolean : boolean.Normal strict := normal_of_parts_eq_nil rfl nofun

@[simp] theorem normal_numberLiteral (text : String) : (numberLiteral text).Normal strict :=
  normal_of_parts_eq_nil rfl nofun

@[simp] theorem normal_stringLiteral (value : String) : (stringLiteral value).Normal strict :=
  normal_of_parts_eq_nil rfl nofun

@[simp] theorem normal_booleanLiteral (value : Bool) : (booleanLiteral value).Normal strict :=
  normal_of_parts_eq_nil rfl nofun

@[simp] theorem normal_array_iff : (array t).Normal strict ↔ t.Normal strict := by
  rw [normal_iff_of_ne_union (t := array t) nofun]
  exact List.forall_mem_singleton

@[simp] theorem normal_function_iff {params : List (Param Ty)} {ret : Ty} :
    (function params ret).Normal strict ↔ (∀ p ∈ params, p.type.Normal strict) ∧ ret.Normal strict := by
  rw [normal_iff_of_ne_union (t := function params ret) nofun]
  simp [parts, or_imp, forall_and]

@[simp] theorem normal_object_iff {id : Nat} {name : String} {members : List (String × Ty)} :
    (object id name members).Normal strict ↔ ∀ m ∈ members, m.2.Normal strict := by
  rw [normal_iff_of_ne_union (t := object id name members) nofun]
  exact List.forall_mem_map

theorem normal_union_iff :
    (union ts).Normal strict ↔ NormalMembers strict ts ∧ ∀ t ∈ ts, t.Normal strict :=
  ⟨fun ⟨parts, members⟩ => ⟨members ts rfl, parts⟩,
    fun ⟨members, parts⟩ => ⟨parts, fun _ h => (union.inj h) ▸ members⟩⟩

/-! ### The members of unions -/

/-- What a normal type contributes to a union can stand beside others in it, unless it is `any` or
`unknown`. -/
theorem Normal.isMember_of_mem_constituents (ht : t.Normal strict) {u : Ty} (hu : u ∈ t.constituents)
    (hany : u ≠ any) (hunknown : u ≠ unknown) : u.IsMember := by
  cases t with
  | union members => exact (normal_union_iff.mp ht).1.settled.isMember u hu
  | never => exact absurd hu List.not_mem_nil
  | any | unknown | void | undefined | null | number | string | boolean | numberLiteral | stringLiteral
  | booleanLiteral | array | function | object =>
    obtain rfl := List.mem_singleton.mp hu
    exact ⟨hany, hunknown, nofun, nofun⟩

theorem Normal.of_mem_constituents (ht : t.Normal strict) {u : Ty} (hu : u ∈ t.constituents) :
    u.Normal strict := by
  cases t with
  | union members => exact (normal_union_iff.mp ht).2 u hu
  | never => exact absurd hu List.not_mem_nil
  | any | unknown | void | undefined | null | number | string | boolean | numberLiteral | stringLiteral
  | booleanLiteral | array | function | object =>
    obtain rfl := List.mem_singleton.mp hu
    exact ht

/-- Fewer types are settled too. -/
theorem Settled.subset {us : List Ty} (h : Settled strict ts) (hsub : us ⊆ ts) : Settled strict us where
  isMember t ht := h.isMember t (hsub ht)
  base_not_mem t ht hliteral hbase := h.base_not_mem t (hsub ht) hliteral (hsub hbase)
  booleans hboth := h.booleans ⟨hsub hboth.1, hsub hboth.2⟩
  nullish hstrict t ht hnull u hu := h.nullish hstrict t (hsub ht) hnull u (hsub hu)

/-! ### The steps of a union -/

/-- Joining truth values brings nothing along but `boolean`. -/
theorem mem_of_mem_joinBooleans {u : Ty} (h : u ∈ joinBooleans ts) : u ∈ ts ∨ u = boolean := by
  rw [joinBooleans] at h
  split at h
  · rcases List.mem_append.mp h with h | h
    · exact .inl (List.mem_of_mem_filter h)
    · exact .inr (List.mem_singleton.mp h)
  · exact .inl h

/-- Joining truth values leaves not both of them. -/
theorem not_both_joinBooleans :
    ¬ (booleanLiteral true ∈ joinBooleans ts ∧ booleanLiteral false ∈ joinBooleans ts) := by
  rw [joinBooleans]
  split
  · simp
  · assumption

theorem absorbLiterals_subset (ts : List Ty) : absorbLiterals ts ⊆ ts := List.filter_subset_self _

theorem base_not_mem_absorbLiterals (ht : t ∈ absorbLiterals ts) (hliteral : t.isLiteral = true) :
    t.base ∉ absorbLiterals ts := by
  intro hbase
  have hbase' : t.base ∈ ts := absorbLiterals_subset ts hbase
  have h := (List.mem_filter.mp ht).2
  simp [hliteral, hbase'] at h

theorem absorbNullish_subset (strict : Bool) (ts : List Ty) : absorbNullish strict ts ⊆ ts := by
  rw [absorbNullish]
  split
  · exact List.filter_subset_self _
  · exact List.Subset.refl _

theorem nullish_absorbNullish (ht : t ∈ absorbNullish false ts) (hnull : t.isNullish = true) {u : Ty}
    (hu : u ∈ absorbNullish false ts) : u.isNullish = true := by
  rw [absorbNullish] at ht hu
  split at ht
  · have h := (List.mem_filter.mp ht).2
    simp [hnull] at h
  · rename_i hall
    rw [if_neg hall] at hu
    have hall' : ∀ u ∈ ts, u.isNullish = true := by simpa using hall
    exact hall' u hu

theorem mem_dedupAfter_iff {seen : List Ty} : t ∈ dedupAfter seen ts ↔ t ∈ ts ∧ t ∉ seen := by
  induction ts generalizing seen with
  | nil => simp [dedupAfter]
  | cons u ts ih =>
    rw [dedupAfter]
    split
    · rw [ih]
      grind
    · rw [List.mem_cons, ih]
      grind

theorem nodup_dedupAfter (seen ts : List Ty) : (dedupAfter seen ts).Nodup := by
  induction ts generalizing seen with
  | nil => exact List.nodup_nil
  | cons u ts ih =>
    rw [dedupAfter]
    split
    · exact ih _
    · exact List.nodup_cons.mpr ⟨fun h => (mem_dedupAfter_iff.mp h).2 List.mem_cons_self, ih _⟩

/-- The steps of a union bring nothing along but `boolean`. -/
theorem mem_of_mem_steps {u : Ty}
    (h : u ∈ dedupAfter [] (absorbNullish strict (absorbLiterals (joinBooleans ts)))) : u ∈ ts ∨ u = boolean :=
  mem_of_mem_joinBooleans (absorbLiterals_subset _ (absorbNullish_subset _ _ (mem_dedupAfter_iff.mp h).1))

/-- The steps of a union settle types that can stand in one. -/
theorem settled_steps (h : ∀ t ∈ ts, t.IsMember) :
    Settled strict (dedupAfter [] (absorbNullish strict (absorbLiterals (joinBooleans ts)))) := by
  suffices hsettled : Settled strict (absorbNullish strict (absorbLiterals (joinBooleans ts))) from
    hsettled.subset fun t ht => (mem_dedupAfter_iff.mp ht).1
  have hliterals := absorbLiterals_subset (joinBooleans ts)
  have hnullish := absorbNullish_subset strict (absorbLiterals (joinBooleans ts))
  refine ⟨fun t ht => ?isMember, fun t ht hliteral hbase => ?base, fun hboth => ?booleans, ?nullish⟩
  case isMember =>
    rcases mem_of_mem_joinBooleans (hliterals (hnullish ht)) with ht | rfl
    · exact h t ht
    · exact ⟨nofun, nofun, nofun, nofun⟩
  case base => exact base_not_mem_absorbLiterals (hnullish ht) hliteral (hnullish hbase)
  case booleans =>
    exact not_both_joinBooleans ⟨hliterals (hnullish hboth.1), hliterals (hnullish hboth.2)⟩
  case nullish =>
    rintro rfl t ht hnull u hu
    exact nullish_absorbNullish ht hnull hu

theorem normal_ofMembers (hts : ∀ t ∈ ts, t.Normal strict) (hnodup : ts.Nodup) (h : Settled strict ts) :
    (ofMembers ts).Normal strict := by
  match ts with
  | [] => exact normal_never
  | [t] => exact hts t List.mem_cons_self
  | _ :: _ :: ts => exact normal_union_iff.mpr ⟨⟨Nat.le_add_left 2 ts.length, hnodup, h⟩, hts⟩

/-- **The union of normal types is normal.** -/
theorem normal_unionOf (h : ∀ t ∈ ts, t.Normal strict) : (unionOf strict ts).Normal strict := by
  rw [unionOf]
  split
  · exact normal_any
  split
  · exact normal_unknown
  rename_i hany hunknown
  have hmember : ∀ u ∈ ts.flatMap constituents, u.IsMember := by
    intro u hu
    obtain ⟨t, ht, hut⟩ := List.mem_flatMap.mp hu
    refine (h t ht).isMember_of_mem_constituents hut ?_ ?_
    · rintro rfl
      exact hany (List.any_eq_true.mpr ⟨_, hu, rfl⟩)
    · rintro rfl
      exact hunknown hu
  refine normal_ofMembers (fun u hu => ?_) (nodup_dedupAfter ..) (settled_steps hmember)
  rcases mem_of_mem_steps hu with hu | rfl
  · obtain ⟨t, ht, hut⟩ := List.mem_flatMap.mp hu
    exact (h t ht).of_mem_constituents hut
  · exact normal_boolean

/-! ### Widening -/

/-- **A normal type widened is normal.** -/
theorem Normal.widen (h : t.Normal strict) : (t.widen strict).Normal strict := by
  induction h with
  | @mk t parts members ih =>
    cases t with
    | union ts =>
      rw [Ty.widen, widenList_eq_map]
      exact normal_unionOf (List.forall_mem_map.mpr ih)
    | null | undefined =>
      rw [Ty.widen]
      split
      · simp
      · exact normal_any
    | numberLiteral | stringLiteral | booleanLiteral => simp [Ty.widen]
    | any | unknown | never | void | number | string | boolean | array | function | object =>
      exact ⟨parts, members⟩

end ScriptAnalysis.Ty

import ScriptAnalysis.Proofs.Types.Assignability
import ScriptAnalysis.Proofs.Types.Unions

/-!
# The union as a join

The union of some types is the least of the normal types that all of them are assignable to (`isJoin_unionOf`). The
steps that take members away keep the union an upper bound since what takes the place of a member is one that the
member is assignable to; they keep it the least one since a normal type that both truth values are assignable to takes
`boolean` as well.
-/

namespace ScriptAnalysis.Ty

variable {strict : Bool} {s t u : Ty} {ts : List Ty}

/-- All of the types are assignable to the type, and the type is assignable to every normal type they all are
assignable to. -/
structure IsJoin (strict : Bool) (ts : List Ty) (j : Ty) : Prop where
  upper : ∀ t ∈ ts, t.assignable strict j = true
  least : ∀ u : Ty, u.Normal strict → (∀ t ∈ ts, t.assignable strict u = true) → j.assignable strict u = true

/-! ### Members and constituents -/

/-- A type is assignable exactly when all that it contributes to a union is. -/
theorem assignable_iff_constituents :
    t.assignable strict u = true ↔ ∀ c ∈ t.constituents, c.assignable strict u = true := by
  cases t with
  | union ts => exact assignable_union_left
  | never => exact iff_of_true (assignable_of_isLeast rfl) fun _ h => absurd h List.not_mem_nil
  | _ => simp [constituents]

/-- Types that are put together are assignable exactly when each of them is. -/
theorem ofMembers_assignable_iff :
    (ofMembers ts).assignable strict u = true ↔ ∀ t ∈ ts, t.assignable strict u = true := by
  match ts with
  | [] => exact iff_of_true (assignable_of_isLeast rfl) fun _ h => absurd h List.not_mem_nil
  | [t] => simp [ofMembers]
  | _ :: _ :: _ => exact assignable_union_left

/-- What is assignable to one of the types is assignable to what is put together of them. -/
theorem assignable_ofMembers_of_mem (ht : t ∈ ts) (h : s.assignable strict t = true) :
    s.assignable strict (ofMembers ts) = true := by
  match ts with
  | [u] => exact List.mem_singleton.mp ht ▸ h
  | _ :: _ :: _ => exact assignable_union_of_mem ht h

/-! ### An upper bound -/

theorem isLeast_of_isNullish (h : t.isNullish = true) : t.isLeast false = true := by
  cases t with
  | null | undefined => rfl
  | _ => cases h

/-- A type is assignable to what is put together of types that cover it. -/
theorem Covered.assignable (h : Covered strict (· ∈ ts) t) : t.assignable strict (ofMembers ts) = true := by
  cases h with
  | self h => exact assignable_ofMembers_of_mem h (assignable_self strict t)
  | base hliteral h => exact assignable_ofMembers_of_mem h (Fits.literal hliteral rfl).assignable
  | other hstrict hnullish _ _ =>
    subst hstrict
    exact assignable_of_isLeast (isLeast_of_isNullish hnullish)

/-- A type is assignable to the union of types that it is one of. -/
theorem assignable_ofConstituents_of_mem (h : t ∈ ts) : t.assignable strict (ofConstituents strict ts) = true := by
  rw [ofConstituents]
  split
  · exact assignable_of_isGreatest rfl
  split
  · exact assignable_of_isGreatest rfl
  · have hcovered : Covered strict (Stays strict (Among ts)) t := covered_stays (.inl h)
    exact (hcovered.mono fun _ => mem_reduced_iff.mpr).assignable

/-! ### The least one -/

/-- A truth value is assignable to itself, to `boolean` and to what every type is assignable to. -/
theorem cases_of_booleanLiteral_assignable {b : Bool} (ht : ∀ ts, t ≠ union ts)
    (h : (booleanLiteral b).assignable strict t = true) :
    t = booleanLiteral b ∨ t = boolean ∨ t.isGreatest = true := by
  cases (assignable_iff_fits (s := .booleanLiteral b) nofun ht).mp h with
  | self => exact .inl rfl
  | greatest h => exact .inr (.inr h)
  | least h => cases h
  | literal _ h => exact .inr (.inl h)

theorem IsMember.isGreatest (h : t.IsMember) : t.isGreatest = false := by
  cases t with
  | any => exact absurd rfl h.ne_any
  | unknown => exact absurd rfl h.ne_unknown
  | _ => rfl

/-- Among the members of a normal union only the truth value itself and `boolean` take a truth value. -/
theorem mem_of_booleanLiteral_assignable {b : Bool} (hts : Settled strict ts)
    (h : (booleanLiteral b).assignable strict (union ts) = true) : booleanLiteral b ∈ ts ∨ boolean ∈ ts := by
  rcases (assignable_union_right (s := .booleanLiteral b) nofun).mp h with hleast | ⟨t, ht, h⟩
  · cases hleast
  · have hmember := hts.isMember t ht
    rcases cases_of_booleanLiteral_assignable hmember.ne_union h with rfl | rfl | hgreatest
    · exact .inl ht
    · exact .inr ht
    · rw [hmember.isGreatest] at hgreatest
      cases hgreatest

/-- A normal type that both truth values are assignable to takes `boolean` as well. -/
theorem Normal.boolean_assignable (hu : u.Normal strict) (htrue : (booleanLiteral true).assignable strict u = true)
    (hfalse : (booleanLiteral false).assignable strict u = true) : boolean.assignable strict u = true := by
  by_cases hunion : ∃ us, u = union us
  · obtain ⟨us, rfl⟩ := hunion
    have hsettled := (normal_union_iff.mp hu).1.settled
    suffices hmem : boolean ∈ us from assignable_union_of_mem hmem (assignable_self strict boolean)
    rcases mem_of_booleanLiteral_assignable hsettled htrue with htrue | hmem
    · rcases mem_of_booleanLiteral_assignable hsettled hfalse with hfalse | hmem
      · exact absurd ⟨htrue, hfalse⟩ hsettled.booleans
      · exact hmem
    · exact hmem
  · have hsingle : ∀ us, u ≠ union us := fun us h => hunion ⟨us, h⟩
    rcases cases_of_booleanLiteral_assignable hsingle htrue with rfl | rfl | hgreatest
    · rcases cases_of_booleanLiteral_assignable hsingle hfalse with h | h | h <;> cases h
    · exact assignable_self strict boolean
    · exact assignable_of_isGreatest hgreatest

/-- **The union of types is their join** among the normal types. -/
theorem isJoin_unionOf (strict : Bool) (ts : List Ty) : IsJoin strict ts (unionOf strict ts) where
  upper t ht := by
    rw [unionOf_eq]
    exact assignable_iff_constituents.mpr fun c hc =>
      assignable_ofConstituents_of_mem (List.mem_flatMap_of_mem ht hc)
  least u hu h := by
    have hconstituents : ∀ c ∈ ts.flatMap constituents, c.assignable strict u = true := by
      intro c hc
      obtain ⟨t, ht, hct⟩ := List.mem_flatMap.mp hc
      exact assignable_iff_constituents.mp (h t ht) c hct
    rw [unionOf_eq, ofConstituents]
    split
    · exact assignable_of_isLeast rfl
    split
    · rename_i hunknown
      exact hconstituents unknown hunknown
    · refine ofMembers_assignable_iff.mpr fun m hm => ?_
      rcases (mem_reduced_iff.mp hm).there with hm | ⟨rfl, htrue, hfalse⟩
      · exact hconstituents m hm
      · exact hu.boolean_assignable (hconstituents _ htrue) (hconstituents _ hfalse)

-- That the types above are normal is needed: a union of the two truth values takes both of them but not `boolean`.
example : (unionOf true [booleanLiteral true, booleanLiteral false]).assignable true
    (union [booleanLiteral true, booleanLiteral false]) = false := by
  decide +kernel

end ScriptAnalysis.Ty

import ScriptAnalysis.Proofs.Types.Widened

/-!
# Widening as a closure

Among the types whose unions are in their normal form, widening is a closure with respect to assignability
(`closes_of_normalAtTop`): a type is assignable to what it is widened to, widening twice is widening once, and what is
assignable stays assignable when both sides are widened.

Only the outermost form of a type matters, since nothing inside a list or a function is widened (`Ty.NormalAtTop`). The
members of a normal union become wide (`Ty.IsWide`): no two of them can be joined any more, so that their union holds
exactly them, or it is `any` because null or undefined was among them and is no type of its own.
-/

namespace ScriptAnalysis.Ty

variable {strict : Bool} {s t u : Ty} {ts : List Ty}

/-- If the type is a union, then one in its normal form; nothing is said of unions further inside. -/
def NormalAtTop (strict : Bool) (t : Ty) : Prop := ∀ ts, t = union ts → NormalMembers strict ts

/-- What widening does to a type is that of a closure. -/
structure Closes (strict : Bool) (s : Ty) : Prop where
  /-- The type is assignable to what it is widened to. -/
  above : s.assignable strict (s.widen strict) = true
  /-- Widening again changes nothing. -/
  again : (s.widen strict).widen strict = s.widen strict
  /-- The widened type is in its normal form. -/
  normalAtTop : (s.widen strict).NormalAtTop strict
  /-- It is so at every depth if the type is. -/
  normal : s.Normal strict → (s.widen strict).Normal strict
  /-- The widened type is no literal. -/
  literal : (s.widen strict).isLiteral = false
  /-- If it is a union, none of its members is a literal. -/
  members : ∀ ts, s.widen strict = union ts → ∀ u ∈ ts, u.isLiteral = false
  /-- What the type is assignable to, widened, takes the widened type. -/
  mono : ∀ t : Ty, t.NormalAtTop strict → s.assignable strict t = true →
    (s.widen strict).assignable strict (t.widen strict) = true

/-! ### The normal form -/

theorem Normal.atTop (h : t.Normal strict) : t.NormalAtTop strict :=
  fun _ ht => (normal_union_iff.mp (ht ▸ h)).1

theorem normalAtTop_of_ne_union (h : ∀ us, t ≠ union us) : t.NormalAtTop strict :=
  fun ts ht => absurd ht (h ts)

theorem normalAtTop_ofMembers (hnodup : ts.Nodup) (h : Settled strict ts) : (ofMembers ts).NormalAtTop strict := by
  match ts with
  | [] => exact normalAtTop_of_ne_union nofun
  | [t] => exact normalAtTop_of_ne_union (h.isMember t List.mem_cons_self).ne_union
  | _ :: _ :: us =>
    rintro _ ⟨⟩
    exact ⟨Nat.le_add_left 2 us.length, hnodup, h⟩

theorem dedupAfter_of_nodup {seen : List Ty} (hnodup : ts.Nodup) (h : ∀ t ∈ ts, t ∉ seen) :
    dedupAfter seen ts = ts := by
  induction ts generalizing seen with
  | nil => rfl
  | cons t ts ih =>
    obtain ⟨ht, hnodup⟩ := List.nodup_cons.mp hnodup
    rw [dedupAfter, if_neg (h t List.mem_cons_self), ih hnodup]
    intro u hu hseen
    rcases List.mem_cons.mp hseen with rfl | hseen
    · exact ht hu
    · exact h u (List.mem_cons_of_mem t hu) hseen

/-- Of settled types all stay, in their order. -/
theorem Settled.reduced_eq (h : Settled strict ts) (hnodup : ts.Nodup) : reduced strict ts = ts := by
  have hliterals : absorbLiterals ts = ts := by
    refine List.filter_eq_self.mpr fun t ht => ?_
    cases hliteral : t.isLiteral with
    | false => rfl
    | true => simp [h.base_not_mem t ht hliteral]
  have hnullish : absorbNullish strict ts = ts := by
    rw [absorbNullish]
    split
    · rename_i hother
      obtain ⟨hstrict, u, hu, hnot⟩ : strict = false ∧ ∃ u ∈ ts, u.isNullish = false := by simpa using hother
      refine List.filter_eq_self.mpr fun t ht => ?_
      cases hnull : t.isNullish with
      | false => rfl
      | true =>
        rw [h.nullish hstrict t ht hnull u hu] at hnot
        cases hnot
    · rfl
  rw [reduced, joinBooleans, if_neg h.booleans, hliterals, hnullish]
  exact dedupAfter_of_nodup hnodup fun _ _ => List.not_mem_nil

/-! ### Types that are no unions -/

/-- Literals become the types they belong to, and null and undefined become `any` where they are no types of their
own. -/
theorem widen_of_ne_union (h : ∀ us, t ≠ union us) : t.widen strict = t.base.widenNullish strict := by
  cases t with
  | union us => exact absurd rfl (h us)
  | null | undefined => cases strict <;> rfl
  | _ => simp [widen, base, widenNullish, isNullish]

/-- The type is no union and remains the same when it is widened. -/
structure IsWide (strict : Bool) (t : Ty) : Prop where
  ne_union : ∀ us, t ≠ union us
  not_literal : t.isLiteral = false
  not_nullish : strict = false → t.isNullish = false

theorem IsWide.widen_eq (h : t.IsWide strict) : t.widen strict = t := by
  have hliteral := h.not_literal
  have hnullish := h.not_nullish
  cases t with
  | union us => exact absurd rfl (h.ne_union us)
  | numberLiteral | stringLiteral | booleanLiteral => cases hliteral
  | null | undefined =>
    cases strict with
    | true => rfl
    | false => cases hnullish rfl
  | _ => rfl

theorem isWide_widen (h : ∀ us, t ≠ union us) : (t.widen strict).IsWide strict := by
  cases t with
  | union us => exact absurd rfl (h us)
  | null | undefined =>
    cases strict with
    | true => exact ⟨nofun, rfl, nofun⟩
    | false => exact ⟨nofun, rfl, fun _ => rfl⟩
  | _ => exact ⟨nofun, rfl, fun _ => rfl⟩

theorem assignable_widen_of_ne_union (h : ∀ us, t ≠ union us) : t.assignable strict (t.widen strict) = true := by
  rw [widen_of_ne_union h, widenNullish]
  split
  · exact assignable_of_isGreatest rfl
  · exact assignable_base strict t

/-- What is assignable to everything by its form stays so when it is widened. -/
theorem isLeast_widen (h : s.isLeast strict = true) : (s.widen strict).isLeast strict = true := by
  cases s with
  | any | never => rfl
  | null | undefined =>
    cases strict with
    | true => cases h
    | false => rfl
  | _ => cases h

/-- Each way in which a type that is no union is assignable to another one is left when both are widened. -/
theorem Fits.widen (h : Fits strict s t) : (s.widen strict).assignable strict (t.widen strict) = true := by
  cases h with
  | self => exact assignable_self strict _
  | greatest h =>
    cases t with
    | any | unknown => exact assignable_of_isGreatest rfl
    | _ => cases h
  | least h => exact assignable_of_isLeast (isLeast_widen h)
  | undefined =>
    cases strict with
    | true => exact Fits.undefined.assignable
    | false => exact assignable_of_isLeast rfl
  | literal h ht =>
    subst ht
    cases s with
    | numberLiteral | stringLiteral | booleanLiteral => exact assignable_self strict _
    | _ => cases h
  | array h => exact (Fits.array h).assignable
  | function harity hparams hret => exact (Fits.function harity hparams hret).assignable
  | object id m n ms ns => exact (Fits.object id m n ms ns).assignable

/-! ### Unions of wide types -/

/-- A member of a union stays different from what a union cannot have when it is widened; only `any` can come of it. -/
theorem IsMember.widen (h : t.IsMember) : t.widen strict ≠ unknown ∧ t.widen strict ≠ never := by
  cases t with
  | union us => exact absurd rfl (h.ne_union us)
  | unknown => exact absurd rfl h.ne_unknown
  | never => exact absurd rfl h.ne_never
  | null | undefined => cases strict <;> exact ⟨nofun, nofun⟩
  | _ => exact ⟨nofun, nofun⟩

/-- Widened members of a union: they are wide, and there is neither `unknown` nor `never` among them. -/
structure WideMembers (strict : Bool) (ts : List Ty) : Prop where
  isWide : ∀ t ∈ ts, t.IsWide strict
  ne_unknown : ∀ t ∈ ts, t ≠ unknown
  ne_never : ∀ t ∈ ts, t ≠ never

theorem NormalMembers.wideMembers (h : NormalMembers strict ts) : WideMembers strict (ts.map (widen strict)) where
  isWide := List.forall_mem_map.mpr fun t ht => isWide_widen (h.settled.isMember t ht).ne_union
  ne_unknown := List.forall_mem_map.mpr fun t ht => (h.settled.isMember t ht).widen.1
  ne_never := List.forall_mem_map.mpr fun t ht => (h.settled.isMember t ht).widen.2

namespace WideMembers

theorem isMember (h : WideMembers strict ts) (hany : any ∉ ts) : ∀ t ∈ ts, t.IsMember := fun t ht =>
  ⟨ne_of_mem_of_not_mem ht hany, h.ne_unknown t ht, h.ne_never t ht, (h.isWide t ht).ne_union⟩

/-- All wide types stay in a union. -/
theorem mem_reduced_iff (h : WideMembers strict ts) : t ∈ reduced strict ts ↔ t ∈ ts := by
  have hamong : ∀ u, Among ts u ↔ u ∈ ts := by
    refine fun u => or_iff_left fun ⟨_, htrue, _⟩ => ?_
    cases (h.isWide _ htrue).not_literal
  rw [Ty.mem_reduced_iff]
  refine ⟨fun hstays => (hamong t).mp hstays.there, fun ht => ⟨(hamong t).mpr ht, fun hliteral => ?_, fun hstrict hnull => ?_⟩⟩
  · rw [(h.isWide t ht).not_literal] at hliteral
    cases hliteral
  · rw [(h.isWide t ht).not_nullish hstrict] at hnull
    cases hnull

/-- The union of wide types is `any` if that is among them, and else it has all of them as members. -/
theorem unionOf_eq (h : WideMembers strict ts) :
    unionOf strict ts = if any ∈ ts then any else ofMembers (reduced strict ts) := by
  have hconstituents : ts.flatMap constituents = ts := by
    refine (List.flatMap_congr fun t ht => ?_).trans (List.flatMap_singleton' ts)
    cases t with
    | union us => exact absurd rfl ((h.isWide _ ht).ne_union us)
    | never => exact absurd rfl (h.ne_never _ ht)
    | _ => rfl
  rw [Ty.unionOf_eq, hconstituents, ofConstituents, if_neg fun hunknown => h.ne_unknown _ hunknown rfl]

/-- What is assignable to one of the types is assignable to their union. -/
theorem assignable_unionOf (h : WideMembers strict ts) (hu : u ∈ ts) (hsu : s.assignable strict u = true) :
    s.assignable strict (unionOf strict ts) = true := by
  rw [h.unionOf_eq]
  split
  · exact assignable_of_isGreatest rfl
  · exact assignable_ofMembers_of_mem (h.mem_reduced_iff.mpr hu) hsu

/-- The union is assignable to what all of the types are assignable to. -/
theorem unionOf_assignable (h : WideMembers strict ts) (hts : ∀ u ∈ ts, u.assignable strict t = true) :
    (unionOf strict ts).assignable strict t = true := by
  rw [h.unionOf_eq]
  split
  · exact assignable_of_isLeast rfl
  · exact ofMembers_assignable_iff.mpr fun u hu => hts u (h.mem_reduced_iff.mp hu)

theorem normalAtTop_unionOf (h : WideMembers strict ts) : (unionOf strict ts).NormalAtTop strict := by
  rw [h.unionOf_eq]
  split
  · exact normalAtTop_of_ne_union nofun
  · rename_i hany
    exact normalAtTop_ofMembers (nodup_reduced strict ts) (settled_steps (h.isMember hany))

/-- The union is no literal, and none is a member of it. -/
theorem not_literal_unionOf (h : WideMembers strict ts) : (unionOf strict ts).isLiteral = false ∧
    ∀ us, unionOf strict ts = union us → ∀ u ∈ us, u.isLiteral = false := by
  have hreduced : ∀ u ∈ reduced strict ts, u.IsWide strict := fun u hu => h.isWide u (h.mem_reduced_iff.mp hu)
  rw [h.unionOf_eq]
  split
  · exact ⟨rfl, nofun⟩
  · match reduced strict ts, hreduced with
    | [], _ => exact ⟨rfl, nofun⟩
    | [u], hreduced =>
      have hu := hreduced u List.mem_cons_self
      exact ⟨hu.not_literal, fun us hus => absurd hus (hu.ne_union us)⟩
    | _ :: _ :: _, hreduced =>
      refine ⟨rfl, ?_⟩
      rintro _ ⟨⟩
      exact fun u hu => (hreduced u hu).not_literal

/-- The union remains the same when it is widened. -/
theorem widen_unionOf (h : WideMembers strict ts) : (unionOf strict ts).widen strict = unionOf strict ts := by
  rw [h.unionOf_eq]
  split
  · rfl
  rename_i hany
  have hnodup := nodup_reduced strict ts
  have hsettled : Settled strict (reduced strict ts) := settled_steps (h.isMember hany)
  have hreduced : ∀ u ∈ reduced strict ts, u.IsWide strict := fun u hu => h.isWide u (h.mem_reduced_iff.mp hu)
  have hwidened : (reduced strict ts).map (Ty.widen strict) = reduced strict ts :=
    (List.map_congr_left fun u hu => (hreduced u hu).widen_eq).trans (List.map_id' _)
  -- widening a union builds the union of the same members, and of these all stay
  have hwide : WideMembers strict (reduced strict ts) :=
    ⟨hreduced, fun u hu => (hsettled.isMember u hu).ne_unknown, fun u hu => (hsettled.isMember u hu).ne_never⟩
  have hunion : unionOf strict (reduced strict ts) = ofMembers (reduced strict ts) := by
    rw [hwide.unionOf_eq, if_neg (mt h.mem_reduced_iff.mp hany), hsettled.reduced_eq hnodup]
  rcases hms : reduced strict ts with _ | ⟨u, _ | ⟨u', us⟩⟩
  · rfl
  · exact (hreduced u (hms ▸ List.mem_cons_self)).widen_eq
  · have hof : ofMembers (u :: u' :: us) = union (u :: u' :: us) := rfl
    rw [hms, hof] at hunion
    rw [hms] at hwidened
    rw [hof, Ty.widen, widenList_eq_map, hwidened, hunion]

end WideMembers

/-! ### Widening -/

/-- What is no union is assignable, widened, to everything it is assignable to, widened. -/
theorem widen_mono_of_ne_union (hs : ∀ us, s ≠ union us) (ht : t.NormalAtTop strict)
    (h : s.assignable strict t = true) : (s.widen strict).assignable strict (t.widen strict) = true := by
  obtain ⟨ts, rfl⟩ | ht' := eq_union_or t
  · have hmembers := ht ts rfl
    rw [widen, widenList_eq_map]
    rcases (assignable_union_right hs).mp h with hleast | ⟨u, hu, hsu⟩
    · exact assignable_of_isLeast (isLeast_widen hleast)
    · have hfits := (assignable_iff_fits hs (hmembers.settled.isMember u hu).ne_union).mp hsu
      exact hmembers.wideMembers.assignable_unionOf (List.mem_map_of_mem hu) hfits.widen
  · exact ((assignable_iff_fits hs ht').mp h).widen

/-- **Widening is a closure** on the types in their normal form. -/
theorem closes_of_normalAtTop (hs : s.NormalAtTop strict) : s.Closes strict := by
  obtain ⟨ss, rfl⟩ | hs' := eq_union_or s
  · have hmembers := (hs ss rfl).settled.isMember
    have hwide := (hs ss rfl).wideMembers
    have hwiden : (union ss).widen strict = unionOf strict (ss.map (widen strict)) := by rw [widen, widenList_eq_map]
    refine ⟨?above, ?again, ?normalAtTop, Normal.widen, ?literal, ?noLiterals, fun t ht h => ?mono⟩ <;> rw [hwiden]
    case above =>
      exact assignable_union_left.mpr fun u hu => hwide.assignable_unionOf (List.mem_map_of_mem hu)
        (assignable_widen_of_ne_union (hmembers u hu).ne_union)
    case again => exact hwide.widen_unionOf
    case normalAtTop => exact hwide.normalAtTop_unionOf
    case literal => exact hwide.not_literal_unionOf.1
    case noLiterals => exact hwide.not_literal_unionOf.2
    case mono =>
      exact hwide.unionOf_assignable <| List.forall_mem_map.mpr fun u hu =>
        widen_mono_of_ne_union (hmembers u hu).ne_union ht (assignable_union_left.mp h u hu)
  · have hwide : (s.widen strict).IsWide strict := isWide_widen hs'
    exact ⟨assignable_widen_of_ne_union hs', hwide.widen_eq, normalAtTop_of_ne_union hwide.ne_union, Normal.widen,
      hwide.not_literal, fun us hus => absurd hus (hwide.ne_union us), fun _ => widen_mono_of_ne_union hs'⟩

/-- The literals of a union are widened, and null stays where it is a type of its own. -/
theorem closes_of_normalAtTop_literals :
    (union [numberLiteral "1", booleanLiteral true, null]).NormalAtTop true ∧
      (union [numberLiteral "1", booleanLiteral true, null]).Closes true := by
  have hunion : unionOf true [numberLiteral "1", booleanLiteral true, null] =
      union [numberLiteral "1", booleanLiteral true, null] := by decide +kernel
  have hnormal : (union [numberLiteral "1", booleanLiteral true, null]).NormalAtTop true :=
    hunion ▸ (normal_unionOf (by simp)).atTop
  exact ⟨hnormal, closes_of_normalAtTop hnormal⟩

-- Where null and undefined are no types of their own they are a union beside each other, and widened they are `any`.
example : (union [null, undefined]).widen false = any ∧
    (union [numberLiteral "1", booleanLiteral true, null]).widen true = union [number, boolean, null] := by
  decide +kernel

end ScriptAnalysis.Ty

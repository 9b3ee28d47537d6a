import ScriptAnalysis.Proofs.Types.Normal
import Mathlib.Data.List.Perm.Basic

/-!
# What stays in a union

Which types stay among the members of a union depends only on which types there are (`mem_reduced_iff`): a type
stays unless one that is there takes its place (`Ty.Covered`), and what takes a place stays itself. So a union can be
built in any order, with repetitions and in parts (`rearranges_unionOf`).
-/

namespace ScriptAnalysis.Ty

variable {strict : Bool} {t u : Ty} {ts us : List Ty} {P Q : Ty → Prop}

/-! ### Members that stay -/

/-- The types that stay of the members of a union. -/
def reduced (strict : Bool) (ts : List Ty) : List Ty :=
  dedupAfter [] (absorbNullish strict (absorbLiterals (joinBooleans ts)))

/-- The union of types, none of which is a union itself. -/
def ofConstituents (strict : Bool) (ts : List Ty) : Ty :=
  if any ∈ ts then any
  else if unknown ∈ ts then unknown
  else ofMembers (reduced strict ts)

theorem unionOf_eq (strict : Bool) (ts : List Ty) :
    unionOf strict ts = ofConstituents strict (ts.flatMap constituents) := by
  have hany : (ts.flatMap constituents).any isAny = true ↔ any ∈ ts.flatMap constituents := by
    rw [List.any_eq_true]
    constructor
    · rintro ⟨t, ht, hany⟩
      cases t with
      | any => exact ht
      | _ => cases hany
    · exact fun h => ⟨any, h, rfl⟩
  simp only [unionOf, ofConstituents, reduced, hany]

theorem nodup_reduced (strict : Bool) (ts : List Ty) : (reduced strict ts).Nodup := nodup_dedupAfter _ _

/-- The type is there, or it is `boolean` and both truth values are there. -/
def Among (ts : List Ty) (t : Ty) : Prop :=
  t ∈ ts ∨ (t = boolean ∧ booleanLiteral true ∈ ts ∧ booleanLiteral false ∈ ts)

/-- The type is there, and none that is there takes its place: neither the type it belongs to as a literal nor, where
null and undefined are no types of their own, any other one. -/
structure Stays (strict : Bool) (P : Ty → Prop) (t : Ty) : Prop where
  there : P t
  not_base : t.isLiteral = true → ¬ P t.base
  nullish : strict = false → t.isNullish = true → ∀ u, P u → u.isNullish = true

/-- The type is there, or another one has taken its place. -/
inductive Covered (strict : Bool) (P : Ty → Prop) (t : Ty) : Prop where
  /-- The type is there itself. -/
  | self (h : P t)
  /-- The type that it belongs to as a literal is there. -/
  | base (hliteral : t.isLiteral = true) (h : P t.base)
  /-- Null or undefined gives way to another type. -/
  | other (hstrict : strict = false) (hnullish : t.isNullish = true) {u : Ty} (hu : u.isNullish = false) (h : P u)

/-! ### The steps of a union by membership -/

/-- The type a literal belongs to is no literal. -/
theorem isLiteral_base (t : Ty) : t.base.isLiteral = false := by
  cases t <;> rfl

/-- The type a literal belongs to is neither that of null nor that of undefined. -/
theorem isNullish_base (h : t.isLiteral = true) : t.base.isNullish = false := by
  cases t with
  | numberLiteral | stringLiteral | booleanLiteral => rfl
  | _ => cases h

theorem mem_joinBooleans_iff : t ∈ joinBooleans ts ↔ Among ts t ∧
    ∀ b, t = booleanLiteral b → ¬ (booleanLiteral true ∈ ts ∧ booleanLiteral false ∈ ts) := by
  rw [joinBooleans, Among]
  split
  · rename_i hboth
    rw [List.mem_append, List.mem_filter, List.mem_singleton]
    cases t <;> simp [hboth]
  · rename_i hnot
    simp [hnot]

theorem mem_absorbLiterals_iff : t ∈ absorbLiterals ts ↔ t ∈ ts ∧ (t.isLiteral = true → t.base ∉ ts) := by
  rw [absorbLiterals, List.mem_filter]
  cases hliteral : t.isLiteral <;> simp

theorem mem_absorbNullish_iff : t ∈ absorbNullish strict ts ↔
    t ∈ ts ∧ (strict = false → t.isNullish = true → ∀ u ∈ ts, u.isNullish = true) := by
  rw [absorbNullish]
  split
  · rename_i h
    obtain ⟨hstrict, u, hu, hnot⟩ : strict = false ∧ ∃ u ∈ ts, u.isNullish = false := by simpa using h
    rw [List.mem_filter]
    refine and_congr_right fun _ => ?_
    constructor
    · intro ht _ hnullish
      simp [hnullish] at ht
    · intro ht
      by_contra hcontra
      have hall := ht hstrict (by simpa using hcontra) u hu
      rw [hnot] at hall
      cases hall
  · rename_i h
    refine ⟨fun ht => ⟨ht, fun hstrict _ u hu => ?_⟩, And.left⟩
    by_contra hnot
    exact h (by simpa [hstrict] using ⟨u, hu, by simpa using hnot⟩)

theorem mem_absorbLiterals_joinBooleans_iff : t ∈ absorbLiterals (joinBooleans ts) ↔
    Among ts t ∧ (t.isLiteral = true → ¬ Among ts t.base) := by
  have hbase : t.base ∈ joinBooleans ts ↔ Among ts t.base := by
    rw [mem_joinBooleans_iff]
    refine and_iff_left fun b hb => ?_
    have hliteral := isLiteral_base t
    rw [hb] at hliteral
    cases hliteral
  rw [mem_absorbLiterals_iff, hbase, mem_joinBooleans_iff, and_assoc]
  refine and_congr_right fun _ => and_iff_right_of_imp ?_
  rintro h b rfl hboth
  exact h rfl (.inr ⟨rfl, hboth⟩)

/-- Where there is something but null and undefined, some of it stays. -/
theorem exists_stays_not_nullish (hu : P u) (hnot : u.isNullish = false) :
    ∃ v, P v ∧ (v.isLiteral = true → ¬ P v.base) ∧ v.isNullish = false := by
  by_cases h : u.isLiteral = true ∧ P u.base
  · exact ⟨u.base, h.2, fun hliteral => absurd hliteral (by simp [isLiteral_base]), isNullish_base h.1⟩
  · exact ⟨u, hu, fun hliteral hbase => h ⟨hliteral, hbase⟩, hnot⟩

/-- **What stays in a union** is said by which types there are. -/
theorem mem_reduced_iff : t ∈ reduced strict ts ↔ Stays strict (Among ts) t := by
  have hsteps : t ∈ reduced strict ts ↔ t ∈ absorbNullish strict (absorbLiterals (joinBooleans ts)) := by
    rw [reduced, mem_dedupAfter_iff]
    exact and_iff_left List.not_mem_nil
  rw [hsteps, mem_absorbNullish_iff, mem_absorbLiterals_joinBooleans_iff]
  constructor
  · rintro ⟨⟨hthere, hbase⟩, hnullish⟩
    refine ⟨hthere, hbase, fun hstrict ht u hu => ?_⟩
    by_contra hnot
    obtain ⟨v, hv, hvbase, hvnot⟩ := exists_stays_not_nullish hu (by simpa using hnot)
    have h := hnullish hstrict ht v (mem_absorbLiterals_joinBooleans_iff.mpr ⟨hv, hvbase⟩)
    rw [hvnot] at h
    cases h
  · rintro ⟨hthere, hbase, hnullish⟩
    exact ⟨⟨hthere, hbase⟩, fun hstrict ht u hu =>
      hnullish hstrict ht u (mem_absorbLiterals_joinBooleans_iff.mp hu).1⟩

/-! ### What takes the place of others -/

/-- A type that is there is covered by what stays. -/
theorem covered_stays (h : P t) : Covered strict (Stays strict P) t := by
  by_cases hbase : t.isLiteral = true ∧ P t.base
  · refine .base hbase.1 ⟨hbase.2, fun h => ?_, fun _ h => ?_⟩
    · rw [isLiteral_base] at h
      cases h
    · rw [isNullish_base hbase.1] at h
      cases h
  · by_cases hother : strict = false ∧ t.isNullish = true ∧ ∃ u, P u ∧ u.isNullish = false
    · obtain ⟨hstrict, hnullish, u, hu, hnot⟩ := hother
      obtain ⟨v, hv, hvbase, hvnot⟩ := exists_stays_not_nullish hu hnot
      refine .other hstrict hnullish hvnot ⟨hv, hvbase, fun _ h => ?_⟩
      rw [hvnot] at h
      cases h
    · refine .self ⟨h, fun hliteral hb => hbase ⟨hliteral, hb⟩, fun hstrict hnullish u hu => ?_⟩
      by_contra hnot
      exact hother ⟨hstrict, hnullish, u, hu, by simpa using hnot⟩

theorem Covered.mono (h : Covered strict P t) (hPQ : ∀ u, P u → Q u) : Covered strict Q t := by
  cases h with
  | self h => exact .self (hPQ _ h)
  | base hliteral h => exact .base hliteral (hPQ _ h)
  | other hstrict hnullish hu h => exact .other hstrict hnullish hu (hPQ _ h)

/-- What covers every type that is there leaves the same ones. -/
theorem stays_congr (hQP : ∀ u, Q u → P u) (hPQ : ∀ u, P u → Covered strict Q u) :
    Stays strict P t ↔ Stays strict Q t := by
  constructor
  · rintro ⟨hthere, hbase, hnullish⟩
    refine ⟨?_, fun hliteral hb => hbase hliteral (hQP _ hb), fun hstrict ht u hu => hnullish hstrict ht u (hQP u hu)⟩
    cases hPQ t hthere with
    | self h => exact h
    | base hliteral h => exact absurd (hQP _ h) (hbase hliteral)
    | other hstrict ht hu h =>
      rw [hnullish hstrict ht _ (hQP _ h)] at hu
      cases hu
  · rintro ⟨hthere, hbase, hnullish⟩
    refine ⟨hQP t hthere, fun hliteral hb => ?_, fun hstrict ht u hu => ?_⟩
    · -- the type that `t` belongs to could only be covered by itself
      cases hPQ _ hb with
      | self h => exact hbase hliteral h
      | base hliteral' _ => rw [isLiteral_base] at hliteral'; cases hliteral'
      | other _ hnull _ _ => rw [isNullish_base hliteral] at hnull; cases hnull
    · cases hPQ u hu with
      | self h => exact hnullish hstrict ht u h
      | base hliteral h =>
        have hnull := hnullish hstrict ht _ h
        rw [isNullish_base hliteral] at hnull
        cases hnull
      | other _ hnull _ _ => exact hnull

theorem among_of_forall_mem (h : ∀ t ∈ ts, Among us t) (ht : Among ts t) : Among us t := by
  have hvalue : ∀ b, booleanLiteral b ∈ ts → booleanLiteral b ∈ us := fun b hb =>
    (h _ hb).resolve_right (nofun ∘ And.left)
  rcases ht with ht | ⟨rfl, htrue, hfalse⟩
  · exact h t ht
  · exact .inr ⟨rfl, hvalue _ htrue, hvalue _ hfalse⟩

theorem covered_among (h : ∀ t ∈ ts, Covered strict (· ∈ us) t) (ht : Among ts t) : Covered strict (Among us) t := by
  rcases ht with ht | ⟨rfl, htrue, hfalse⟩
  · exact (h t ht).mono fun _ => .inl
  · -- two truth values are covered by themselves, or one of them by `boolean`
    cases h _ htrue with
    | base _ htrue => exact .self (.inl htrue)
    | other _ hnullish _ _ => cases hnullish
    | self htrue =>
      cases h _ hfalse with
      | base _ hfalse => exact .self (.inl hfalse)
      | other _ hnullish _ _ => cases hnullish
      | self hfalse => exact .self (.inr ⟨rfl, htrue, hfalse⟩)

/-! ### Unions up to the order of their members -/

/-- The types are the same up to the order of the members if they are unions. -/
inductive Rearranges : Ty → Ty → Prop where
  /-- The types are the same. -/
  | refl (t : Ty) : Rearranges t t
  /-- The members are the same in another order. -/
  | union {ts us : List Ty} (h : ts.Perm us) : Rearranges (union ts) (union us)

theorem Rearranges.trans {v : Ty} (htu : Rearranges t u) (huv : Rearranges u v) : Rearranges t v := by
  cases htu with
  | refl => exact huv
  | union h =>
    cases huv with
    | refl => exact .union h
    | union h' => exact .union (h.trans h')

theorem rearranges_ofMembers (h : ts.Perm us) : Rearranges (ofMembers ts) (ofMembers us) := by
  match ts, us, h.length_eq with
  | [], [], _ => exact .refl _
  | [t], [u], _ => exact List.singleton_perm_singleton.mp h ▸ .refl _
  | _ :: _ :: _, _ :: _ :: _, _ => exact .union h

/-- A union depends only on what stays in it. -/
theorem rearranges_of_stays (hany : any ∈ ts ↔ any ∈ us) (hunknown : any ∉ us → (unknown ∈ ts ↔ unknown ∈ us))
    (h : any ∉ us → unknown ∉ us → ∀ t, Stays strict (Among ts) t ↔ Stays strict (Among us) t) :
    Rearranges (ofConstituents strict ts) (ofConstituents strict us) := by
  rw [ofConstituents, ofConstituents]
  by_cases hanyus : any ∈ us
  · rw [if_pos hanyus, if_pos (hany.mpr hanyus)]
    exact .refl any
  rw [if_neg hanyus, if_neg (hanyus ∘ hany.mp)]
  by_cases hunknownus : unknown ∈ us
  · rw [if_pos hunknownus, if_pos ((hunknown hanyus).mpr hunknownus)]
    exact .refl unknown
  rw [if_neg hunknownus, if_neg (hunknownus ∘ (hunknown hanyus).mp)]
  refine rearranges_ofMembers ((List.perm_ext_iff_of_nodup (nodup_reduced ..) (nodup_reduced ..)).mpr fun t => ?_)
  rw [mem_reduced_iff, mem_reduced_iff]
  exact h hanyus hunknownus t

/-! ### Order and repetition -/

/-- The same types in another order, some of them several times, have the same union. -/
theorem rearranges_of_mem_iff (h : ∀ t, t ∈ ts ↔ t ∈ us) :
    Rearranges (ofConstituents strict ts) (ofConstituents strict us) := by
  have hamong : Among ts = Among us := by
    funext t
    simp only [Among, h]
  exact rearranges_of_stays (h any) (fun _ => h unknown) fun _ _ t => by rw [hamong]

/-! ### Grouping -/

/-- The steps of a union bring nothing along but `boolean`. -/
theorem mem_of_mem_reduced (h : t ∈ reduced strict ts) (hboolean : t ≠ boolean) : t ∈ ts :=
  (mem_of_mem_steps h).resolve_right hboolean

theorem IsMember.constituents (h : t.IsMember) : t.constituents = [t] := by
  cases t with
  | union ts => exact absurd rfl (h.ne_union ts)
  | never => exact absurd rfl h.ne_never
  | _ => rfl

theorem constituents_ofMembers (h : ∀ t ∈ ts, t.IsMember) : (ofMembers ts).constituents = ts := by
  match ts with
  | [] => rfl
  | [t] => exact (h t List.mem_cons_self).constituents
  | _ :: _ :: _ => rfl

/-- What the union of normal types contributes to another union. -/
theorem constituents_unionOf (h : ∀ t ∈ ts, t.Normal strict) : (unionOf strict ts).constituents =
    if any ∈ ts.flatMap constituents then [any]
    else if unknown ∈ ts.flatMap constituents then [unknown]
    else reduced strict (ts.flatMap constituents) := by
  rw [unionOf_eq, ofConstituents]
  split
  · rfl
  split
  · rfl
  rename_i hany hunknown
  refine constituents_ofMembers fun t ht => ?_
  rcases mem_of_mem_steps ht with ht | rfl
  · obtain ⟨u, hu, htu⟩ := List.mem_flatMap.mp ht
    exact (h u hu).isMember_of_mem_constituents htu (ne_of_mem_of_not_mem ht hany) (ne_of_mem_of_not_mem ht hunknown)
  · exact ⟨nofun, nofun, nofun, nofun⟩

/-- With some of the types put together first the same ones stay. -/
theorem stays_regrouped {as bs cs : List Ty} : Stays strict (Among (as ++ reduced strict bs ++ cs)) t ↔
    Stays strict (Among (as ++ bs ++ cs)) t := by
  refine (stays_congr (fun u hu => among_of_forall_mem (fun v hv => ?_) hu)
    fun u hu => covered_among (fun v hv => ?_) hu).symm
  · rcases List.mem_append.mp hv with hv | hv
    · rcases List.mem_append.mp hv with hv | hv
      · exact .inl (by simp [hv])
      · exact among_of_forall_mem (fun w hw => .inl (by simp [hw])) (mem_reduced_iff.mp hv).there
    · exact .inl (by simp [hv])
  · rcases List.mem_append.mp hv with hv | hv
    · rcases List.mem_append.mp hv with hv | hv
      · exact .self (by simp [hv])
      · have hcovered : Covered strict (Stays strict (Among bs)) v := covered_stays (.inl hv)
        exact hcovered.mono fun w hw => by simp [mem_reduced_iff.mpr hw]
    · exact .self (by simp [hv])

/-- Normal types in the middle can be put together first. -/
theorem rearranges_regrouped {as bs cs : List Ty} (hbs : ∀ t ∈ bs, t.Normal strict) :
    Rearranges (ofConstituents strict (as ++ (unionOf strict bs).constituents ++ cs))
      (ofConstituents strict (as ++ bs.flatMap constituents ++ cs)) := by
  generalize hms : bs.flatMap constituents = ms
  rw [constituents_unionOf hbs, hms]
  -- the members in the middle only matter where there is neither `any` nor `unknown` among them
  split
  · rename_i hany
    refine rearranges_of_stays ?_ ?_ ?_ <;> simp [hany]
  split
  · rename_i hany hunknown
    refine rearranges_of_stays ?_ ?_ ?_ <;> simp [hany, hunknown]
  · rename_i hany hunknown
    have hnot : ∀ {t}, t ∉ ms → t ≠ boolean → t ∉ reduced strict ms :=
      fun ht hboolean h => ht (mem_of_mem_reduced h hboolean)
    refine rearranges_of_stays ?_ (fun _ => ?_) fun _ _ _ => stays_regrouped
    · simp [hany, hnot hany]
    · simp [hunknown, hnot hunknown]

/-- **Unions do not depend on order, grouping and repetition**: some of the types can be put together first, and all of
them can be listed in any order and as often as one likes. The result is the same up to the order of its members. -/
theorem rearranges_unionOf {as bs cs ts : List Ty} (hbs : ∀ t ∈ bs, t.Normal strict)
    (hts : ∀ t, t ∈ ts ↔ t ∈ as ++ bs ++ cs) :
    Rearranges (unionOf strict (as ++ [unionOf strict bs] ++ cs)) (unionOf strict ts) := by
  rw [unionOf_eq strict (as ++ _ ++ cs), unionOf_eq strict ts, List.flatMap_append, List.flatMap_append,
    List.flatMap_singleton]
  refine (rearranges_regrouped hbs).trans (rearranges_of_mem_iff fun t => ?_)
  rw [← List.flatMap_append, ← List.flatMap_append, List.mem_flatMap, List.mem_flatMap]
  simp only [hts]

/-- The two truth values come from different parts, and `boolean` stands in for both of them in either case. -/
theorem rearranges_truth_values_apart :
    (∀ t ∈ [booleanLiteral true, null], t.Normal true) ∧
      (∀ t, t ∈ [booleanLiteral false, null, booleanLiteral true, string, null] ↔
        t ∈ [string] ++ [booleanLiteral true, null] ++ [booleanLiteral false]) ∧
      Rearranges (unionOf true ([string] ++ [unionOf true [booleanLiteral true, null]] ++ [booleanLiteral false]))
        (unionOf true [booleanLiteral false, null, booleanLiteral true, string, null]) := by
  have hnormal : ∀ t ∈ [booleanLiteral true, null], t.Normal true := by simp
  have hmem : ∀ t, t ∈ [booleanLiteral false, null, booleanLiteral true, string, null] ↔
      t ∈ [string] ++ [booleanLiteral true, null] ++ [booleanLiteral false] := by
    intro t
    simp only [List.mem_append, List.mem_cons, List.not_mem_nil, or_false]
    tauto
  exact ⟨hnormal, hmem, rearranges_unionOf hnormal hmem⟩

-- The order does differ.
example : unionOf true [string, booleanLiteral true, null, booleanLiteral false] = union [string, null, boolean] ∧
    unionOf true [booleanLiteral false, null, booleanLiteral true, string, null] = union [null, string, boolean] := by
  decide +kernel

end ScriptAnalysis.Ty

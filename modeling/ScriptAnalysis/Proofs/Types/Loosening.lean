import ScriptAnalysis.Proofs.Types.Assignability

/-!
# Null and undefined as types of their own, or not

Whether null and undefined are types of their own makes a difference for assignability in one direction only: what is
assignable where they are stays so where they are not (`assignable_false_of_true`). Nothing is asked of the types; a
union need not be in its normal form. Parameters are compared in both directions, so the induction is on the two types
together.
-/

namespace ScriptAnalysis.Ty

variable {a b : Bool} {s t : Ty}

theorem isLeast_false_of_true (h : s.isLeast true = true) : s.isLeast false = true := by
  cases s with
  | any | never => rfl
  | _ => cases h

/-- Related parameters stay related when every comparison of their types that succeeds still does. -/
theorem paramsRelated_of_forall {ps qs : List (Param Ty)}
    (h : ∀ p ∈ ps, ∀ q ∈ qs, (q.type.assignable a p.type = true → q.type.assignable b p.type = true) ∧
      (p.type.assignable a q.type = true → p.type.assignable b q.type = true))
    (hrelated : paramsRelated a ps qs = true) : paramsRelated b ps qs = true := by
  induction ps generalizing qs with
  | nil => simp [paramsRelated]
  | cons p ps ih =>
    cases qs with
    | nil => simp [paramsRelated]
    | cons q qs =>
      rw [paramsRelated, Bool.and_eq_true, Bool.or_eq_true] at hrelated ⊢
      obtain ⟨hdown, hup⟩ := h p List.mem_cons_self q List.mem_cons_self
      refine ⟨hrelated.1.imp hdown hup, ih (fun p' hp' q' hq' => ?_) hrelated.2⟩
      exact h p' (List.mem_cons_of_mem p hp') q' (List.mem_cons_of_mem q hq')

/-- The type of a parameter is smaller than a function that has it. -/
theorem sizeOf_type_lt {p : Param Ty} {ps : List (Param Ty)} (hp : p ∈ ps) (ret : Ty) :
    sizeOf p.type < sizeOf (function ps ret) := by
  have hlist := List.sizeOf_lt_of_mem hp
  have hparam : sizeOf p.type < sizeOf p := by
    cases p
    simp
    omega
  simp only [function.sizeOf_spec]
  omega

/-- Each way in which a type that is no union is assignable to another one is left. -/
theorem Fits.loosened (h : Fits true s t)
    (ih : ∀ u v : Ty, sizeOf u + sizeOf v < sizeOf s + sizeOf t →
      u.assignable true v = true → u.assignable false v = true) : Fits false s t := by
  cases h with
  | self => exact .self s
  | greatest h => exact .greatest h
  | least h => exact .least (isLeast_false_of_true h)
  | undefined => exact .undefined
  | literal h ht => exact .literal h ht
  | @array s t h =>
    have hlt : sizeOf s + sizeOf t < sizeOf (Ty.array s) + sizeOf (Ty.array t) := by
      simp only [array.sizeOf_spec]
      omega
    exact .array (ih s t hlt h)
  | @function ps qs r r' harity hparams hret =>
    refine .function harity (paramsRelated_of_forall (fun p hp q hq => ?params) hparams) (hret.imp_right (ih r r' ?ret))
    case params =>
      have hp' := sizeOf_type_lt hp r
      have hq' := sizeOf_type_lt hq r'
      exact ⟨ih _ _ (by omega), ih _ _ (by omega)⟩
    case ret =>
      simp only [function.sizeOf_spec]
      omega
  | object id m n ms ns => exact .object id m n ms ns

/-- What is assignable stays so, for two types that are no larger together than `n`. -/
theorem assignable_loosened (n : Nat) (hn : sizeOf s + sizeOf t ≤ n) (h : s.assignable true t = true) :
    s.assignable false t = true := by
  induction n generalizing s t with
  | zero => cases s <;> simp at hn
  | succ n ih =>
    by_cases hs : ∃ ss, s = union ss
    · -- from a union every member is asked
      obtain ⟨ss, rfl⟩ := hs
      refine assignable_union_left.mpr fun u hu => ih ?_ (assignable_union_left.mp h u hu)
      have hlt := List.sizeOf_lt_of_mem hu
      simp only [union.sizeOf_spec] at hn
      omega
    · have hs' : ∀ ss, s ≠ union ss := fun ss hss => hs ⟨ss, hss⟩
      by_cases ht : ∃ ts, t = union ts
      · -- to a union some member is enough
        obtain ⟨ts, rfl⟩ := ht
        refine (assignable_union_right hs').mpr ?_
        refine ((assignable_union_right hs').mp h).imp isLeast_false_of_true fun ⟨u, hu, hsu⟩ => ⟨u, hu, ih ?_ hsu⟩
        have hlt := List.sizeOf_lt_of_mem hu
        simp only [union.sizeOf_spec] at hn
        omega
      · have ht' : ∀ ts, t ≠ union ts := fun ts hts => ht ⟨ts, hts⟩
        refine (((assignable_iff_fits hs' ht').mp h).loosened fun u v huv => ih ?_).assignable
        omega

/-- **Loosening never rejects**: what is assignable where null and undefined are types of their own is assignable
where they are not, whatever the types. -/
theorem assignable_false_of_true (s t : Ty) (h : s.assignable true t = true) : s.assignable false t = true :=
  assignable_loosened _ (Nat.le_refl _) h

/-- A function with an optional parameter of a union with a repeated member and a parameter for all further arguments,
in the place of one that takes less and returns nothing. -/
theorem assignable_false_of_true_function :
    (function [⟨"a", union [undefined, number, number], true, false⟩, ⟨"rest", array any, false, true⟩] null).assignable
        true (function [⟨"b", numberLiteral "1", false, false⟩] (union [null, void])) = true ∧
      (function [⟨"a", union [undefined, number, number], true, false⟩, ⟨"rest", array any, false, true⟩] null).assignable
        false (function [⟨"b", numberLiteral "1", false, false⟩] (union [null, void])) = true :=
  ⟨by decide +kernel, assignable_false_of_true _ _ (by decide +kernel)⟩

-- There is no way back.
example : null.assignable false string = true ∧ null.assignable true string = false := by
  decide +kernel

end ScriptAnalysis.Ty

import Mathlib.Data.List.Induction
import Mathlib.Data.List.Nodup

/-!
# Lists and arrays

What the standard library does not say of lists in which each element is kept once, and of arrays in
which one element is changed.
-/

namespace ScriptAnalysis

section
variable {α : Type} [BEq α] [LawfulBEq α]

/-- An element at the end is kept when it has not been there. -/
theorem eraseDups_concat (xs : List α) (x : α) :
    (xs ++ [x]).eraseDups = if x ∈ xs then xs.eraseDups else xs.eraseDups ++ [x] := by
  rw [List.eraseDups_append]
  by_cases h : x ∈ xs
  · simp [List.removeAll, h]
  · simp [List.removeAll, h, List.eraseDups_cons]

theorem nodup_eraseDups (xs : List α) : xs.eraseDups.Nodup := by
  induction xs using List.reverseRecOn with
  | nil => simp
  | append_singleton xs x ih =>
    rw [eraseDups_concat]
    by_cases h : x ∈ xs
    · rw [if_pos h]
      exact ih
    · rw [if_neg h, ← List.concat_eq_append]
      exact ih.concat fun hmem => h (List.mem_eraseDups.1 hmem)

theorem eraseDups_of_nodup {xs : List α} (h : xs.Nodup) : xs.eraseDups = xs := by
  induction xs using List.reverseRecOn with
  | nil => simp
  | append_singleton xs x ih =>
    obtain ⟨hxs, -, hdisjoint⟩ := List.nodup_append.1 h
    have hnot : x ∉ xs := fun hmem => hdisjoint x hmem x (List.mem_singleton_self x) rfl
    rw [eraseDups_concat, if_neg hnot, ih hxs]

end

section
variable {α β : Type}

/-- What is read off a changed element is changed as what is read off. -/
theorem map_modify {k : α → β} {f : α → α} {g : β → β} (h : ∀ x, k (f x) = g (k x)) (xs : Array α)
    (i : Nat) : (xs.modify i f).map k = (xs.map k).modify i g := by
  apply Array.ext_getElem?
  intro j
  simp only [Array.getElem?_map, Array.getElem?_modify]
  by_cases hij : i = j
  · simp [hij, Function.comp_def, h]
  · simp [hij]

/-- A change of an element that what is read off does not show. -/
theorem map_modify_of_eq {k : α → β} {f : α → α} (h : ∀ x, k (f x) = k x) (xs : Array α) (i : Nat) :
    (xs.modify i f).map k = xs.map k := by
  rw [map_modify (g := id) h]
  apply Array.ext_getElem?
  intro j
  simp [Array.getElem?_modify]

theorem modify_modify (f g : α → α) (xs : Array α) (i : Nat) :
    (xs.modify i f).modify i g = xs.modify i fun x => g (f x) := by
  apply Array.ext_getElem?
  intro j
  simp only [Array.getElem?_modify]
  by_cases hij : i = j
  · simp [hij, Function.comp_def]
  · simp [hij]

theorem modify_of_eq {f : α → α} (h : ∀ x, f x = x) (xs : Array α) (i : Nat) : xs.modify i f = xs := by
  simpa using map_modify_of_eq (k := id) h xs i

/-- A change of the last element that has just been added. -/
theorem push_modify_size (f : α → α) (xs : Array α) (x : α) :
    (xs.push x).modify xs.size f = xs.push (f x) := by
  apply Array.ext_getElem?
  intro j
  simp only [Array.getElem?_modify, Array.getElem?_push]
  by_cases hj : j = xs.size
  · simp [hj]
  · simp [hj, Ne.symm hj]

end

/-! ### Numbers of elements -/

section

variable {α : Type} {a b : α} {bs : List α} {n i j : Nat}

/-- Behind equal elements others that are all different have one place each. -/
theorem eq_of_getElem?_replicate_append (hnodup : bs.Nodup) (hb : b ≠ a)
    (hi : (List.replicate n a ++ bs)[i]? = some b) (hj : (List.replicate n a ++ bs)[j]? = some b) :
    i = j := by
  have hinner : ∀ {k}, (List.replicate n a ++ bs)[k]? = some b → n ≤ k ∧ bs[k - n]? = some b := by
    intro k hk
    rw [List.getElem?_append, List.length_replicate, List.getElem?_replicate] at hk
    by_cases hlt : k < n
    · simp [hlt, hb.symm] at hk
    · rw [if_neg hlt] at hk
      exact ⟨Nat.le_of_not_lt hlt, hk⟩
  obtain ⟨hni, hi⟩ := hinner hi
  obtain ⟨hnj, hj⟩ := hinner hj
  have hlt := (List.getElem?_eq_some_iff.mp hi).1
  have heq := (List.getElem?_inj hlt hnodup).mp (hi.trans hj.symm)
  omega

theorem lt_of_getElem?_replicate_append (ha : a ∉ bs)
    (hi : (List.replicate n a ++ bs)[i]? = some a) : i < n := by
  refine Nat.lt_of_not_le fun hle => ha ?_
  rw [List.getElem?_append_right (by simpa using hle)] at hi
  exact List.mem_of_getElem? hi

end

/-- The element behind a leading part is the one that is changed. -/
theorem modify_append_cons {α : Type} (xs ys : List α) (x : α) (f : α → α) :
    (xs ++ x :: ys).modify xs.length f = xs ++ f x :: ys := by
  induction xs with
  | nil => rfl
  | cons first xs ih => rw [List.cons_append, List.length_cons, List.modify_succ_cons, ih, List.cons_append]

/-- The last number that passes a test. -/
theorem getLast?_filter_range {p : Nat → Bool} {n i : Nat} (hi : i < n) (hp : p i = true)
    (hmax : ∀ j, p j = true → j ≤ i) : ((List.range n).filter p).getLast? = some i := by
  induction n with
  | zero => omega
  | succ n ih =>
    rw [List.range_succ, List.filter_append]
    by_cases hlast : n = i
    · subst hlast
      simp [hp]
    · have hnot : ¬ p n = true := by
        intro hn
        have hle := hmax n hn
        omega
      rw [List.filter_cons_of_neg hnot, List.filter_nil, List.append_nil]
      apply ih
      omega

end ScriptAnalysis

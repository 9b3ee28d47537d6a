/-!
# Sets of numbers

A finite set of natural numbers, kept as the bits of one number.
-/

namespace ScriptAnalysis.Semantics

/-- A finite set of natural numbers. -/
structure IdSet where
  /-- The number whose bits are the members. -/
  bits : Nat
  deriving DecidableEq, Repr

namespace IdSet

/-- The set without members. -/
def empty : IdSet := ⟨0⟩

/-- Whether a number is a member. -/
def contains (s : IdSet) (id : Nat) : Bool := s.bits.testBit id

/-- The set with one more member. -/
def insert (s : IdSet) (id : Nat) : IdSet := ⟨s.bits ||| 1 <<< id⟩

/-- The set without a number. -/
def erase (s : IdSet) (id : Nat) : IdSet := if s.contains id then ⟨s.bits ^^^ 1 <<< id⟩ else s

@[simp] theorem contains_empty (id : Nat) : empty.contains id = false := by
  simp [contains, empty]

@[simp] theorem contains_insert (s : IdSet) (a b : Nat) :
    (s.insert a).contains b = (s.contains b || a == b) := by
  simp only [contains, insert, Nat.testBit_or, Nat.one_shiftLeft, Nat.testBit_two_pow]
  congr 1

@[simp] theorem contains_erase (s : IdSet) (a b : Nat) :
    (s.erase a).contains b = (s.contains b && a != b) := by
  have hxor : (⟨s.bits ^^^ 1 <<< a⟩ : IdSet).contains b = (s.contains b ^^ a == b) := by
    simp only [contains, Nat.testBit_xor, Nat.one_shiftLeft, Nat.testBit_two_pow]
    congr 1
  by_cases hab : a = b
  · subst hab
    by_cases h : s.contains a = true
    · rw [erase, if_pos h, hxor]
      simp [h]
    · rw [erase, if_neg h]
      simp [h]
  · have hbeq : (a == b) = false := beq_eq_false_iff_ne.mpr hab
    rw [erase]
    split
    · rw [hxor, bne, hbeq, Bool.xor_false, Bool.not_false, Bool.and_true]
    · rw [bne, hbeq, Bool.not_false, Bool.and_true]

/-- Sets with the same members are the same. -/
theorem ext_contains {s t : IdSet} (h : ∀ id, s.contains id = t.contains id) : s = t := by
  cases s
  cases t
  exact congrArg mk (Nat.eq_of_testBit_eq h)

/-- A new member put into a set and taken out again leaves the set as it was. -/
theorem erase_insert {s : IdSet} {id : Nat} (h : s.contains id = false) : (s.insert id).erase id = s := by
  refine ext_contains fun other => ?_
  rw [contains_erase, contains_insert]
  by_cases hid : id = other
  · subst hid
    simp [h]
  · have hbeq : (id == other) = false := beq_eq_false_iff_ne.mpr hid
    rw [bne, hbeq, Bool.not_false, Bool.and_true, Bool.or_false]

end IdSet

end ScriptAnalysis.Semantics

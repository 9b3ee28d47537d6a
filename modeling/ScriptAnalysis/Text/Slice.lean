/-!
# Byte offsets in text

Text is a list of characters; places in it are byte offsets of its UTF-8 form. `slice` cuts out what
lies between two offsets and has no answer when an offset falls inside a character. The lemmas say
that cutting at the end of a leading part gives exactly that part and exactly what follows it.
-/

namespace ScriptAnalysis.Text

/-- How many bytes the characters take in UTF-8. -/
def byteLength : List Char → Nat
  | [] => 0
  | c :: cs => c.utf8Size + byteLength cs

/-- What follows the first `n` bytes; `none` when `n` is past the end or inside a character. -/
def dropBytes : Nat → List Char → Option (List Char)
  | 0, cs => some cs
  | _ + 1, [] => none
  | n + 1, c :: cs => if c.utf8Size ≤ n + 1 then dropBytes (n + 1 - c.utf8Size) cs else none

/-- The first `n` bytes; `none` when `n` is past the end or inside a character. -/
def takeBytes : Nat → List Char → Option (List Char)
  | 0, _ => some []
  | _ + 1, [] => none
  | n + 1, c :: cs =>
    if c.utf8Size ≤ n + 1 then (takeBytes (n + 1 - c.utf8Size) cs).map (c :: ·) else none

/-- The characters from byte `start` up to byte `stop`; `none` when the offsets are out of order, past
the end or inside a character. -/
def slice (cs : List Char) (start stop : Nat) : Option (List Char) :=
  if start ≤ stop then (dropBytes start cs).bind (takeBytes (stop - start)) else none

/-- How many UTF-16 code units the characters take. -/
def unitLength : List Char → Nat
  | [] => 0
  | c :: cs => (if c.toNat < 0x10000 then 1 else 2) + unitLength cs

@[simp] theorem byteLength_nil : byteLength [] = 0 := rfl

@[simp] theorem byteLength_cons (c : Char) (cs : List Char) :
    byteLength (c :: cs) = c.utf8Size + byteLength cs := rfl

@[simp] theorem byteLength_append (a b : List Char) :
    byteLength (a ++ b) = byteLength a + byteLength b := by
  induction a with
  | nil => simp
  | cons c a ih => simp [ih, Nat.add_assoc]

@[simp] theorem unitLength_append (a b : List Char) :
    unitLength (a ++ b) = unitLength a + unitLength b := by
  induction a with
  | nil => simp [unitLength]
  | cons c a ih => simp [unitLength, ih, Nat.add_assoc]

@[simp] theorem dropBytes_zero (cs : List Char) : dropBytes 0 cs = some cs := by
  cases cs <;> rfl

@[simp] theorem takeBytes_zero (cs : List Char) : takeBytes 0 cs = some [] := by
  cases cs <;> rfl

theorem dropBytes_append (a b : List Char) (n : Nat) :
    dropBytes (byteLength a + n) (a ++ b) = dropBytes n b := by
  induction a with
  | nil => simp
  | cons c a ih =>
    have hc := c.utf8Size_pos
    obtain ⟨k, hk⟩ : ∃ k, c.utf8Size + byteLength a + n = k + 1 := ⟨_, (Nat.succ_pred (by omega)).symm⟩
    simp only [byteLength_cons, List.cons_append, hk, dropBytes]
    rw [if_pos (by omega), ← ih]
    congr 1
    omega

theorem takeBytes_append (a b : List Char) (n : Nat) :
    takeBytes (byteLength a + n) (a ++ b) = (takeBytes n b).map (a ++ ·) := by
  induction a with
  | nil => simp
  | cons c a ih =>
    have hc := c.utf8Size_pos
    obtain ⟨k, hk⟩ : ∃ k, c.utf8Size + byteLength a + n = k + 1 := ⟨_, (Nat.succ_pred (by omega)).symm⟩
    simp only [byteLength_cons, List.cons_append, hk, takeBytes]
    rw [if_pos (by omega)]
    have : k + 1 - c.utf8Size = byteLength a + n := by omega
    rw [this, ih]
    simp [Function.comp_def]

/-- Cutting from the end of a leading part to the end of the next part gives that next part. -/
theorem slice_append_append (a b c : List Char) :
    slice (a ++ b ++ c) (byteLength a) (byteLength a + byteLength b) = some b := by
  have h := dropBytes_append a (b ++ c) 0
  have h' := takeBytes_append b c 0
  simp only [Nat.add_zero, dropBytes_zero, takeBytes_zero] at h h'
  simp [slice, h, h', List.append_assoc]

end ScriptAnalysis.Text

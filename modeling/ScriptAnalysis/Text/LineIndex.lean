import ScriptAnalysis.Text.Slice
import ScriptAnalysis.Text.Span

/-!
# Lines and columns

A position is a line, counted from one, and a column, counted from zero in UTF-16 code units. A line
feed ends the line it stands on. A line index holds the positions of all offsets of a text: an offset
inside a character is on the line of the character and has column zero, and an offset past the end is
read as the end. A position that is asked for has its numbers in 32 bits, where the largest number
stands for all that do not fit.
-/

namespace ScriptAnalysis.Text

/-- A line and a column. -/
structure Position where
  /-- The line, from one. -/
  line : Nat
  /-- The column, from zero. -/
  column : Nat
  deriving DecidableEq, Repr, Inhabited

/-- A number in 32 bits; the largest one stands for all that do not fit. -/
def inWord (n : Nat) : Nat := min n Span.maxOffset

namespace Position

/-- A position with its numbers in 32 bits. -/
def inWords (p : Position) : Position := ⟨inWord p.line, inWord p.column⟩

/-- The position where a text starts. -/
def first : Position := ⟨1, 0⟩

/-- The position after a character. -/
def after (p : Position) (c : Char) : Position :=
  if c = '\n' then ⟨p.line + 1, 0⟩ else ⟨p.line, p.column + unitLength [c]⟩

end Position

/-- The positions of the offsets of a text that starts at a position, the end included. -/
def positionsFrom (p : Position) : List Char → List Position
  | [] => [p]
  | c :: cs => p :: (List.replicate (c.utf8Size - 1) ⟨p.line, 0⟩ ++ positionsFrom (p.after c) cs)

/-- There is a position for every offset of the text and for its end. -/
theorem length_positionsFrom (p : Position) (cs : List Char) :
    (positionsFrom p cs).length = byteLength cs + 1 := by
  induction cs generalizing p with
  | nil => rfl
  | cons c cs ih =>
    have := c.utf8Size_pos
    simp only [positionsFrom, List.length_cons, List.length_append, List.length_replicate, ih,
      byteLength_cons]
    omega

/-- The offsets behind a leading part have the positions of the rest, from where that part ends. -/
theorem getElem?_positionsFrom_append_add (p : Position) (a b : List Char) (n : Nat) :
    (positionsFrom p (a ++ b))[byteLength a + n]? = (positionsFrom (a.foldl Position.after p) b)[n]? := by
  induction a generalizing p with
  | nil => simp
  | cons c a ih =>
    have := c.utf8Size_pos
    obtain ⟨k, hk⟩ : ∃ k, c.utf8Size = k + 1 := ⟨_, (Nat.succ_pred (by omega)).symm⟩
    rw [List.cons_append, positionsFrom, byteLength_cons, hk, List.foldl_cons, Nat.add_sub_cancel,
      show k + 1 + byteLength a + n = (k + (byteLength a + n)) + 1 by omega, List.getElem?_cons_succ,
      List.getElem?_append_right (by simp), List.length_replicate, Nat.add_sub_cancel_left]
    exact ih _

/-- The offset behind a leading part has the position behind the characters of that part. -/
theorem getElem?_positionsFrom_append (p : Position) (a b : List Char) :
    (positionsFrom p (a ++ b))[byteLength a]? = some (a.foldl Position.after p) := by
  refine (getElem?_positionsFrom_append_add p a b 0).trans ?_
  cases b <;> rfl

/-- The positions of all offsets of a text. -/
structure LineIndex where
  /-- The positions by offset, the end of the text included. -/
  positions : Array Position
  deriving DecidableEq, Repr

namespace LineIndex

/-- The line index of a text. -/
def ofChars (cs : List Char) : LineIndex := ⟨(positionsFrom .first cs).toArray⟩

/-- The position of the end of the text. -/
def last (index : LineIndex) : Position := index.positions.back?.getD .first

/-- The position of an offset. -/
def position (index : LineIndex) (offset : Nat) : Position :=
  (index.positions[offset]?.getD index.last).inWords

/-- The offset behind a leading part of a text has the position behind the characters of that part. -/
theorem position_ofChars_append (a b : List Char) :
    (ofChars (a ++ b)).position (byteLength a) = (a.foldl Position.after .first).inWords := by
  simp [ofChars, position, getElem?_positionsFrom_append]

end LineIndex

end ScriptAnalysis.Text

import ScriptAnalysis.Text.Slice

/-!
# Spans

A span is a range of byte offsets, its end not included. Offsets that are written down fit in 32 bits;
`Span.ofRange` refuses a range that does not.
-/

namespace ScriptAnalysis

/-- A range of byte offsets: `start` belongs to it, `stop` does not. -/
structure Span where
  /-- The first offset. -/
  start : Nat
  /-- The first offset after it. -/
  stop : Nat
  deriving DecidableEq, Repr, Inhabited

namespace Span

/-- The largest offset that can be written down. -/
def maxOffset : Nat := 0xFFFFFFFF

/-- Why a range is not a span. -/
inductive RangeError where
  /-- The start is past `maxOffset`. -/
  | startTooLarge (offset : Nat)
  /-- The end is past `maxOffset`. -/
  | endTooLarge (offset : Nat)
  deriving DecidableEq, Repr

/-- The sentence that reports a refused range. -/
def RangeError.message : RangeError → String
  | .startTooLarge offset => s!"span start {offset} exceeds u32::MAX ({maxOffset})"
  | .endTooLarge offset => s!"span end {offset} exceeds u32::MAX ({maxOffset})"

/-- The empty span at an offset. -/
def point (offset : Nat) : Span := ⟨offset, offset⟩

/-- The span of a range; the start is examined first. -/
def ofRange (start stop : Nat) : Except RangeError Span :=
  if maxOffset < start then .error (.startTooLarge start)
  else if maxOffset < stop then .error (.endTooLarge stop)
  else .ok ⟨start, stop⟩

/-- How many bytes the span covers. -/
def length (s : Span) : Nat := s.stop - s.start

/-- Whether the span starts where it stops. -/
def isEmpty (s : Span) : Bool := s.start == s.stop

/-- Whether an offset lies in the span. -/
def contains (s : Span) (offset : Nat) : Bool := s.start ≤ offset && offset < s.stop

/-- The least span that covers both. -/
def merge (s t : Span) : Span := ⟨min s.start t.start, max s.stop t.stop⟩

/-- The text that the span covers; empty when the text ends before it or a character is cut. -/
def textIn (s : Span) (source : List Char) : String :=
  String.ofList ((Text.slice source s.start s.stop).getD [])

/-- The written form `start..stop`. -/
def text (s : Span) : String := s!"{s.start}..{s.stop}"

@[simp] theorem start_point (offset : Nat) : (point offset).start = offset := rfl

@[simp] theorem stop_point (offset : Nat) : (point offset).stop = offset := rfl

@[simp] theorem start_merge (s t : Span) : (s.merge t).start = min s.start t.start := rfl

@[simp] theorem stop_merge (s t : Span) : (s.merge t).stop = max s.stop t.stop := rfl

theorem contains_iff (s : Span) (offset : Nat) :
    s.contains offset = true ↔ s.start ≤ offset ∧ offset < s.stop := by
  simp [contains]

end Span

end ScriptAnalysis

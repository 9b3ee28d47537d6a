import ScriptAnalysis.Text.LineIndex

/-!
# The offsets where lines start

The lines of a text start at zero and behind every line feed. These offsets in order are a table that is
enough to find positions: the line of an offset is the last one that starts there or further left, and its
column is counted from the start of that line. `search` halves the table; where the offset is not in it the
line is the one before the place where it would have to be put in.
-/

namespace ScriptAnalysis.Text

/-- What a search in an ordered array comes to. -/
inductive Found where
  /-- The number stands at the index. -/
  | present (index : Nat)
  /-- The number is not there; the numbers before the index are smaller. -/
  | absent (index : Nat)
  deriving DecidableEq, Repr

/-- Searches an ordered array for a number, from `low` on and before `high`, by halves. -/
def search (xs : Array Nat) (x low high : Nat) (hhigh : high ≤ xs.size) : Found :=
  if h : low < high then
    let middle := low + (high - low) / 2
    have hmiddle : middle < high := by omega
    if xs[middle] = x then .present middle
    else if xs[middle] < x then search xs x (middle + 1) high hhigh
    else search xs x low middle (by omega)
  else .absent low
termination_by high - low

/-- The offsets where the lines of a text start, in order. -/
structure LineStarts where
  /-- The offsets. -/
  offsets : Array Nat
  deriving DecidableEq, Repr

namespace LineStarts

/-- The offsets behind the line feeds of a text that starts at an offset. -/
def behindLineFeeds (offset : Nat) : List Char → List Nat
  | [] => []
  | c :: cs =>
    let next := offset + c.utf8Size
    if c = '\n' then inWord next :: behindLineFeeds next cs else behindLineFeeds next cs

/-- The offsets where the lines of a text start. -/
def ofChars (cs : List Char) : LineStarts := ⟨(0 :: behindLineFeeds 0 cs).toArray⟩

/-- How many lines there are; a final line feed is followed by an empty line. -/
def lineCount (starts : LineStarts) : Nat := starts.offsets.size

/-- The index of the line of an offset, none if the offset stands before all lines. -/
def line? (starts : LineStarts) (offset : Nat) : Option Nat :=
  match search starts.offsets offset 0 starts.offsets.size (Nat.le_refl _) with
  | .present line => some line
  | .absent 0 => none
  | .absent (next + 1) => some next

/-- The position of an offset of the text, none if the table has no line for it. -/
def position? (starts : LineStarts) (source : List Char) (offset : Nat) : Option Position := do
  let line ← starts.line? offset
  let start ← starts.offsets[line]?
  let column := ((slice source start (min offset (byteLength source))).map unitLength).getD 0
  return (⟨line + 1, column⟩ : Position).inWords

end LineStarts

end ScriptAnalysis.Text

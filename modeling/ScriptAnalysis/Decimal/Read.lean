import ScriptAnalysis.Decimal.Binary64

/-!
# Reading a decimal

The written forms of a number: an optional sign, and then digits with an optional point before, among
or after them and an optional exponent, or one of the words `inf`, `infinity` and `nan` in any mix of
upper and lower case. Digits are ASCII digits; there is at least one of them, and at least one in an
exponent.
-/

namespace ScriptAnalysis.Decimal

/-- The number that digits write after the ones that made `value`. -/
def digitsOnto (value : Nat) (digits : List Char) : Nat :=
  digits.foldl (fun value c => 10 * value + (c.toNat - '0'.toNat)) value

/-- The sign in front, and what follows it. -/
def signed : List Char → Bool × List Char
  | '-' :: cs => (true, cs)
  | '+' :: cs => (false, cs)
  | cs => (false, cs)

/-- The digits after a point, if a point is in front, and what follows them. -/
def pointDigits : List Char → List Char × List Char
  | '.' :: cs => (cs.takeWhile Char.isDigit, cs.dropWhile Char.isDigit)
  | cs => ([], cs)

/-- The exponent that makes up all of the text; an empty text is the exponent zero. -/
def exponent? : List Char → Option Int
  | [] => some 0
  | e :: cs =>
    let (negative, digits) := signed cs
    if (e = 'e' ∨ e = 'E') ∧ digits ≠ [] ∧ digits.all Char.isDigit then
      let n : Int := digitsOnto 0 digits
      some (if negative then -n else n)
    else none

/-- The number that a text without a sign writes in digits. -/
def digits? (negative : Bool) (cs : List Char) : Option Binary64 :=
  let whole := cs.takeWhile Char.isDigit
  let (part, rest) := pointDigits (cs.dropWhile Char.isDigit)
  if whole = [] ∧ part = [] then none
  else (exponent? rest).map fun exponent =>
    .ofDecimal negative (digitsOnto 0 (whole ++ part)) (exponent - part.length)

/-- The number that a text without a sign writes as a word. -/
def word? (negative : Bool) (cs : List Char) : Option Binary64 :=
  let lower := cs.map Char.toLower
  if lower = ['n', 'a', 'n'] then some .nan
  else if lower = ['i', 'n', 'f'] ∨ lower = ['i', 'n', 'f', 'i', 'n', 'i', 't', 'y'] then
    some (.infinite negative)
  else none

/-- The number that a text writes. -/
def read? (cs : List Char) : Option Binary64 :=
  let (negative, cs) := signed cs
  (digits? negative cs).or (word? negative cs)

end ScriptAnalysis.Decimal

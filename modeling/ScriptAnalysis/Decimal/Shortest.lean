import ScriptAnalysis.Decimal.Binary64

/-!
# Writing a number with the fewest digits

Of the decimals that read back as the same number the one with the fewest digits is written, and of
several with as few digits the one nearest to the number; a tie goes up. Digits are always positional:
zeros take the place of an exponent.

A number `m * 2 ^ e` is what a decimal reads back as when the decimal lies between the points half way
to its neighbours, the points themselves included exactly when `m` is even. With four times the
mantissa and a quarter of the unit all three are integers: `4 * m`, `4 * m + 2`, and below `4 * m - 2`,
or `4 * m - 1` where the lower neighbour is half as far away.
-/

namespace ScriptAnalysis.Decimal

/-- The decimal `digits * 10 ^ place`. -/
structure Digits where
  /-- The digits as a number. -/
  digits : Nat
  /-- The place of the last digit. -/
  place : Int
  deriving DecidableEq, Repr

/-- The decimals that read back as one number: those between `low / den` and `high / den`, around
`value / den`. -/
structure Interval where
  /-- The number. -/
  value : Nat
  /-- The lower end. -/
  low : Nat
  /-- The upper end. -/
  high : Nat
  /-- The denominator of all three. -/
  den : Nat
  /-- Whether the ends belong to it. -/
  closed : Bool
  deriving DecidableEq, Repr

namespace Interval

/-- The interval of `m * 2 ^ e`. -/
def ofFinite (m : Nat) (e : Int) : Interval :=
  let unit := Nat.pow 2 (e - 2).toNat
  let below := if m = Nat.pow 2 52 ∧ Binary64.minExponent < e then 4 * m - 1 else 4 * m - 2
  ⟨4 * m * unit, below * unit, (4 * m + 2) * unit, Nat.pow 2 (2 - e).toNat, m % 2 == 0⟩

/-- Whether `digits * 10 ^ place` lies in the interval. -/
def contains (i : Interval) (d : Digits) : Bool :=
  let x := d.digits * Nat.pow 10 d.place.toNat * i.den
  let low := i.low * Nat.pow 10 (-d.place).toNat
  let high := i.high * Nat.pow 10 (-d.place).toNat
  if i.closed then low ≤ x && x ≤ high else low < x && x < high

/-- The nearest decimal of the interval with its last digit at a place, if there is one: the one just
below the number or the one just above it. -/
def nearestAt? (i : Interval) (place : Int) : Option Digits :=
  let num := i.value * Nat.pow 10 (-place).toNat
  let den := i.den * Nat.pow 10 place.toNat
  let q := num / den
  let lower : Digits := ⟨q, place⟩
  let upper : Digits := ⟨q + 1, place⟩
  match i.contains lower, i.contains upper with
  | true, true => some (if num - q * den < (q + 1) * den - num then lower else upper)
  | true, false => some lower
  | false, true => some upper
  | false, false => none

/-- The first answer of `nearestAt?` among `n` places downwards. -/
def firstAt? (i : Interval) : Nat → Int → Option Digits
  | 0, _ => none
  | n + 1, place => (i.nearestAt? place).or (i.firstAt? n (place - 1))

/-- The least `k` from `from` on, among `n` of them, with `den ≤ num * 10 ^ k`. -/
def placesBelow (num den : Nat) : Nat → Nat → Nat
  | 0, k => k
  | n + 1, k => if den ≤ num * Nat.pow 10 k then k else placesBelow num den n (k + 1)

/-- The place of the leading digit of the number. -/
def leadingPlace (i : Interval) : Int :=
  if i.den ≤ i.value then Binary64.digitCount (i.value / i.den) - 1
  else -(placesBelow i.value i.den 400 1 : Int)

/-- The decimal of the interval with the fewest digits; seventeen digits always suffice. -/
def shortest (i : Interval) : Digits := (i.firstAt? 18 i.leadingPlace).getD ⟨0, 0⟩

end Interval

/-- The decimal without the zeros at its end, at most `n` of them. -/
def Digits.trimmed : Nat → Digits → Digits
  | 0, d => d
  | n + 1, d =>
    if d.digits ≠ 0 ∧ d.digits % 10 = 0 then Digits.trimmed n ⟨d.digits / 10, d.place + 1⟩ else d

/-- The decimal in positional digits. -/
def Digits.positional (d : Digits) : List Char :=
  let digits := Nat.toDigits 10 d.digits
  let after := (-d.place).toNat
  if after = 0 then digits ++ List.replicate d.place.toNat '0'
  else if after < digits.length then
    digits.take (digits.length - after) ++ '.' :: digits.drop (digits.length - after)
  else '0' :: '.' :: (List.replicate (after - digits.length) '0' ++ digits)

namespace Binary64

/-- The written form of a number. -/
def text : Binary64 → String
  | nan => "NaN"
  | infinite negative => if negative then "-inf" else "inf"
  | finite negative m e =>
    let magnitude := if m = 0 then ['0'] else ((Interval.ofFinite m e).shortest.trimmed 20).positional
    String.ofList (if negative then '-' :: magnitude else magnitude)

end Binary64

end ScriptAnalysis.Decimal

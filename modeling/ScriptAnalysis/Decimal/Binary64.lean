/-!
# Binary64 numbers

The numbers of the 64-bit binary format: sign, mantissa below `2 ^ 53` and exponent from `-1074` to
`971`, with the mantissa at least `2 ^ 52` unless the exponent is the least one. `ofRatio` rounds a
positive ratio to the nearest of them, a tie to the even mantissa, and overflows to infinity.
-/

namespace ScriptAnalysis.Decimal

/-- A number of the 64-bit binary format. -/
inductive Binary64 where
  /-- Not a number. -/
  | nan
  /-- An infinity. -/
  | infinite (negative : Bool)
  /-- The number `mantissa * 2 ^ exponent` with its sign. -/
  | finite (negative : Bool) (mantissa : Nat) (exponent : Int)
  deriving DecidableEq, Repr

/-- The integer nearest to `num / den`; a tie goes to the even one. -/
def roundHalfEven (num den : Nat) : Nat :=
  let q := num / den
  let r := num % den
  if 2 * r < den then q
  else if den < 2 * r then q + 1
  else if q % 2 = 0 then q
  else q + 1

/-- The exponent of the greatest power of two that is at most `num / den`. -/
def floorLog2 (num den : Nat) : Int :=
  let k : Int := num.log2 - den.log2
  if den * Nat.pow 2 k.toNat ≤ num * Nat.pow 2 (-k).toNat then k else k - 1

namespace Binary64

/-- The least exponent. -/
def minExponent : Int := -1074

/-- The greatest exponent. -/
def maxExponent : Int := 971

/-- Zero with a sign. -/
def zero (negative : Bool) : Binary64 := finite negative 0 minExponent

/-- The number nearest to the positive ratio `num / den`, with a sign. -/
def ofRatio (negative : Bool) (num den : Nat) : Binary64 :=
  let e := max (floorLog2 num den - 52) minExponent
  let m := roundHalfEven (num * Nat.pow 2 (-e).toNat) (den * Nat.pow 2 e.toNat)
  let (m, e) := if m = Nat.pow 2 53 then (Nat.pow 2 52, e + 1) else (m, e)
  if maxExponent < e then infinite negative else finite negative m e

/-- How many decimal digits a number has. -/
def digitCount (n : Nat) : Nat := (Nat.toDigits 10 n).length

/-- The number nearest to `digits * 10 ^ place`, with a sign. A decimal of at least `10 ^ 310` is past
the greatest finite number, and one below `10 ^ -330` is nearer to zero than to any other. -/
def ofDecimal (negative : Bool) (digits : Nat) (place : Int) : Binary64 :=
  if digits = 0 then zero negative
  else if 310 < digitCount digits + place then infinite negative
  else if digitCount digits + place < -330 then zero negative
  else ofRatio negative (digits * Nat.pow 10 place.toNat) (Nat.pow 10 (-place).toNat)

/-- The 64 bits of the number: sign, exponent, mantissa. One quiet pattern stands for all that is not a
number. -/
def bits : Binary64 → Nat
  | nan => 0x7FF8000000000000
  | infinite negative => (if negative then Nat.pow 2 63 else 0) + 0x7FF * Nat.pow 2 52
  | finite negative m e =>
    (if negative then Nat.pow 2 63 else 0) +
      (if m < Nat.pow 2 52 then m else (e - minExponent).toNat * Nat.pow 2 52 + m)

end Binary64

end ScriptAnalysis.Decimal

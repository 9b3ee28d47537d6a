import ScriptAnalysis.Text.Slice

/-!
# The value of a string literal

Between the quotes of a string literal a backslash changes what follows it: `\n`, `\t`, `\r` and `\0`
stand for a line feed, a tab, a carriage return and the null character, `\u` with up to four
hexadecimal digits for the character of that number, and any other character after a backslash for
itself. An escape that has no such number is kept as written.
-/

namespace ScriptAnalysis.Escape

open Text

/-- The value of a hexadecimal digit. -/
def hexDigit? (c : Char) : Option Nat :=
  if c.isDigit then some (c.toNat - '0'.toNat)
  else if 'a' ≤ c ∧ c ≤ 'f' then some (c.toNat - 'a'.toNat + 10)
  else if 'A' ≤ c ∧ c ≤ 'F' then some (c.toNat - 'A'.toNat + 10)
  else none

/-- The number that hexadecimal digits write after the ones that made `value`. -/
def hexDigits? (value : Nat) : List Char → Option Nat
  | [] => some value
  | c :: cs => (hexDigit? c).bind fun d => hexDigits? (16 * value + d) cs

/-- The number that characters write in base sixteen: at least one digit, after an optional plus
sign. -/
def hexNumber? : List Char → Option Nat
  | [] => none
  | ['+'] => none
  | '+' :: cs => hexDigits? 0 cs
  | cs => hexDigits? 0 cs

/-- The character with a number; surrogates and numbers past the last character have none. -/
def character? (n : Nat) : Option Char := if n.isValidChar then some (Char.ofNat n) else none

/-- What `\u` stands for in front of `cs`, which are the next four characters or all that is left. -/
def numbered (cs : List Char) : List Char :=
  match (hexNumber? cs).bind character? with
  | some c => [c]
  | none => '\\' :: 'u' :: cs

/-- What a backslash in front of a character other than `u` stands for. -/
def plain (c : Char) : Char :=
  if c = 'n' then '\n' else if c = 't' then '\t' else if c = 'r' then '\r'
  else if c = '0' then '\x00' else c

/-- What the characters between the quotes stand for. -/
def unescape : List Char → List Char
  | [] => []
  | ['\\'] => ['\\']
  | '\\' :: 'u' :: a :: b :: c :: d :: cs => numbered [a, b, c, d] ++ unescape cs
  | '\\' :: 'u' :: cs => numbered cs
  | '\\' :: c :: cs => plain c :: unescape cs
  | c :: cs => c :: unescape cs

/-- The value of a string literal written with its quotes; what is cut off at each end is one byte. -/
def value (literal : List Char) : List Char :=
  unescape ((slice literal 1 (byteLength literal - 1)).getD [])

end ScriptAnalysis.Escape

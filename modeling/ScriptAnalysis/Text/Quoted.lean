import ScriptAnalysis.Text.Printed

/-!
# Quoted text

Text between double quotes. A double quote, a backslash, tab, line feed, carriage return and the null
character have two-character escapes; every other character that is not printed is written by its
number in lower-case hexadecimal, as in `\u{200b}`.
-/

namespace ScriptAnalysis.Text

/-- The lower-case hexadecimal digits of a number, without leading zeros. -/
def hexDigits (n : Nat) : List Char := Nat.toDigits 16 n

/-- The written form of one character inside quotes. -/
def quoteChar (c : Char) : List Char :=
  if c = '\x00' then ['\\', '0']
  else if c = '\t' then ['\\', 't']
  else if c = '\r' then ['\\', 'r']
  else if c = '\n' then ['\\', 'n']
  else if c = '\\' then ['\\', '\\']
  else if c = '"' then ['\\', '"']
  else if isPrinted c then [c]
  else ['\\', 'u', '\x7b'] ++ hexDigits c.toNat ++ ['\x7d']

/-- The characters between double quotes, escaped. -/
def quote (cs : List Char) : List Char := '"' :: (cs.flatMap quoteChar ++ ['"'])

/-- The quoted form of a string. -/
def quoted (s : String) : String := String.ofList (quote s.toList)

end ScriptAnalysis.Text

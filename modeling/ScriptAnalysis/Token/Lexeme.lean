import ScriptAnalysis.Token.Kind

/-!
# Lexemes

`lexemes` cuts a text into pieces without dropping a character: runs of layout characters, comments
and tokens. Each piece is the longest that one of the rules of `scan` allows at its place:

* a name is a letter, `_` or `$` followed by letters, digits, `_` and `$`, all of them ASCII; a name
  with the spelling of a reserved word is that word;
* a number is hexadecimal, or digits with an optional fraction and an optional exponent;
* a string runs from a quote to the same quote; a backslash in it takes the next character along, and
  no line feed or carriage return stands in it except a carriage return after a backslash;
* a comment runs from two slashes to the end of the line, or from a slash and a star through the next
  star and slash, or to the end of the text when there is none.

Where no rule applies there is an unknown piece of at least one character. How many more it takes is not
for the rules to say: it is a parameter, `Recovery`.

The main lemma is `flatMap_chars_lexemes`: the pieces in order make up the text.
-/

namespace ScriptAnalysis

/-- What a piece of text is. -/
inductive LexemeClass where
  /-- A run of layout characters. -/
  | layout
  /-- A comment to the end of its line. -/
  | lineComment
  /-- A comment between delimiters, and whether the closing one is there. -/
  | blockComment (closed : Bool)
  /-- A token. -/
  | token (kind : TokenKind)
  deriving DecidableEq, Repr

/-- A piece of text and what follows it. -/
structure Lexeme where
  /-- What the piece is. -/
  cls : LexemeClass
  /-- Its characters. -/
  chars : List Char
  /-- The characters after it. -/
  rest : List Char
  deriving DecidableEq, Repr

namespace Lexeme

/-! ### Character classes -/

/-- Space, tab, carriage return, line feed, form feed and the byte order mark. -/
def isLayout (c : Char) : Bool :=
  c == ' ' || c == '\t' || c == '\r' || c == '\n' || c == '\x0c' || c == '\ufeff'

/-- An ASCII letter, `_` or `$`. -/
def isNameStart (c : Char) : Bool := c.isAlpha || c == '_' || c == '$'

/-- A character that starts a name, or an ASCII digit. -/
def isNamePart (c : Char) : Bool := isNameStart c || c.isDigit

/-- An ASCII hexadecimal digit. -/
def isHexDigit (c : Char) : Bool :=
  c.isDigit || ('a' ≤ c && c ≤ 'f') || ('A' ≤ c && c ≤ 'F')

/-! ### The parts of a number -/

/-- The characters of a hexadecimal number at the head of the text, none when there is no such
number. -/
def hexNumber : List Char → List Char
  | '0' :: x :: d :: cs =>
    if (x == 'x' || x == 'X') && isHexDigit d then '0' :: x :: d :: cs.takeWhile isHexDigit else []
  | _ => []

/-- A point and the digits after it, none unless there is a digit. -/
def fraction : List Char → List Char
  | '.' :: d :: cs => if d.isDigit then '.' :: d :: cs.takeWhile Char.isDigit else []
  | _ => []

/-- A letter `e`, an optional sign and digits, none unless there is a digit. -/
def exponent : List Char → List Char
  | e :: s :: cs =>
    if e == 'e' || e == 'E' then
      if s.isDigit then e :: s :: cs.takeWhile Char.isDigit
      else if s == '+' || s == '-' then
        match cs with
        | d :: cs => if d.isDigit then e :: s :: d :: cs.takeWhile Char.isDigit else []
        | [] => []
      else []
    else []
  | _ => []

/-- The characters of the decimal number at the head of a text that starts with a digit. -/
def decimalNumber (cs : List Char) : List Char :=
  let whole := cs.takeWhile Char.isDigit
  let afterWhole := cs.drop whole.length
  let part := fraction afterWhole
  whole ++ part ++ exponent (afterWhole.drop part.length)

/-- The characters of the number at the head of a text that starts with a digit. -/
def number (cs : List Char) : List Char :=
  match hexNumber cs with
  | [] => decimalNumber cs
  | hex => hex

/-! ### Strings and comments -/

/-- The characters of a string after its opening quote, and whether the closing quote is among
them. -/
def stringBody (q : Char) : List Char → List Char × Bool
  | [] => ([], false)
  | '\\' :: c :: cs =>
    if c = '\n' then ([], false)
    else
      let body := stringBody q cs
      ('\\' :: c :: body.1, body.2)
  | c :: cs =>
    if c = q then ([c], true)
    else if c = '\n' ∨ c = '\r' ∨ c = '\\' then ([], false)
    else
      let body := stringBody q cs
      (c :: body.1, body.2)

theorem isPrefix_stringBody (q : Char) (cs : List Char) : (stringBody q cs).1 <+: cs := by
  fun_induction stringBody q cs <;> simp_all +zetaDelta

/-- The characters of a block comment after its opening delimiter, and whether the closing one is
among them. -/
def blockBody : List Char → List Char × Bool
  | [] => ([], false)
  | '*' :: '/' :: _ => (['*', '/'], true)
  | c :: cs =>
    let body := blockBody cs
    (c :: body.1, body.2)

/-! ### Where no rule applies -/

/-- What an unknown piece takes after its first character. -/
structure Recovery where
  /-- The characters that are taken of a text after its first character. -/
  tail : Char → List Char → List Char
  /-- They are the next ones. -/
  isPrefix : ∀ c cs, tail c cs <+: cs

/-- A string that is not closed is taken as far as it could still be a string; anything else is taken as one
character. -/
def Recovery.standard : Recovery where
  tail c cs := if c = '"' ∨ c = '\'' then (stringBody c cs).1 else []
  isPrefix c cs := by
    split
    · exact isPrefix_stringBody c cs
    · exact List.nil_prefix

/-! ### One piece -/

/-- The class of the piece at the head of a text that starts with `c`, and its characters after
`c`. -/
def classify (c : Char) (cs : List Char) (recover : Recovery := .standard) : LexemeClass × List Char :=
  if isLayout c then (.layout, cs.takeWhile isLayout)
  else if isNameStart c then
    let tail := cs.takeWhile isNamePart
    (.token ((TokenKind.reservedWord? (c :: tail)).getD .identifier), tail)
  else if c.isDigit then (.token .numericLiteral, (number (c :: cs)).tail)
  else if c = '"' ∨ c = '\'' then
    let body := stringBody c cs
    if body.2 then (.token .stringLiteral, body.1) else (.token .unknown, recover.tail c cs)
  else
    match c, cs with
    | '/', '/' :: cs => (.lineComment, '/' :: cs.takeWhile (· ≠ '\n'))
    | '/', '*' :: cs =>
      let body := blockBody cs
      (.blockComment body.2, '*' :: body.1)
    | c, cs =>
      match TokenKind.punctuator? (c :: cs) with
      | some kind => (.token kind, kind.chars.tail)
      | none => (.token .unknown, recover.tail c cs)

/-- The piece at the head of a text that starts with `c`. -/
def scan (c : Char) (cs : List Char) (recover : Recovery := .standard) : Lexeme :=
  let piece := classify c cs recover
  ⟨piece.1, c :: piece.2, cs.drop piece.2.length⟩

/-- The first `n` pieces of a text. -/
def scanMany (recover : Recovery) : Nat → List Char → List Lexeme
  | 0, _ => []
  | _ + 1, [] => []
  | n + 1, c :: cs =>
    let lexeme := scan c cs recover
    lexeme :: scanMany recover n lexeme.rest

end Lexeme

/-- The pieces of a text, in order. -/
def lexemes (cs : List Char) (recover : Lexeme.Recovery := .standard) : List Lexeme :=
  Lexeme.scanMany recover cs.length cs

namespace Lexeme

/-! ### The pieces make up the text -/

theorem isPrefix_hexNumber (cs : List Char) : hexNumber cs <+: cs := by
  unfold hexNumber
  split
  · split
    · simp only [List.cons_prefix_cons, true_and]
      exact List.takeWhile_prefix _
    · exact List.nil_prefix
  · exact List.nil_prefix

theorem isPrefix_fraction (cs : List Char) : fraction cs <+: cs := by
  unfold fraction
  split
  · split
    · simp only [List.cons_prefix_cons, true_and]
      exact List.takeWhile_prefix _
    · exact List.nil_prefix
  · exact List.nil_prefix

theorem isPrefix_exponent (cs : List Char) : exponent cs <+: cs := by
  unfold exponent
  repeat' split
  all_goals first
    | exact List.nil_prefix
    | (simp only [List.cons_prefix_cons, true_and]; exact List.takeWhile_prefix _)

/-- A beginning, and then a beginning of what follows it, make a beginning. -/
theorem isPrefix_append_of_drop {a b cs : List Char} (ha : a <+: cs) (hb : b <+: cs.drop a.length) :
    a ++ b <+: cs := by
  obtain ⟨r, rfl⟩ := ha
  simpa using hb

theorem isPrefix_decimalNumber (cs : List Char) : decimalNumber cs <+: cs := by
  unfold decimalNumber
  have whole : cs.takeWhile Char.isDigit <+: cs := List.takeWhile_prefix _
  refine isPrefix_append_of_drop (isPrefix_append_of_drop whole (isPrefix_fraction _)) ?_
  simpa [List.drop_drop] using isPrefix_exponent _

theorem isPrefix_number (cs : List Char) : number cs <+: cs := by
  unfold number
  split
  · exact isPrefix_decimalNumber cs
  · exact isPrefix_hexNumber cs

theorem isPrefix_blockBody (cs : List Char) : (blockBody cs).1 <+: cs := by
  fun_induction blockBody cs <;> simp_all +zetaDelta

theorem isPrefix_tail {c : Char} {p cs : List Char} (h : p <+: c :: cs) : p.tail <+: cs := by
  cases p with
  | nil => exact List.nil_prefix
  | cons d p => exact (List.cons_prefix_cons.1 h).2

theorem isPrefix_punctuator? {cs : List Char} {kind : TokenKind}
    (h : TokenKind.punctuator? cs = some kind) : kind.chars <+: cs := by
  have := List.find?_some h
  simpa using this

variable {recover : Recovery}

/-- What a piece takes after its first character is a beginning of what follows it. -/
theorem isPrefix_classify (c : Char) (cs : List Char) : (classify c cs recover).2 <+: cs := by
  unfold classify
  split
  · exact List.takeWhile_prefix _
  split
  · exact List.takeWhile_prefix _
  split
  · exact isPrefix_tail (isPrefix_number _)
  split
  · dsimp only
    split
    · exact isPrefix_stringBody _ _
    · exact recover.isPrefix c cs
  split
  · simpa using List.takeWhile_prefix _
  · simpa using isPrefix_blockBody _
  · split
    · rename_i h
      exact isPrefix_tail (isPrefix_punctuator? h)
    · exact recover.isPrefix _ _

/-- A piece and what follows it are the text it was read from. -/
theorem chars_append_rest_scan (c : Char) (cs : List Char) :
    (scan c cs recover).chars ++ (scan c cs recover).rest = c :: cs := by
  simp [scan, List.prefix_iff_eq_append.1 (isPrefix_classify c cs)]

/-- The characters left by a piece are fewer than before it. -/
theorem length_rest_scan (c : Char) (cs : List Char) (recover : Recovery) :
    (scan c cs recover).rest.length ≤ cs.length := by
  simp [scan]

/-- Every number of pieces from the length of the text on is enough. -/
theorem scanMany_eq_lexemes (n : Nat) (cs : List Char) (h : cs.length ≤ n) :
    scanMany recover n cs = lexemes cs recover := by
  suffices H : ∀ m n : Nat, ∀ cs : List Char, cs.length ≤ m → cs.length ≤ n →
      scanMany recover m cs = scanMany recover n cs from H _ _ _ h (Nat.le_refl _)
  intro m
  induction m with
  | zero =>
    intro n cs hm _
    obtain rfl : cs = [] := List.length_eq_zero_iff.1 (by omega)
    cases n <;> rfl
  | succ m ih =>
    intro n cs hm hn
    cases cs with
    | nil => cases n <;> rfl
    | cons c cs =>
      cases n with
      | zero => simp at hn
      | succ n =>
        have := length_rest_scan c cs recover
        simp only [List.length_cons] at hm hn
        simp only [scanMany]
        rw [ih n _ (by omega) (by omega)]

end Lexeme

variable {recover : Lexeme.Recovery}

@[simp] theorem lexemes_nil : lexemes [] recover = [] := rfl

/-- The pieces of a text are its first piece and the pieces of what follows. -/
theorem lexemes_cons (c : Char) (cs : List Char) :
    lexemes (c :: cs) recover =
      Lexeme.scan c cs recover :: lexemes (Lexeme.scan c cs recover).rest recover := by
  show Lexeme.scan c cs recover :: Lexeme.scanMany recover cs.length _ = _
  rw [Lexeme.scanMany_eq_lexemes _ _ (Lexeme.length_rest_scan c cs recover)]

/-- The pieces of a text in order make up the text. -/
theorem flatMap_chars_lexemes (cs : List Char) : (lexemes cs recover).flatMap (·.chars) = cs := by
  suffices H : ∀ n : Nat, ∀ cs : List Char, cs.length ≤ n →
      (lexemes cs recover).flatMap (·.chars) = cs from H _ _ (Nat.le_refl _)
  intro n
  induction n with
  | zero =>
    intro cs h
    obtain rfl : cs = [] := List.length_eq_zero_iff.1 (by omega)
    rfl
  | succ n ih =>
    intro cs h
    cases cs with
    | nil => rfl
    | cons c cs =>
      have := Lexeme.length_rest_scan c cs recover
      simp only [List.length_cons] at h
      rw [lexemes_cons, List.flatMap_cons, ih _ (by omega), Lexeme.chars_append_rest_scan]

end ScriptAnalysis

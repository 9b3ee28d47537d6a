/-!
# Token kinds

A token is a reserved word, a name, a literal, a punctuator, a sequence of characters that is none of
these, or the end of the text. Reserved words and punctuators have a fixed spelling. Words such as
`type` or `number` that mean something only in some places are names.
-/

namespace ScriptAnalysis

/-- What a token is. -/
inductive TokenKind where
  /-- `const`. -/
  | constWord
  /-- `else`. -/
  | elseWord
  /-- `false`. -/
  | falseWord
  /-- `function`. -/
  | functionWord
  /-- `if`. -/
  | ifWord
  /-- `let`. -/
  | letWord
  /-- `null`. -/
  | nullWord
  /-- `return`. -/
  | returnWord
  /-- `true`. -/
  | trueWord
  /-- `typeof`. -/
  | typeofWord
  /-- `var`. -/
  | varWord
  /-- `while`. -/
  | whileWord
  /-- A name that is not a reserved word. -/
  | identifier
  /-- A decimal or hexadecimal number. -/
  | numericLiteral
  /-- A string between single or double quotes. -/
  | stringLiteral
  /-- `(`. -/
  | leftParen
  /-- `)`. -/
  | rightParen
  /-- An opening brace. -/
  | leftBrace
  /-- A closing brace. -/
  | rightBrace
  /-- `[`. -/
  | leftBracket
  /-- `]`. -/
  | rightBracket
  /-- `;`. -/
  | semicolon
  /-- `,`. -/
  | comma
  /-- `:`. -/
  | colon
  /-- `.`. -/
  | dot
  /-- `?`. -/
  | question
  /-- `=>`. -/
  | arrow
  /-- `=`. -/
  | equals
  /-- `==`. -/
  | equalsEquals
  /-- `===`. -/
  | equalsEqualsEquals
  /-- `!=`. -/
  | bangEquals
  /-- `!==`. -/
  | bangEqualsEquals
  /-- `<`. -/
  | less
  /-- `>`. -/
  | greater
  /-- `<=`. -/
  | lessEquals
  /-- `>=`. -/
  | greaterEquals
  /-- `+`. -/
  | plus
  /-- `-`. -/
  | minus
  /-- `*`. -/
  | star
  /-- `/`. -/
  | slash
  /-- `%`. -/
  | percent
  /-- `!`. -/
  | bang
  /-- `&&`. -/
  | ampAmp
  /-- `||`. -/
  | barBar
  /-- `|`. -/
  | bar
  /-- `+=`. -/
  | plusEquals
  /-- `-=`. -/
  | minusEquals
  /-- Characters that belong to no other kind. -/
  | unknown
  /-- The end of the text. -/
  | endOfFile
  deriving DecidableEq, Repr, Inhabited

namespace TokenKind

/-- The reserved words. -/
def reservedWords : List TokenKind :=
  [constWord, elseWord, falseWord, functionWord, ifWord, letWord, nullWord, returnWord, trueWord,
    typeofWord, varWord, whileWord]

/-- The punctuators, longer ones first, so that the first that fits is the longest that fits. -/
def punctuators : List TokenKind :=
  [equalsEqualsEquals, bangEqualsEquals,
    arrow, equalsEquals, bangEquals, lessEquals, greaterEquals, ampAmp, barBar, plusEquals,
    minusEquals,
    leftParen, rightParen, leftBrace, rightBrace, leftBracket, rightBracket, semicolon, comma, colon,
    dot, question, equals, less, greater, plus, minus, star, slash, percent, bang, bar]

/-- The one spelling of a reserved word or punctuator. -/
def spelling? : TokenKind → Option String
  | constWord => some "const"
  | elseWord => some "else"
  | falseWord => some "false"
  | functionWord => some "function"
  | ifWord => some "if"
  | letWord => some "let"
  | nullWord => some "null"
  | returnWord => some "return"
  | trueWord => some "true"
  | typeofWord => some "typeof"
  | varWord => some "var"
  | whileWord => some "while"
  | leftParen => some "("
  | rightParen => some ")"
  | leftBrace => some "\x7b"
  | rightBrace => some "\x7d"
  | leftBracket => some "["
  | rightBracket => some "]"
  | semicolon => some ";"
  | comma => some ","
  | colon => some ":"
  | dot => some "."
  | question => some "?"
  | arrow => some "=>"
  | equals => some "="
  | equalsEquals => some "=="
  | equalsEqualsEquals => some "==="
  | bangEquals => some "!="
  | bangEqualsEquals => some "!=="
  | less => some "<"
  | greater => some ">"
  | lessEquals => some "<="
  | greaterEquals => some ">="
  | plus => some "+"
  | minus => some "-"
  | star => some "*"
  | slash => some "/"
  | percent => some "%"
  | bang => some "!"
  | ampAmp => some "&&"
  | barBar => some "||"
  | bar => some "|"
  | plusEquals => some "+="
  | minusEquals => some "-="
  | identifier | numericLiteral | stringLiteral | unknown | endOfFile => none

/-- The characters of the spelling; none for a kind without one. -/
def chars (k : TokenKind) : List Char := (k.spelling?.getD "").toList

/-- Whether the kind is a reserved word. -/
def isReservedWord (k : TokenKind) : Bool := reservedWords.contains k

/-- Whether the kind is a punctuator. -/
def isPunctuator (k : TokenKind) : Bool := punctuators.contains k

/-- The reserved word that is spelled so. -/
def reservedWord? (word : List Char) : Option TokenKind := reservedWords.find? (·.chars == word)

/-- The longest punctuator that the text begins with. -/
def punctuator? (cs : List Char) : Option TokenKind := punctuators.find? (·.chars.isPrefixOf cs)

/-- A kind has a spelling exactly when it is a reserved word or a punctuator. -/
theorem isSome_spelling?_iff (k : TokenKind) :
    k.spelling?.isSome = true ↔ k.isReservedWord = true ∨ k.isPunctuator = true := by
  cases k <;> decide

/-- No kind is both a reserved word and a punctuator. -/
theorem not_isReservedWord_of_isPunctuator (k : TokenKind) (h : k.isPunctuator = true) :
    k.isReservedWord = false := by
  revert h; cases k <;> decide

end TokenKind

end ScriptAnalysis

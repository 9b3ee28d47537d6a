import ScriptAnalysis.Text.Span
import ScriptAnalysis.Token.Kind

/-!
# Syntax errors

What can be wrong with a text, each with the number and the sentence that report it.
-/

namespace ScriptAnalysis.Syntax

/-- What is wrong. -/
inductive ErrorCause where
  /-- A token of this kind has to stand here. -/
  | expected (kind : TokenKind)
  /-- A name has to stand here. -/
  | identifierExpected
  /-- A block comment is not closed. -/
  | commentEndExpected
  /-- A character that starts no token. -/
  | invalidCharacter
  /-- A statement has to stand here. -/
  | statementExpected
  /-- An expression has to stand here. -/
  | expressionExpected
  /-- A type has to stand here. -/
  | typeExpected
  /-- A variable has to be declared here. -/
  | variableExpected
  /-- A constant is declared without a value. -/
  | constWithoutValue
  /-- The left-hand side of an assignment is neither a name nor a property access. -/
  | invalidTarget
  deriving DecidableEq, Repr

namespace ErrorCause

/-- The number that reports the cause. -/
def code : ErrorCause → Nat
  | expected _ => 1005
  | identifierExpected => 1003
  | commentEndExpected => 1010
  | invalidCharacter => 1127
  | statementExpected => 1128
  | expressionExpected => 1109
  | typeExpected => 1110
  | variableExpected => 1134
  | constWithoutValue => 1155
  | invalidTarget => 2364

/-- The sentence that reports the cause. -/
def message : ErrorCause → String
  | expected kind => "'" ++ kind.spelling?.getD "token" ++ "' expected."
  | identifierExpected => "Identifier expected."
  | commentEndExpected => "'*/' expected."
  | invalidCharacter => "Invalid character."
  | statementExpected => "Declaration or statement expected."
  | expressionExpected => "Expression expected."
  | typeExpected => "Type expected."
  | variableExpected => "Variable declaration expected."
  | constWithoutValue => "'const' declarations must be initialized."
  | invalidTarget =>
    "The left-hand side of an assignment expression must be a variable or a property access."

end ErrorCause

/-- Something wrong at a place in the text. -/
structure Error where
  /-- What is wrong. -/
  cause : ErrorCause
  /-- Where it is wrong. -/
  span : Span
  deriving DecidableEq, Repr

end ScriptAnalysis.Syntax

import ScriptAnalysis.Token.Kind

/-!
# Words and operators of the syntax

The words that declare variables, the operators with their spellings and precedences, and the words
that name built-in types.
-/

namespace ScriptAnalysis.Syntax

/-- How variables are declared. -/
inductive VariableKind where
  /-- `var`. -/
  | var
  /-- `let`. -/
  | letKind
  /-- `const`. -/
  | const
  deriving DecidableEq, Repr

namespace VariableKind

/-- The word that declares. -/
def spelling : VariableKind → String
  | var => "var"
  | letKind => "let"
  | const => "const"

/-- Whether the variables belong to the enclosing block and not to the enclosing function. -/
def isBlockScoped : VariableKind → Bool
  | var => false
  | letKind | const => true

end VariableKind

/-- Operators between two operands. -/
inductive BinaryOperator where
  /-- `+`. -/
  | plus
  /-- `-`. -/
  | minus
  /-- `*`. -/
  | times
  /-- `/`. -/
  | divide
  /-- `%`. -/
  | remainder
  /-- `<`. -/
  | less
  /-- `>`. -/
  | greater
  /-- `<=`. -/
  | lessEquals
  /-- `>=`. -/
  | greaterEquals
  /-- `==`. -/
  | equalTo
  /-- `!=`. -/
  | notEqualTo
  /-- `===`. -/
  | identicalTo
  /-- `!==`. -/
  | notIdenticalTo
  /-- `&&`. -/
  | and
  /-- `||`. -/
  | or
  /-- `=`. -/
  | assign
  /-- `+=`. -/
  | plusAssign
  /-- `-=`. -/
  | minusAssign
  deriving DecidableEq, Repr

namespace BinaryOperator

/-- The token that writes the operator. -/
def token : BinaryOperator → TokenKind
  | plus => .plus
  | minus => .minus
  | times => .star
  | divide => .slash
  | remainder => .percent
  | less => .less
  | greater => .greater
  | lessEquals => .lessEquals
  | greaterEquals => .greaterEquals
  | equalTo => .equalsEquals
  | notEqualTo => .bangEquals
  | identicalTo => .equalsEqualsEquals
  | notIdenticalTo => .bangEqualsEquals
  | and => .ampAmp
  | or => .barBar
  | assign => .equals
  | plusAssign => .plusEquals
  | minusAssign => .minusEquals

/-- The spelling of the operator. -/
def spelling (op : BinaryOperator) : String := op.token.spelling?.getD ""

/-- Whether the operator gives a variable a value. -/
def isAssignment : BinaryOperator → Bool
  | assign | plusAssign | minusAssign => true
  | _ => false

/-- Whether the operator may leave its second operand alone. -/
def isLogical : BinaryOperator → Bool
  | and | or => true
  | _ => false

/-- Whether the operator compares its operands. -/
def isComparison : BinaryOperator → Bool
  | less | greater | lessEquals | greaterEquals | equalTo | notEqualTo | identicalTo
  | notIdenticalTo => true
  | _ => false

/-- How tightly the operator holds its operands; assignments hold least. -/
def precedence : BinaryOperator → Nat
  | assign | plusAssign | minusAssign => 0
  | or => 1
  | and => 2
  | equalTo | notEqualTo | identicalTo | notIdenticalTo => 3
  | less | greater | lessEquals | greaterEquals => 4
  | plus | minus => 5
  | times | divide | remainder => 6

/-- The operator other than an assignment that a token writes. -/
def ofToken? : TokenKind → Option BinaryOperator
  | .barBar => some or
  | .ampAmp => some and
  | .equalsEquals => some equalTo
  | .bangEquals => some notEqualTo
  | .equalsEqualsEquals => some identicalTo
  | .bangEqualsEquals => some notIdenticalTo
  | .less => some less
  | .greater => some greater
  | .lessEquals => some lessEquals
  | .greaterEquals => some greaterEquals
  | .plus => some plus
  | .minus => some minus
  | .star => some times
  | .slash => some divide
  | .percent => some remainder
  | _ => none

/-- The assignment that a token writes. -/
def assignmentOfToken? : TokenKind → Option BinaryOperator
  | .equals => some assign
  | .plusEquals => some plusAssign
  | .minusEquals => some minusAssign
  | _ => none

/-- A token writes an operator other than an assignment exactly when it is that operator's token. -/
theorem ofToken?_eq_some_iff (k : TokenKind) (op : BinaryOperator) :
    ofToken? k = some op ↔ k = op.token ∧ op.isAssignment = false := by
  cases op <;> cases k <;> decide

/-- A token writes an assignment exactly when it is that assignment's token. -/
theorem assignmentOfToken?_eq_some_iff (k : TokenKind) (op : BinaryOperator) :
    assignmentOfToken? k = some op ↔ k = op.token ∧ op.isAssignment = true := by
  cases op <;> cases k <;> decide

end BinaryOperator

/-- Operators in front of one operand. -/
inductive PrefixOperator where
  /-- `!`. -/
  | not
  /-- `-`. -/
  | minus
  /-- `+`. -/
  | plus
  /-- `typeof`. -/
  | typeof
  deriving DecidableEq, Repr

namespace PrefixOperator

/-- The token that writes the operator. -/
def token : PrefixOperator → TokenKind
  | not => .bang
  | minus => .minus
  | plus => .plus
  | typeof => .typeofWord

/-- The spelling of the operator. -/
def spelling (op : PrefixOperator) : String := op.token.spelling?.getD ""

/-- The operator that a token writes. -/
def ofToken? : TokenKind → Option PrefixOperator
  | .bang => some not
  | .minus => some minus
  | .plus => some plus
  | .typeofWord => some typeof
  | _ => none

end PrefixOperator

/-- The built-in types that a word names. -/
inductive KeywordType where
  /-- `number`. -/
  | number
  /-- `string`. -/
  | string
  /-- `boolean`. -/
  | boolean
  /-- `void`. -/
  | void
  /-- `any`. -/
  | any
  /-- `unknown`. -/
  | unknown
  /-- `never`. -/
  | never
  /-- `null`. -/
  | null
  /-- `undefined`. -/
  | undefined
  deriving DecidableEq, Repr

namespace KeywordType

/-- All built-in types. -/
def all : List KeywordType :=
  [number, string, boolean, void, any, unknown, never, null, undefined]

/-- The word that names the type. -/
def spelling : KeywordType → String
  | number => "number"
  | string => "string"
  | boolean => "boolean"
  | void => "void"
  | any => "any"
  | unknown => "unknown"
  | never => "never"
  | null => "null"
  | undefined => "undefined"

/-- The type that a word names. -/
def ofName? (name : String) : Option KeywordType := all.find? (·.spelling == name)

/-- A word names a type exactly when it is that type's word. -/
theorem ofName?_eq_some_iff (name : String) (k : KeywordType) :
    ofName? name = some k ↔ name = k.spelling := by
  constructor
  · intro h
    have := List.find?_some h
    exact (beq_iff_eq.1 this).symm
  · rintro rfl
    cases k <;> decide

end KeywordType

end ScriptAnalysis.Syntax

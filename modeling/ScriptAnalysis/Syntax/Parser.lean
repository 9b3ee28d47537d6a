import ScriptAnalysis.Syntax.Error
import ScriptAnalysis.Syntax.Node
import ScriptAnalysis.Token.Escape
import ScriptAnalysis.Token.Stream

/-!
# Reading a tree from tokens

Reading never fails: what is wrong becomes an error, and a name, expression or type that is missing
becomes an empty name, so there is always a tree. The tokens alone decide the tree; the text is not
looked at.

Nested statements and expressions are read by `statement` and `expression`. Their first argument
bounds the depth; a nested reader is entered only after a token has been consumed, or by a statement
that is an expression, so twice the number of tokens left is enough. The loops over lists, operators
and suffixes consume a token each time round, so the number of tokens left bounds them.
-/

namespace ScriptAnalysis.Syntax.Parser

open BinaryOperator (ofToken? assignmentOfToken?)

/-! ### The state of reading -/

/-- Where reading has got to. -/
structure State where
  /-- The tokens left before the end of the text. -/
  rest : List Token
  /-- The end of the text. -/
  ending : Token
  /-- Where the last consumed token stops. -/
  lastEnd : Nat
  /-- The errors found, last first. -/
  errors : List Error

/-- A reader. -/
abbrev Parse := StateM State

/-- A reader of a node. -/
abbrev NodeParse := Parse (Node Span)

namespace State

/-- The token `n` places ahead; past the last token there is only the end of the text. -/
def peek (s : State) (n : Nat) : Token := s.rest.getD n s.ending

/-- The next token. -/
def current (s : State) : Token := s.peek 0

/-- The state after the next token; the end of the text is never passed. -/
def advanced (s : State) : State :=
  match s.rest with
  | [] => s
  | token :: rest => { s with rest, lastEnd := token.span.stop }

/-- The state with an error found. Where the last error starts at the same place the new one is
dropped, so that one mistake is reported once. -/
def reported (s : State) (cause : ErrorCause) (span : Span) : State :=
  match s.errors with
  | last :: _ => if last.span.start = span.start then s else { s with errors := ⟨cause, span⟩ :: s.errors }
  | [] => { s with errors := [⟨cause, span⟩] }

/-- Whether the tokens close the parentheses that are open and then go on with an arrow or a colon. -/
def closesBeforeArrow (depth : Nat) : List Token → Bool
  | [] => false
  | token :: tokens =>
    match token.kind, depth with
    | .leftParen, _ => closesBeforeArrow (depth + 1) tokens
    | .rightParen, 0 => false
    | .rightParen, 1 =>
      match tokens with
      | [] => false
      | next :: _ => next.kind == .arrow || next.kind == .colon
    | .rightParen, depth + 2 => closesBeforeArrow (depth + 1) tokens
    | _, _ => closesBeforeArrow depth tokens

/-- Whether a function without a name starts here: a name and an arrow, or parentheses with an arrow
or a colon after them. -/
def startsArrowFunction (s : State) : Bool :=
  match s.current.kind with
  | .identifier => (s.peek 1).kind == .arrow
  | .leftParen => closesBeforeArrow 0 s.rest
  | _ => false

/-- Whether a name for a type is declared here: the word `type` and a name on the same line. -/
def startsTypeAlias (s : State) : Bool :=
  s.current.kind == .identifier && s.current.text == "type" &&
    (s.peek 1).kind == .identifier && !(s.peek 1).afterLineBreak

/-- Whether a statement may end here without a semicolon. -/
def endsStatement (s : State) : Bool :=
  s.current.kind == .rightBrace || s.current.kind == .endOfFile || s.current.afterLineBreak

end State

/-- Whether a token can start an expression. -/
def startsExpression : TokenKind → Bool
  | .identifier | .numericLiteral | .stringLiteral | .trueWord | .falseWord | .nullWord | .leftParen
  | .leftBracket | .bang | .minus | .plus | .typeofWord => true
  | _ => false

/-! ### Steps -/

/-- The next token. -/
def current : Parse Token := return (← get).current

/-- Whether the next token is of a kind. -/
def isAt (kind : TokenKind) : Parse Bool := return (← get).current.kind == kind

/-- How many tokens are left. -/
def remaining : Parse Nat := return (← get).rest.length

/-- Consumes the next token. -/
def advance : Parse Token := modifyGet fun s => (s.current, s.advanced)

/-- Consumes the next token if it is of a kind. -/
def eat (kind : TokenKind) : Parse Bool := do
  if ← isAt kind then
    let _ ← advance
    pure true
  else
    pure false

/-- Reports an error at a place. -/
def report (cause : ErrorCause) (span : Span) : Parse Unit := modify (·.reported cause span)

/-- Reports an error at the next token. -/
def reportHere (cause : ErrorCause) : Parse Unit := do report cause (← current).span

/-- Consumes a token that has to stand here, or reports that it does not. -/
def expect (kind : TokenKind) : Parse Bool := do
  if ← eat kind then
    pure true
  else
    reportHere (.expected kind)
    pure false

/-- A node that runs from `start` to the last consumed token. -/
def finish (start : Nat) (kind : Kind (Ident Span) (Node Span)) : NodeParse :=
  return .mk ⟨start, max (← get).lastEnd start⟩ kind

/-- The empty name that stands where a name is missing. -/
def missingName : Parse (Ident Span) := return ⟨.point (← current).span.start, ""⟩

/-- The empty name as an expression. -/
def missingExpression : NodeParse := return (← missingName).toNode

/-- A name that is declared. -/
def declaredName (cause : ErrorCause) : Parse (Ident Span) := do
  if ← isAt .identifier then
    let token ← advance
    pure ⟨token.span, token.text⟩
  else
    reportHere cause
    missingName

/-- The name of a member; reserved words are allowed. -/
def memberName : Parse (Ident Span) := do
  let token ← current
  if token.kind == .identifier || token.kind.isReservedWord then
    let _ ← advance
    pure ⟨token.span, token.text⟩
  else
    reportHere .identifierExpected
    missingName

/-- The end of a statement: a semicolon, unless the statement may end without one. -/
def semicolon : Parse Unit := do
  if ← eat .semicolon then
    pure ()
  else if (← get).endsStatement then
    pure ()
  else
    reportHere (.expected .semicolon)

/-- Items with commas between them, up to a closing token; a comma may follow the last. -/
def items (item : NodeParse) (close : TokenKind) : Nat → Parse (List (Node Span))
  | 0 => pure []
  | n + 1 => do
    if (← isAt close) || (← isAt .endOfFile) then
      pure []
    else
      let first ← item
      if ← eat .comma then
        return first :: (← items item close n)
      else
        pure [first]

/-! ### Types -/

/-- A type followed by pairs of brackets. -/
def brackets (start : Nat) : Nat → Node Span → NodeParse
  | 0, type => pure type
  | n + 1, type => do
    if (← isAt .leftBracket) && ((← get).peek 1).kind == .rightBracket then
      let _ ← advance
      let _ ← advance
      brackets start n (← finish start (.arrayType type))
    else
      pure type

/-- A type that is a word, a name or a type in parentheses. -/
def primaryType (type : NodeParse) : NodeParse := do
  let token ← current
  match token.kind with
  | .identifier =>
    let _ ← advance
    match KeywordType.ofName? token.text with
    | some keyword => pure (.mk token.span (.keywordType keyword))
    | none => pure (.mk token.span (.typeReference ⟨token.span, token.text⟩))
  | .nullWord =>
    let _ ← advance
    pure (.mk token.span (.keywordType .null))
  | .leftParen =>
    let _ ← advance
    let inner ← type
    let _ ← expect .rightParen
    pure inner
  | _ =>
    reportHere .typeExpected
    let name ← missingName
    pure (.mk name.label (.typeReference name))

/-- A type with its brackets. -/
def arrayType (type : NodeParse) : NodeParse := do
  let start := (← current).span.start
  let first ← primaryType type
  brackets start (← remaining) first

/-- The further members of a union. -/
def moreMembers (member : NodeParse) : Nat → Parse (List (Node Span))
  | 0 => pure []
  | n + 1 => do
    if ← eat .bar then
      let first ← member
      return first :: (← moreMembers member n)
    else
      pure []

/-- A type, nested in parentheses at most so often. -/
def typeWithin : Nat → NodeParse
  | 0 => missingExpression
  | n + 1 => do
    let start := (← current).span.start
    let first ← arrayType (typeWithin n)
    match ← moreMembers (arrayType (typeWithin n)) (← remaining) with
    | [] => pure first
    | second :: more => finish start (.unionType (first :: second :: more))

/-- A type. -/
def type : NodeParse := do typeWithin ((← remaining) + 1)

/-- A colon and a type, or nothing. -/
def typeAnnotation : Parse (Option (Node Span)) := do
  if ← eat .colon then
    return some (← type)
  else
    pure none

/-! ### Expressions -/

/-- An equals sign and a value, or nothing. -/
def initializer (expr : NodeParse) : Parse (Option (Node Span)) := do
  if ← eat .equals then
    return some (← expr)
  else
    pure none

/-- A parameter. -/
def parameter (expr : NodeParse) : NodeParse := do
  let start := (← current).span.start
  let name ← declaredName .identifierExpected
  let type? ← typeAnnotation
  let init? ← initializer expr
  finish start (.parameter name type? init?)

/-- Parameters in parentheses; none when there is no opening one. -/
def parameters (expr : NodeParse) : Parse (List (Node Span)) := do
  if ← expect .leftParen then
    let params ← items (parameter expr) .rightParen ((← remaining) + 1)
    let _ ← expect .rightParen
    pure params
  else
    pure []

/-- Statements up to a closing token. -/
def statements (statement : Parse (Option (Node Span))) (close : TokenKind) :
    Nat → Parse (List (Node Span))
  | 0 => pure []
  | n + 1 => do
    if (← isAt close) || (← isAt .endOfFile) then
      pure []
    else
      let before ← remaining
      let first? ← statement
      if (← remaining) == before then
        let _ ← advance
      let more ← statements statement close n
      pure (first?.toList ++ more)

/-- Statements between braces. -/
def block (statement : Parse (Option (Node Span))) : NodeParse := do
  let start := (← current).span.start
  let _ ← expect .leftBrace
  let body ← statements statement .rightBrace ((← remaining) + 1)
  let _ ← expect .rightBrace
  finish start (.block body)

/-- A function without a name. -/
def arrowFunction (statement : Parse (Option (Node Span))) (expr : NodeParse) : NodeParse := do
  let start := (← current).span.start
  let params ← do
    if ← isAt .identifier then
      let name ← declaredName .identifierExpected
      pure [.mk name.label (.parameter name none none)]
    else
      parameters expr
  let returnType? ← typeAnnotation
  let _ ← expect .arrow
  let body ← do
    if ← isAt .leftBrace then
      block statement
    else
      expr
  finish start (.arrowFunction params returnType? body)

/-- Arguments in parentheses. -/
def arguments (expr : NodeParse) : Parse (List (Node Span)) := do
  let _ ← expect .leftParen
  let args ← items expr .rightParen ((← remaining) + 1)
  let _ ← expect .rightParen
  pure args

/-- An expression without operators, member names and arguments. -/
def primary (expr : NodeParse) : NodeParse := do
  let token ← current
  let leaf (kind : Kind (Ident Span) (Node Span)) : NodeParse := do
    let _ ← advance
    pure (.mk token.span kind)
  match token.kind with
  | .identifier => leaf (.identifier token.text)
  | .numericLiteral => leaf (.numericLiteral token.text)
  | .stringLiteral => leaf (.stringLiteral (String.ofList (Escape.value token.text.toList)))
  | .trueWord => leaf .trueLiteral
  | .falseWord => leaf .falseLiteral
  | .nullWord => leaf .nullLiteral
  | .leftParen =>
    let _ ← advance
    let inner ← expr
    let _ ← expect .rightParen
    finish token.span.start (.parenthesized inner)
  | .leftBracket =>
    let _ ← advance
    let elements ← items expr .rightBracket ((← remaining) + 1)
    let _ ← expect .rightBracket
    finish token.span.start (.arrayLiteral elements)
  | .unknown =>
    reportHere .invalidCharacter
    let _ ← advance
    missingExpression
  | _ =>
    reportHere .expressionExpected
    missingExpression

/-- An expression followed by member names and arguments. -/
def suffixes (expr : NodeParse) (start : Nat) : Nat → Node Span → NodeParse
  | 0, e => pure e
  | n + 1, e => do
    match (← current).kind with
    | .dot =>
      let _ ← advance
      let name ← memberName
      suffixes expr start n (← finish start (.propertyAccess e name))
    | .leftParen =>
      let args ← arguments expr
      suffixes expr start n (← finish start (.call e args))
    | _ => pure e

/-- An expression without operators. -/
def operand (expr : NodeParse) : NodeParse := do
  let start := (← current).span.start
  let first ← primary expr
  suffixes expr start (← remaining) first

/-- An expression with operators in front only. -/
def unary (expr : NodeParse) : Nat → NodeParse
  | 0 => operand expr
  | n + 1 => do
    let token ← current
    match PrefixOperator.ofToken? token.kind with
    | some op =>
      let _ ← advance
      let inner ← unary expr n
      finish token.span.start (.prefixUnary op inner)
    | none => operand expr

/-- The operators after `left` that hold tighter than `least`, with their right operands. -/
def operators (expr : NodeParse) : Nat → Nat → Node Span → NodeParse
  | 0, _, left => pure left
  | n + 1, least, left => do
    match ofToken? (← current).kind with
    | some op =>
      if op.precedence ≤ least then
        pure left
      else
        let _ ← advance
        let first ← unary expr (← remaining)
        let right ← operators expr n op.precedence first
        operators expr n least (← finish left.label.start (.binary op left right))
    | none => pure left

/-- Whether a value can be assigned to the node. -/
def isTarget (n : Node Span) : Bool :=
  match n.kind with
  | .identifier _ | .propertyAccess .. => true
  | _ => false

/-- An assignment, a function without a name, or an expression that holds tighter. -/
def assignment (statement : Parse (Option (Node Span))) (expr : NodeParse) : NodeParse := do
  if (← get).startsArrowFunction then
    arrowFunction statement expr
  else
    let first ← unary expr (← remaining)
    let left ← operators expr (← remaining) 0 first
    match assignmentOfToken? (← current).kind with
    | some op =>
      if !isTarget left then
        report .invalidTarget left.label
      let _ ← advance
      let right ← expr
      finish left.label.start (.binary op left right)
    | none => pure left

/-! ### Statements -/

/-- A declared variable; a constant needs a value. -/
def variableDeclaration (expr : NodeParse) (keyword : VariableKind) : NodeParse := do
  let start := (← current).span.start
  let name ← declaredName .variableExpected
  let type? ← typeAnnotation
  let init? ← initializer expr
  if keyword == .const && init?.isNone then
    report .constWithoutValue name.label
  finish start (.variableDeclaration name type? init?)

/-- Declared variables with commas between them. -/
def variableDeclarations (declaration : NodeParse) : Nat → Parse (List (Node Span))
  | 0 => return [← declaration]
  | n + 1 => do
    let first ← declaration
    if ← eat .comma then
      return first :: (← variableDeclarations declaration n)
    else
      pure [first]

/-- A statement that declares variables. -/
def variableStatement (expr : NodeParse) (keyword : VariableKind) : NodeParse := do
  let start := (← advance).span.start
  let declarations ← variableDeclarations (variableDeclaration expr keyword) (← remaining)
  semicolon
  finish start (.variableStatement keyword declarations)

/-- A declared function; an empty block stands for a body that is missing. -/
def functionDeclaration (statement : Parse (Option (Node Span))) (expr : NodeParse) :
    NodeParse := do
  let start := (← advance).span.start
  let name ← declaredName .identifierExpected
  let params ← parameters expr
  let returnType? ← typeAnnotation
  let body ← do
    if ← isAt .leftBrace then
      block statement
    else
      reportHere (.expected .leftBrace)
      pure (.mk (.point (← get).lastEnd) (.block []))
  finish start (.functionDeclaration name params returnType? body)

/-- A name for a type. -/
def typeAlias : NodeParse := do
  let start := (← advance).span.start
  let name ← declaredName .identifierExpected
  let _ ← expect .equals
  let aliased ← type
  semicolon
  finish start (.typeAlias name aliased)

/-- A statement where one is needed; an empty statement stands for one that is missing. -/
def embedded (statement : Parse (Option (Node Span))) : NodeParse := do
  match ← statement with
  | some s => pure s
  | none => pure (.mk (.point (← get).lastEnd) .emptyStatement)

/-- A condition in parentheses. -/
def condition (expr : NodeParse) : NodeParse := do
  let _ ← expect .leftParen
  let cond ← expr
  let _ ← expect .rightParen
  pure cond

/-- A choice. -/
def ifStatement (statement : Parse (Option (Node Span))) (expr : NodeParse) : NodeParse := do
  let start := (← advance).span.start
  let cond ← condition expr
  let thenBranch ← embedded statement
  let elseBranch? ← do
    if ← eat .elseWord then
      some <$> embedded statement
    else
      pure none
  finish start (.ifStatement cond thenBranch elseBranch?)

/-- A loop. -/
def whileStatement (statement : Parse (Option (Node Span))) (expr : NodeParse) : NodeParse := do
  let start := (← advance).span.start
  let cond ← condition expr
  let body ← embedded statement
  finish start (.whileStatement cond body)

/-- A return; its value stands on the same line. -/
def returnStatement (expr : NodeParse) : NodeParse := do
  let start := (← advance).span.start
  let s ← get
  let expr? ← do
    if s.current.kind == .semicolon || s.endsStatement then
      pure none
    else
      some <$> expr
  semicolon
  finish start (.returnStatement expr?)

/-- A statement that is an expression. -/
def expressionStatement (expr : NodeParse) : NodeParse := do
  let start := (← current).span.start
  let e ← expr
  semicolon
  finish start (.expressionStatement e)

/-- A statement; nothing where a token can start none, and then the token is consumed. -/
def anyStatement (statement : Parse (Option (Node Span))) (expr : NodeParse) :
    Parse (Option (Node Span)) := do
  let s ← get
  match s.current.kind with
  | .leftBrace => some <$> block statement
  | .varWord => some <$> variableStatement expr .var
  | .letWord => some <$> variableStatement expr .letKind
  | .constWord => some <$> variableStatement expr .const
  | .functionWord => some <$> functionDeclaration statement expr
  | .ifWord => some <$> ifStatement statement expr
  | .whileWord => some <$> whileStatement statement expr
  | .returnWord => some <$> returnStatement expr
  | .semicolon =>
    let start := (← advance).span.start
    some <$> finish start .emptyStatement
  | .unknown =>
    reportHere .invalidCharacter
    let _ ← advance
    pure none
  | kind =>
    if s.startsTypeAlias then
      some <$> typeAlias
    else if startsExpression kind then
      some <$> expressionStatement expr
    else
      reportHere .statementExpected
      let _ ← advance
      pure none

mutual

/-- A statement, nested at most so deep. -/
def statement : Nat → Parse (Option (Node Span))
  | 0 => pure none
  | n + 1 => anyStatement (statement n) (expression n)

/-- An expression, nested at most so deep. -/
def expression : Nat → NodeParse
  | 0 => missingExpression
  | n + 1 => assignment (statement n) (expression n)

end

/-- A whole text. -/
def sourceFile : Parse (List (Node Span)) := do
  let left ← remaining
  statements (statement (2 * left + 2)) .endOfFile (left + 1)

end Parser

/-- The tree of the tokens, and what is wrong in the order it was found. -/
def parseTokens (stream : TokenStream) : Node Span × List Error :=
  let (body, s) := Parser.sourceFile.run ⟨stream.tokens, stream.ending, 0, []⟩
  (.mk ⟨0, stream.ending.span.stop⟩ (.sourceFile body), s.errors.reverse)

end ScriptAnalysis.Syntax

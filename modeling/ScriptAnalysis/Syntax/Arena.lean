import ScriptAnalysis.Syntax.Tree

/-!
# Reading into an arena

The nodes of a tree can be kept in one list while they are read. A node is put behind the nodes that are
there, its place is its number, and the numbers of its children stand in its kind; when it is put, it becomes
the parent of its children. The readers here are those of `Syntax/Parser` that return nodes, with the number
of a node in the place of the node; what only looks at tokens or consumes them is shared.
-/

namespace ScriptAnalysis.Syntax

/-- A node in an arena. -/
structure Cell where
  /-- What the node is, with the numbers of its children. -/
  kind : Kind NodeId NodeId
  /-- What it covers. -/
  span : Span
  /-- The number of its parent, once the parent is there. -/
  parent? : Option NodeId

/-- The nodes that have been read; the number of a node is its place. -/
abbrev Arena := List Cell

namespace Arena

/-- The arena with one node as the parent of another. -/
def adopt (parent : NodeId) (arena : Arena) (child : NodeId) : Arena :=
  arena.modify child fun cell => { cell with parent? := some parent }

/-- The arena with one more node, which becomes the parent of its children. -/
def put (arena : Arena) (kind : Kind NodeId NodeId) (span : Span) : Arena :=
  kind.children.foldl (adopt arena.length) arena ++ [⟨kind, span, none⟩]

/-- What a node covers. -/
def spanOf (arena : Arena) (id : NodeId) : Span := arena[id]?.elim (.point 0) Cell.span

/-- Whether a value can be assigned to a node. -/
def isTarget (arena : Arena) (id : NodeId) : Bool :=
  match arena[id]?.map Cell.kind with
  | some (.identifier _) | some (.propertyAccess ..) => true
  | _ => false

end Arena

namespace Builder

open Arena (isTarget)
open BinaryOperator (ofToken? assignmentOfToken?)
open ScriptAnalysis.Syntax.Parser (Parse State current isAt remaining advance eat report reportHere expect semicolon
  startsExpression)

/-- A reader that keeps nodes in an arena. -/
abbrev Build := StateT Arena Parse

/-- A reader of a node. -/
abbrev NodeBuild := Build NodeId

/-! ### Steps -/

/-- Where reading has got to. -/
def look : Parse State := get

/-- Puts a node into the arena. -/
def alloc (kind : Kind NodeId NodeId) (span : Span) : NodeBuild :=
  modifyGet fun arena => (arena.length, arena.put kind span)

/-- What a node in the arena covers. -/
def spanOf (id : NodeId) : Build Span := return (← get).spanOf id

/-- A node that runs from `start` to the last consumed token. -/
def finish (start : Nat) (kind : Kind NodeId NodeId) : NodeBuild := do
  alloc kind ⟨start, max (← look).lastEnd start⟩

/-- The empty name that stands where a name is missing. -/
def missingName : NodeBuild := do
  alloc (.identifier "") (.point (← current).span.start)

/-- The name that a token is. -/
def name (token : Token) : NodeBuild := alloc (.identifier token.text) token.span

/-- A name that is declared. -/
def declaredName (cause : ErrorCause) : NodeBuild := do
  if ← isAt .identifier then
    name (← advance)
  else
    reportHere cause
    missingName

/-- The name of a member; reserved words are allowed. -/
def memberName : NodeBuild := do
  let token ← current
  if token.kind == .identifier || token.kind.isReservedWord then
    let _ ← advance
    name token
  else
    reportHere .identifierExpected
    missingName

/-- Items with commas between them, up to a closing token; a comma may follow the last. -/
def items (item : NodeBuild) (close : TokenKind) : Nat → Build (List NodeId)
  | 0 => pure []
  | n + 1 => do
    if (← isAt close) || (← isAt .endOfFile) then
      pure []
    else
      let first ← item
      if ← eat .comma then
        return first :: (← items item close n)
      else
        pure [first]

/-! ### Types -/

/-- A type followed by pairs of brackets. -/
def brackets (start : Nat) : Nat → NodeId → NodeBuild
  | 0, type => pure type
  | n + 1, type => do
    if (← isAt .leftBracket) && ((← look).peek 1).kind == .rightBracket then
      let _ ← advance
      let _ ← advance
      brackets start n (← finish start (.arrayType type))
    else
      pure type

/-- A type that is a word, a name or a type in parentheses. -/
def primaryType (type : NodeBuild) : NodeBuild := do
  let token ← current
  match token.kind with
  | .identifier =>
    let _ ← advance
    match KeywordType.ofName? token.text with
    | some keyword => alloc (.keywordType keyword) token.span
    | none => alloc (.typeReference (← name token)) token.span
  | .nullWord =>
    let _ ← advance
    alloc (.keywordType .null) token.span
  | .leftParen =>
    let _ ← advance
    let inner ← type
    let _ ← expect .rightParen
    pure inner
  | _ =>
    reportHere .typeExpected
    let missing ← missingName
    alloc (.typeReference missing) (← spanOf missing)

/-- A type with its brackets. -/
def arrayType (type : NodeBuild) : NodeBuild := do
  let start := (← current).span.start
  let first ← primaryType type
  brackets start (← remaining) first

/-- The further members of a union. -/
def moreMembers (member : NodeBuild) : Nat → Build (List NodeId)
  | 0 => pure []
  | n + 1 => do
    if ← eat .bar then
      let first ← member
      return first :: (← moreMembers member n)
    else
      pure []

/-- A type, nested in parentheses at most so often. -/
def typeWithin : Nat → NodeBuild
  | 0 => missingName
  | n + 1 => do
    let start := (← current).span.start
    let first ← arrayType (typeWithin n)
    match ← moreMembers (arrayType (typeWithin n)) (← remaining) with
    | [] => pure first
    | second :: more => finish start (.unionType (first :: second :: more))

/-- A type. -/
def type : NodeBuild := do typeWithin ((← remaining) + 1)

/-- A colon and a type, or nothing. -/
def typeAnnotation : Build (Option NodeId) := do
  if ← eat .colon then
    return some (← type)
  else
    pure none

/-! ### Expressions -/

/-- An equals sign and a value, or nothing. -/
def initializer (expr : NodeBuild) : Build (Option NodeId) := do
  if ← eat .equals then
    return some (← expr)
  else
    pure none

/-- A parameter. -/
def parameter (expr : NodeBuild) : NodeBuild := do
  let start := (← current).span.start
  let name ← declaredName .identifierExpected
  let type? ← typeAnnotation
  let init? ← initializer expr
  finish start (.parameter name type? init?)

/-- Parameters in parentheses; none when there is no opening one. -/
def parameters (expr : NodeBuild) : Build (List NodeId) := do
  if ← expect .leftParen then
    let params ← items (parameter expr) .rightParen ((← remaining) + 1)
    let _ ← expect .rightParen
    pure params
  else
    pure []

/-- Statements up to a closing token. -/
def statements (statement : Build (Option NodeId)) (close : TokenKind) : Nat → Build (List NodeId)
  | 0 => pure []
  | n + 1 => do
    if (← isAt close) || (← isAt .endOfFile) then
      pure []
    else
      let before ← remaining
      let first? ← statement
      if (← remaining) == before then
        let _ ← advance
      let more ← statements statement close n
      pure (first?.toList ++ more)

/-- Statements between braces. -/
def block (statement : Build (Option NodeId)) : NodeBuild := do
  let start := (← current).span.start
  let _ ← expect .leftBrace
  let body ← statements statement .rightBrace ((← remaining) + 1)
  let _ ← expect .rightBrace
  finish start (.block body)

/-- A function without a name. -/
def arrowFunction (statement : Build (Option NodeId)) (expr : NodeBuild) : NodeBuild := do
  let start := (← current).span.start
  let params ← do
    if ← isAt .identifier then
      let name ← declaredName .identifierExpected
      pure [← alloc (.parameter name none none) (← spanOf name)]
    else
      parameters expr
  let returnType? ← typeAnnotation
  let _ ← expect .arrow
  let body ← do
    if ← isAt .leftBrace then
      block statement
    else
      expr
  finish start (.arrowFunction params returnType? body)

/-- Arguments in parentheses. -/
def arguments (expr : NodeBuild) : Build (List NodeId) := do
  let _ ← expect .leftParen
  let args ← items expr .rightParen ((← remaining) + 1)
  let _ ← expect .rightParen
  pure args

/-- An expression without operators, member names and arguments. -/
def primary (expr : NodeBuild) : NodeBuild := do
  let token ← current
  let leaf (kind : Kind NodeId NodeId) : NodeBuild := do
    let _ ← advance
    alloc kind token.span
  match token.kind with
  | .identifier => leaf (.identifier token.text)
  | .numericLiteral => leaf (.numericLiteral token.text)
  | .stringLiteral => leaf (.stringLiteral (String.ofList (Escape.value token.text.toList)))
  | .trueWord => leaf .trueLiteral
  | .falseWord => leaf .falseLiteral
  | .nullWord => leaf .nullLiteral
  | .leftParen =>
    let _ ← advance
    let inner ← expr
    let _ ← expect .rightParen
    finish token.span.start (.parenthesized inner)
  | .leftBracket =>
    let _ ← advance
    let elements ← items expr .rightBracket ((← remaining) + 1)
    let _ ← expect .rightBracket
    finish token.span.start (.arrayLiteral elements)
  | .unknown =>
    reportHere .invalidCharacter
    let _ ← advance
    missingName
  | _ =>
    reportHere .expressionExpected
    missingName

/-- An expression followed by member names and arguments. -/
def suffixes (expr : NodeBuild) (start : Nat) : Nat → NodeId → NodeBuild
  | 0, e => pure e
  | n + 1, e => do
    match (← current).kind with
    | .dot =>
      let _ ← advance
      let name ← memberName
      suffixes expr start n (← finish start (.propertyAccess e name))
    | .leftParen =>
      let args ← arguments expr
      suffixes expr start n (← finish start (.call e args))
    | _ => pure e

/-- An expression without operators. -/
def operand (expr : NodeBuild) : NodeBuild := do
  let start := (← current).span.start
  let first ← primary expr
  suffixes expr start (← remaining) first

/-- An expression with operators in front only. -/
def unary (expr : NodeBuild) : Nat → NodeBuild
  | 0 => operand expr
  | n + 1 => do
    let token ← current
    match PrefixOperator.ofToken? token.kind with
    | some op =>
      let _ ← advance
      let inner ← unary expr n
      finish token.span.start (.prefixUnary op inner)
    | none => operand expr

/-- The operators after `left` that hold tighter than `least`, with their right operands. -/
def operators (expr : NodeBuild) : Nat → Nat → NodeId → NodeBuild
  | 0, _, left => pure left
  | n + 1, least, left => do
    match ofToken? (← current).kind with
    | some op =>
      if op.precedence ≤ least then
        pure left
      else
        let _ ← advance
        let first ← unary expr (← remaining)
        let right ← operators expr n op.precedence first
        operators expr n least (← finish (← spanOf left).start (.binary op left right))
    | none => pure left

/-- An assignment, a function without a name, or an expression that holds tighter. -/
def assignment (statement : Build (Option NodeId)) (expr : NodeBuild) : NodeBuild := do
  if (← look).startsArrowFunction then
    arrowFunction statement expr
  else
    let first ← unary expr (← remaining)
    let left ← operators expr (← remaining) 0 first
    match assignmentOfToken? (← current).kind with
    | some op =>
      if !isTarget (← get) left then
        report .invalidTarget (← spanOf left)
      let _ ← advance
      let right ← expr
      finish (← spanOf left).start (.binary op left right)
    | none => pure left

/-! ### Statements -/

/-- A declared variable; a constant needs a value. -/
def variableDeclaration (expr : NodeBuild) (keyword : VariableKind) : NodeBuild := do
  let start := (← current).span.start
  let name ← declaredName .variableExpected
  let type? ← typeAnnotation
  let init? ← initializer expr
  if keyword == .const && init?.isNone then
    report .constWithoutValue (← spanOf name)
  finish start (.variableDeclaration name type? init?)

/-- Declared variables with commas between them. -/
def variableDeclarations (declaration : NodeBuild) : Nat → Build (List NodeId)
  | 0 => return [← declaration]
  | n + 1 => do
    let first ← declaration
    if ← eat .comma then
      return first :: (← variableDeclarations declaration n)
    else
      pure [first]

/-- A statement that declares variables. -/
def variableStatement (expr : NodeBuild) (keyword : VariableKind) : NodeBuild := do
  let start := (← advance).span.start
  let declarations ← variableDeclarations (variableDeclaration expr keyword) (← remaining)
  semicolon
  finish start (.variableStatement keyword declarations)

/-- A declared function; an empty block stands for a body that is missing. -/
def functionDeclaration (statement : Build (Option NodeId)) (expr : NodeBuild) : NodeBuild := do
  let start := (← advance).span.start
  let name ← declaredName .identifierExpected
  let params ← parameters expr
  let returnType? ← typeAnnotation
  let body ← do
    if ← isAt .leftBrace then
      block statement
    else
      reportHere (.expected .leftBrace)
      alloc (.block []) (.point (← look).lastEnd)
  finish start (.functionDeclaration name params returnType? body)

/-- A name for a type. -/
def typeAlias : NodeBuild := do
  let start := (← advance).span.start
  let name ← declaredName .identifierExpected
  let _ ← expect .equals
  let aliased ← type
  semicolon
  finish start (.typeAlias name aliased)

/-- A statement where one is needed; an empty statement stands for one that is missing. -/
def embedded (statement : Build (Option NodeId)) : NodeBuild := do
  match ← statement with
  | some s => pure s
  | none => alloc .emptyStatement (.point (← look).lastEnd)

/-- A condition in parentheses. -/
def condition (expr : NodeBuild) : NodeBuild := do
  let _ ← expect .leftParen
  let cond ← expr
  let _ ← expect .rightParen
  pure cond

/-- A choice. -/
def ifStatement (statement : Build (Option NodeId)) (expr : NodeBuild) : NodeBuild := do
  let start := (← advance).span.start
  let cond ← condition expr
  let thenBranch ← embedded statement
  let elseBranch? ← do
    if ← eat .elseWord then
      some <$> embedded statement
    else
      pure none
  finish start (.ifStatement cond thenBranch elseBranch?)

/-- A loop. -/
def whileStatement (statement : Build (Option NodeId)) (expr : NodeBuild) : NodeBuild := do
  let start := (← advance).span.start
  let cond ← condition expr
  let body ← embedded statement
  finish start (.whileStatement cond body)

/-- A return; its value stands on the same line. -/
def returnStatement (expr : NodeBuild) : NodeBuild := do
  let start := (← advance).span.start
  let s ← look
  let expr? ← do
    if s.current.kind == .semicolon || s.endsStatement then
      pure none
    else
      some <$> expr
  semicolon
  finish start (.returnStatement expr?)

/-- A statement that is an expression. -/
def expressionStatement (expr : NodeBuild) : NodeBuild := do
  let start := (← current).span.start
  let e ← expr
  semicolon
  finish start (.expressionStatement e)

/-- A statement; nothing where a token can start none, and then the token is consumed. -/
def anyStatement (statement : Build (Option NodeId)) (expr : NodeBuild) : Build (Option NodeId) := do
  let s ← look
  match s.current.kind with
  | .leftBrace => some <$> block statement
  | .varWord => some <$> variableStatement expr .var
  | .letWord => some <$> variableStatement expr .letKind
  | .constWord => some <$> variableStatement expr .const
  | .functionWord => some <$> functionDeclaration statement expr
  | .ifWord => some <$> ifStatement statement expr
  | .whileWord => some <$> whileStatement statement expr
  | .returnWord => some <$> returnStatement expr
  | .semicolon =>
    let start := (← advance).span.start
    some <$> finish start .emptyStatement
  | .unknown =>
    reportHere .invalidCharacter
    let _ ← advance
    pure none
  | kind =>
    if s.startsTypeAlias then
      some <$> typeAlias
    else if startsExpression kind then
      some <$> expressionStatement expr
    else
      reportHere .statementExpected
      let _ ← advance
      pure none

mutual

/-- A statement, nested at most so deep. -/
def statement : Nat → Build (Option NodeId)
  | 0 => pure none
  | n + 1 => anyStatement (statement n) (expression n)

/-- An expression, nested at most so deep. -/
def expression : Nat → NodeBuild
  | 0 => missingName
  | n + 1 => assignment (statement n) (expression n)

end

/-- A whole text. -/
def sourceFile (ending : Token) : NodeBuild := do
  let left ← remaining
  let body ← statements (statement (2 * left + 2)) .endOfFile (left + 1)
  alloc (.sourceFile body) ⟨0, ending.span.stop⟩

end Builder

/-- The arena of the tokens, and the number of the node of the whole text. -/
def Arena.ofTokens (stream : TokenStream) : NodeId × Arena :=
  (((Builder.sourceFile stream.ending).run []).run ⟨stream.tokens, stream.ending, 0, []⟩).1

end ScriptAnalysis.Syntax

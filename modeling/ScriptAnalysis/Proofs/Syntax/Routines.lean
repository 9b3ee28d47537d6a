import ScriptAnalysis.Syntax.Parser

/-!
# The routines of reading without their bounds

The routines that read statements, expressions, parameters, arguments and types call each other, and a loop
goes on by calling itself for the next round. A `Script` is what a routine does, with the calls it makes
still open, and `Routine.body` gives the script of every routine. Nothing in it bounds how deep the
calls are nested or how often a loop goes round, so a script need not come to an end.

`Runs` says that a script, begun in a state, does come to an end, with which calls on the way and how. There
is at most one such run (`Runs.unique`).
-/

namespace ScriptAnalysis.Syntax.Parser

open BinaryOperator (ofToken? assignmentOfToken?)

/-! ### Routines -/

/-- What stands in a list with commas. -/
inductive Item where
  /-- A parameter of a function. -/
  | parameter
  /-- An argument of a call or an element of an array. -/
  | value

/-- A call of a routine, with what it is given. -/
inductive Routine where
  /-- A type. -/
  | type
  /-- A type with its brackets. -/
  | arrayType
  /-- A type that is a word, a name or a type in parentheses. -/
  | primaryType
  /-- The further brackets after a type. -/
  | brackets (start : Nat) (t : Node Span)
  /-- The further members of a union. -/
  | members
  /-- A colon and a type, or nothing. -/
  | ascription
  /-- An expression. -/
  | expression
  /-- A function without a name. -/
  | arrowFunction
  /-- Parameters in parentheses. -/
  | parameters
  /-- A parameter. -/
  | parameter
  /-- The further items of a list up to a closing token. -/
  | items (item : Item) (close : TokenKind)
  /-- An expression with operators that hold tighter than `least`. -/
  | binary (least : Nat)
  /-- The further operators after `left`. -/
  | operators (least : Nat) (left : Node Span)
  /-- An expression with operators in front only. -/
  | unary
  /-- An expression without operators. -/
  | operand
  /-- An expression without operators, member names and arguments. -/
  | primary
  /-- The further member names and arguments after an expression. -/
  | suffixes (start : Nat) (e : Node Span)
  /-- Arguments in parentheses. -/
  | arguments
  /-- A statement. -/
  | statement
  /-- The further statements up to a closing token. -/
  | statements (close : TokenKind)
  /-- A statement where one is needed. -/
  | embedded
  /-- Statements between braces. -/
  | block
  /-- A statement that declares variables. -/
  | variableStatement (keyword : VariableKind)
  /-- The further variables that a statement declares. -/
  | declarations (keyword : VariableKind)
  /-- A declared variable. -/
  | declaration (keyword : VariableKind)
  /-- A declared function. -/
  | functionDeclaration
  /-- A name for a type. -/
  | typeAlias
  /-- A choice. -/
  | ifStatement
  /-- A loop. -/
  | whileStatement
  /-- A return. -/
  | returnStatement
  /-- A statement that is an expression. -/
  | expressionStatement

/-- What a routine returns. -/
abbrev Routine.Result : Routine → Type
  | members | parameters | items .. | arguments | statements _ | declarations _ => List (Node Span)
  | ascription | statement => Option (Node Span)
  | _ => Node Span

/-! ### Scripts -/

/-- What a routine does: steps that only look at tokens, consume them and report errors, and calls. -/
inductive Script (α : Type) : Type 1 where
  /-- Nothing is left to do. -/
  | pure (a : α)
  /-- A step. -/
  | step {β : Type} (p : Parse β) (k : β → Script α)
  /-- A call. -/
  | call (c : Routine) (k : c.Result → Script α)

namespace Script

variable {α β : Type}

/-- One script after another. -/
def bind : Script α → (α → Script β) → Script β
  | pure a, f => f a
  | step p k, f => step p fun b => (k b).bind f
  | call c k, f => call c fun a => (k a).bind f

instance : Monad Script where
  pure := pure
  bind := bind

instance : MonadLift Parse Script where
  monadLift p := step p pure

end Script

/-- Calls a routine. -/
def call (c : Routine) : Script c.Result := .call c .pure

/-! ### What the routines do -/

/-- One item. -/
def Item.script : Item → Script (Node Span)
  | parameter => call .parameter
  | value => call .expression

/-- An equals sign and a value, or nothing. -/
def initializerScript : Script (Option (Node Span)) := do
  if ← eat .equals then
    return some (← call .expression)
  else
    pure none

/-- A condition in parentheses. -/
def conditionScript : Script (Node Span) := do
  let _ ← expect .leftParen
  let cond ← call .expression
  let _ ← expect .rightParen
  pure cond

/-- A round of a list of statements; `fallback` is what is done when a statement has taken no token. -/
def roundScript (close : TokenKind) (fallback : Script Token) : Script (List (Node Span)) := do
  if (← isAt close) || (← isAt .endOfFile) then
    pure []
  else
    let before ← remaining
    let first? ← call .statement
    if (← remaining) == before then
      let _ ← fallback
    let more ← call (.statements close)
    pure (first?.toList ++ more)

/-- What a routine does. -/
def Routine.body : (c : Routine) → Script c.Result
  | .type => do
    let start := (← current).span.start
    let first ← call .arrayType
    match ← call .members with
    | [] => pure first
    | second :: more => finish start (.unionType (first :: second :: more))
  | .arrayType => do
    let start := (← current).span.start
    let first ← call .primaryType
    call (.brackets start first)
  | .primaryType => do
    let token ← current
    match token.kind with
    | .identifier =>
      let _ ← advance
      match KeywordType.ofName? token.text with
      | some keyword => pure (.mk token.span (.keywordType keyword))
      | none => pure (.mk token.span (.typeReference ⟨token.span, token.text⟩))
    | .nullWord =>
      let _ ← advance
      pure (.mk token.span (.keywordType .null))
    | .leftParen =>
      let _ ← advance
      let inner ← call .type
      let _ ← expect .rightParen
      pure inner
    | _ =>
      reportHere .typeExpected
      let name ← missingName
      pure (.mk name.label (.typeReference name))
  | .brackets start t => do
    if (← isAt .leftBracket) && ((← get).peek 1).kind == .rightBracket then
      let _ ← advance
      let _ ← advance
      call (.brackets start (← finish start (.arrayType t)))
    else
      pure t
  | .members => do
    if ← eat .bar then
      let first ← call .arrayType
      return first :: (← call .members)
    else
      pure []
  | .ascription => do
    if ← eat .colon then
      return some (← call .type)
    else
      pure none
  | .expression => do
    if (← get).startsArrowFunction then
      call .arrowFunction
    else
      let left ← call (.binary 0)
      match assignmentOfToken? (← current).kind with
      | some op =>
        if !isTarget left then
          report .invalidTarget left.label
        let _ ← advance
        let right ← call .expression
        finish left.label.start (.binary op left right)
      | none => pure left
  | .arrowFunction => do
    let start := (← current).span.start
    let params ← do
      if ← isAt .identifier then
        let name ← declaredName .identifierExpected
        pure [.mk name.label (.parameter name none none)]
      else
        call .parameters
    let returnType? ← call .ascription
    let _ ← expect .arrow
    let body ← do
      if ← isAt .leftBrace then
        call .block
      else
        call .expression
    finish start (.arrowFunction params returnType? body)
  | .parameters => do
    if ← expect .leftParen then
      let params ← call (.items .parameter .rightParen)
      let _ ← expect .rightParen
      pure params
    else
      pure []
  | .parameter => do
    let start := (← current).span.start
    let name ← declaredName .identifierExpected
    let type? ← call .ascription
    let init? ← initializerScript
    finish start (.parameter name type? init?)
  | .items item close => do
    if (← isAt close) || (← isAt .endOfFile) then
      pure []
    else
      let first ← item.script
      if ← eat .comma then
        return first :: (← call (.items item close))
      else
        pure [first]
  | .binary least => do
    let first ← call .unary
    call (.operators least first)
  | .operators least left => do
    match ofToken? (← current).kind with
    | some op =>
      if op.precedence ≤ least then
        pure left
      else
        let _ ← advance
        let right ← call (.binary op.precedence)
        call (.operators least (← finish left.label.start (.binary op left right)))
    | none => pure left
  | .unary => do
    let token ← current
    match PrefixOperator.ofToken? token.kind with
    | some op =>
      let _ ← advance
      let inner ← call .unary
      finish token.span.start (.prefixUnary op inner)
    | none => call .operand
  | .operand => do
    let start := (← current).span.start
    let first ← call .primary
    call (.suffixes start first)
  | .primary => do
    let token ← current
    let leaf (kind : Kind (Ident Span) (Node Span)) : Script (Node Span) := do
      let _ ← advance
      pure (.mk token.span kind)
    match token.kind with
    | .identifier => leaf (.identifier token.text)
    | .numericLiteral => leaf (.numericLiteral token.text)
    | .stringLiteral => leaf (.stringLiteral (String.ofList (Escape.value token.text.toList)))
    | .trueWord => leaf .trueLiteral
    | .falseWord => leaf .falseLiteral
    | .nullWord => leaf .nullLiteral
    | .leftParen =>
      let _ ← advance
      let inner ← call .expression
      let _ ← expect .rightParen
      finish token.span.start (.parenthesized inner)
    | .leftBracket =>
      let _ ← advance
      let elements ← call (.items .value .rightBracket)
      let _ ← expect .rightBracket
      finish token.span.start (.arrayLiteral elements)
    | .unknown =>
      reportHere .invalidCharacter
      let _ ← advance
      missingExpression
    | _ =>
      reportHere .expressionExpected
      missingExpression
  | .suffixes start e => do
    match (← current).kind with
    | .dot =>
      let _ ← advance
      let name ← memberName
      call (.suffixes start (← finish start (.propertyAccess e name)))
    | .leftParen =>
      let args ← call .arguments
      call (.suffixes start (← finish start (.call e args)))
    | _ => pure e
  | .arguments => do
    let _ ← expect .leftParen
    let args ← call (.items .value .rightParen)
    let _ ← expect .rightParen
    pure args
  | .statement => do
    let s ← get
    match s.current.kind with
    | .leftBrace => some <$> call .block
    | .varWord => some <$> call (.variableStatement .var)
    | .letWord => some <$> call (.variableStatement .letKind)
    | .constWord => some <$> call (.variableStatement .const)
    | .functionWord => some <$> call .functionDeclaration
    | .ifWord => some <$> call .ifStatement
    | .whileWord => some <$> call .whileStatement
    | .returnWord => some <$> call .returnStatement
    | .semicolon =>
      let start := (← advance).span.start
      some <$> (finish start .emptyStatement : Script (Node Span))
    | .unknown =>
      reportHere .invalidCharacter
      let _ ← advance
      pure none
    | kind =>
      if s.startsTypeAlias then
        some <$> call .typeAlias
      else if startsExpression kind then
        some <$> call .expressionStatement
      else
        reportHere .statementExpected
        let _ ← advance
        pure none
  | .statements close => roundScript close advance
  | .embedded => do
    match ← call .statement with
    | some s => pure s
    | none => pure (.mk (.point (← get).lastEnd) .emptyStatement)
  | .block => do
    let start := (← current).span.start
    let _ ← expect .leftBrace
    let body ← call (.statements .rightBrace)
    let _ ← expect .rightBrace
    finish start (.block body)
  | .variableStatement keyword => do
    let start := (← advance).span.start
    let declarations ← call (.declarations keyword)
    semicolon
    finish start (.variableStatement keyword declarations)
  | .declarations keyword => do
    let first ← call (.declaration keyword)
    if ← eat .comma then
      return first :: (← call (.declarations keyword))
    else
      pure [first]
  | .declaration keyword => do
    let start := (← current).span.start
    let name ← declaredName .variableExpected
    let type? ← call .ascription
    let init? ← initializerScript
    if keyword == .const && init?.isNone then
      report .constWithoutValue name.label
    finish start (.variableDeclaration name type? init?)
  | .functionDeclaration => do
    let start := (← advance).span.start
    let name ← declaredName .identifierExpected
    let params ← call .parameters
    let returnType? ← call .ascription
    let body ← do
      if ← isAt .leftBrace then
        call .block
      else
        reportHere (.expected .leftBrace)
        pure (.mk (.point (← get).lastEnd) (.block []))
    finish start (.functionDeclaration name params returnType? body)
  | .typeAlias => do
    let start := (← advance).span.start
    let name ← declaredName .identifierExpected
    let _ ← expect .equals
    let aliased ← call .type
    semicolon
    finish start (.typeAlias name aliased)
  | .ifStatement => do
    let start := (← advance).span.start
    let cond ← conditionScript
    let thenBranch ← call .embedded
    let elseBranch? ← do
      if ← eat .elseWord then
        some <$> call .embedded
      else
        pure none
    finish start (.ifStatement cond thenBranch elseBranch?)
  | .whileStatement => do
    let start := (← advance).span.start
    let cond ← conditionScript
    let body ← call .embedded
    finish start (.whileStatement cond body)
  | .returnStatement => do
    let start := (← advance).span.start
    let s ← (get : Parse State)
    let expr? ← do
      if s.current.kind == .semicolon || s.endsStatement then
        pure none
      else
        some <$> call .expression
    semicolon
    finish start (.returnStatement expr?)
  | .expressionStatement => do
    let start := (← current).span.start
    let e ← call .expression
    semicolon
    finish start (.expressionStatement e)

/-! ### Runs -/

/-- A script that is begun in a state comes to an end: it makes these calls, each in its state, returns
something and leaves a state. -/
inductive Runs : {α : Type} → Script α → State → List (State × Routine) → α × State → Prop where
  /-- Nothing is left to do. -/
  | pure {α : Type} (a : α) (s : State) : Runs (.pure a) s [] (a, s)
  /-- After a step. -/
  | step {α β : Type} {p : Parse β} {k : β → Script α} {s : State} {calls : List (State × Routine)}
    {r : α × State} (h : Runs (k (p.run s).1) (p.run s).2 calls r) : Runs (.step p k) s calls r
  /-- After a call, which comes to an end itself. -/
  | call {α : Type} {c : Routine} {k : c.Result → Script α} {s t : State} {a : c.Result}
    {inner calls : List (State × Routine)} {r : α × State} (hc : Runs c.body s inner (a, t))
    (h : Runs (k a) t calls r) : Runs (.call c k) s ((s, c) :: calls) r

namespace Runs

variable {α β : Type} {σ : Script α} {f : α → Script β} {s t : State}
  {calls calls' : List (State × Routine)} {r r' : α × State} {x : β × State}

theorem bind (h : Runs σ s calls r) (hf : Runs (f r.1) r.2 calls' x) :
    Runs (σ >>= f) s (calls ++ calls') x := by
  induction h with
  | pure a s => exact hf
  | step h ih => exact .step (ih hf)
  | call hc h ihc ih => exact .call hc (ih hf)

theorem lift_bind_iff {p : Parse α} :
    Runs (liftM p >>= f) s calls x ↔ Runs (f (p.run s).1) (p.run s).2 calls x := by
  refine ⟨fun h => ?_, .step⟩
  cases h with
  | step h => exact h

theorem call_bind_iff {c : Routine} {g : c.Result → Script β} :
    Runs (Parser.call c >>= g) s calls x ↔
      ∃ inner y rest, calls = (s, c) :: rest ∧ Runs c.body s inner y ∧ Runs (g y.1) y.2 rest x := by
  constructor
  · intro h
    cases h with
    | call hc h => exact ⟨_, _, _, rfl, hc, h⟩
  · rintro ⟨inner, y, rest, rfl, hc, h⟩
    exact .call hc h

/-- A script ends in one way only. -/
theorem unique (h : Runs σ s calls r) (h' : Runs σ s calls' r') : calls' = calls ∧ r' = r := by
  induction h generalizing calls' with
  | pure a s =>
    cases h'
    exact ⟨rfl, rfl⟩
  | step h ih =>
    cases h' with
    | step h' => exact ih h'
  | call hc h ihc ih =>
    cases h' with
    | call hc' h' =>
      obtain ⟨-, heq⟩ := ihc hc'
      cases heq
      obtain ⟨rfl, rfl⟩ := ih h'
      exact ⟨rfl, rfl⟩

end Runs

end ScriptAnalysis.Syntax.Parser

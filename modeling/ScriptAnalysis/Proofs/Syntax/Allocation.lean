import ScriptAnalysis.Proofs.Syntax.Parsed
import ScriptAnalysis.Proofs.Syntax.Storing

/-!
# Reading into an arena is reading and storing

A reader that keeps nodes in an arena leaves there what storing the tree of the other reader would, and
consumes the same tokens (`Stores`); there is one lemma for each reader. So no branch of reading puts a node
that is not in the tree, or leaves one out, and the arena of a text lists its tree (`Tree.ofTokens_parse`).
-/

namespace ScriptAnalysis.Syntax

open Node (put store storeName storeKind storeList storeOption)
open ScriptAnalysis.Syntax.Parser (Parse NodeParse State)

namespace Builder

variable {A B : Arena} {γ δ ε ζ : Type} {q : Build δ} {p : Parse γ} {f : γ → StateM Arena δ}
  {g : ζ → StateM Arena ε}

/-- From the arena `B`, the reader `q` ends as storing what `p` returns in the arena `A` does. -/
def Ends (A B : Arena) (q : Build δ) (p : Parse γ) (f : γ → StateM Arena δ) : Prop :=
  ∀ s : State, (q.run B).run s = ((f (p.run s).1).run A, (p.run s).2)

/-- The reader `q` stores what `p` returns. -/
def Stores (q : Build δ) (p : Parse γ) (f : γ → StateM Arena δ) : Prop := ∀ A, Ends A A q p f

namespace Ends

theorem pure {x : γ} {y : δ} (h : (f x).run A = (y, B)) : Ends A B (Pure.pure y) (Pure.pure x) f :=
  fun s => congrArg (·, s) h.symm

/-- What is read next goes on from the arena that storing what was read first leaves. -/
theorem bind {C : Arena} {k : δ → Build ε} {r : γ → Parse ζ} (h : Ends C B q p f)
    (hk : ∀ x, Ends A ((f x).run C).2 (k ((f x).run C).1) (r x) g) : Ends A B (q >>= k) (p >>= r) g := by
  intro s
  have hrun : ((q >>= k).run B).run s =
    ((k ((q.run B).run s).1.1).run ((q.run B).run s).1.2).run ((q.run B).run s).2 := rfl
  rw [hrun, h s]
  exact hk _ _

/-- What only looks at tokens or consumes them leaves the arena as it is. -/
theorem lift_bind {k : γ → Build ε} {r : γ → Parse ζ} (h : ∀ x, Ends A B (k x) (r x) g) :
    Ends A B (liftM p >>= k) (p >>= r) g := fun _ => h _ _

theorem look_bind {k : State → Build ε} {r : State → Parse ζ} (h : ∀ s, Ends A B (k s) (r s) g) :
    Ends A B (look >>= k) (get >>= r) g := fun s => h s s

/-- Looking at the arena. -/
theorem get_bind {k : Arena → Build ε} {p : Parse ζ} (h : Ends A B (k B) p g) :
    Ends A B (get >>= k) p g := fun s => h s

theorem alloc_bind {kind : Kind NodeId NodeId} {span : Span} {k : NodeId → Build ε} {p : Parse ζ}
    (h : Ends A ((put kind span).run B).2 (k B.length) p g) : Ends A B (alloc kind span >>= k) p g :=
  fun s => h s

/-- One of two readers. -/
theorem ite {c : Prop} [Decidable c] {q' : Build δ} {p' : Parse γ} (h : Ends A B q p f)
    (h' : Ends A B q' p' f) : Ends A B (if c then q else q') (if c then p else p') f := by
  split
  · exact h
  · exact h'

/-- A tree that is there. -/
theorem some {q : NodeBuild} {p : NodeParse} (h : Ends A B q p store) :
    Ends A B (Option.some <$> q) (Option.some <$> p) storeOption := by
  intro s
  have hrun : ((Option.some <$> q).run B).run s =
    ((Option.some ((q.run B).run s).1.1, ((q.run B).run s).1.2), ((q.run B).run s).2) := rfl
  rw [hrun, h s]
  rfl

end Ends

/-! ### Steps -/

/-- Putting a node behind what is below it. -/
theorem ends_finish {start : Nat} {k : Kind (Ident Span) (Node Span)} {k' : Kind NodeId NodeId}
    (h : (storeKind k).run A = (k', B)) : Ends A B (finish start k') (Parser.finish start k) store := by
  intro s
  have hrun : ((finish start k').run B).run s =
    ((put k' ⟨start, max s.lastEnd start⟩).run B, s) := rfl
  have hstore : ∀ l, (store (.mk l k)).run A = (put ((storeKind k).run A).1 l).run ((storeKind k).run A).2 :=
    fun _ => rfl
  rw [hrun]
  refine congrArg (·, s) ?_
  rw [Parser.finish]
  exact ((hstore _).trans (by rw [h])).symm

/-- Putting a node with nothing below it. -/
theorem stores_leaf {l : Span} {k : Kind (Ident Span) (Node Span)} {k' : Kind NodeId NodeId}
    (h : storeKind k = pure k') : Stores (alloc k' l) (pure (.mk l k)) store := by
  intro A s
  have hstore : store (.mk l k) = put k' l := by
    rw [store, h, pure_bind]
  show _ = ((store (.mk l k)).run A, s)
  rw [hstore]
  rfl

theorem stores_missingName : Stores missingName Parser.missingName storeName := fun _ _ => rfl

theorem stores_missingExpression : Stores missingName Parser.missingExpression store := fun _ _ => rfl

theorem stores_declaredName {cause : ErrorCause} :
    Stores (declaredName cause) (Parser.declaredName cause) storeName :=
  fun _ => .lift_bind fun _ => .ite (.lift_bind fun _ _ => rfl) (.lift_bind fun _ _ => rfl)

theorem stores_memberName : Stores memberName Parser.memberName storeName :=
  fun _ => .lift_bind fun _ => .ite (.lift_bind fun _ _ => rfl) (.lift_bind fun _ _ => rfl)

/-- What a stored node covers is read off the arena. -/
theorem Ends.spanOf_bind {C : Arena} {n : Node Span} (hn : ((store n).run C).2 <+: B)
    {k : Span → Build ε} {p : Parse ζ} (h : Ends A B (k n.label) p g) :
    Ends A B (spanOf ((store n).run C).1 >>= k) p g := by
  have hspan : Arena.spanOf B ((store n).run C).1 = n.label := by
    rw [Arena.spanOf, Node.getElem?_of_prefix hn]
    rfl
  intro s
  have hrun : ((spanOf ((store n).run C).1 >>= k).run B).run s =
    ((k (Arena.spanOf B ((store n).run C).1)).run B).run s := rfl
  rw [hrun, hspan]
  exact h s

theorem isTarget_store {C : Arena} {n : Node Span} (hn : ((store n).run C).2 <+: B) :
    Arena.isTarget B ((store n).run C).1 = Parser.isTarget n := by
  rw [Arena.isTarget, Node.getElem?_of_prefix hn, Parser.isTarget]
  cases n.kind <;> rfl

/-- Items with commas between them. -/
theorem stores_items {item : NodeBuild} {item' : NodeParse} (hitem : Stores item item' store)
    (close : TokenKind) (r : Nat) : Stores (items item close r) (Parser.items item' close r) storeList := by
  induction r with
  | zero => exact fun _ _ => rfl
  | succ r ih =>
    intro A
    refine .lift_bind fun _ => .lift_bind fun _ => .ite (.pure rfl) (.bind (hitem _) fun first => ?_)
    exact .lift_bind fun _ => .ite (.bind (ih _) fun _ => .pure rfl) (.pure rfl)

/-! ### Types -/

theorem ends_brackets (start r : Nat) (t : Node Span) :
    Ends A ((store t).run A).2 (brackets start r ((store t).run A).1) (Parser.brackets start r t) store := by
  induction r generalizing t with
  | zero => exact .pure rfl
  | succ r ih =>
    refine .lift_bind fun _ => .look_bind fun _ => .ite ?_ (.pure rfl)
    refine .lift_bind fun _ => .lift_bind fun _ => ?_
    exact .bind (ends_finish (k := .arrayType t) rfl) fun t' => ih t'

theorem stores_primaryType {type : NodeBuild} {type' : NodeParse} (htype : Stores type type' store) :
    Stores (primaryType type) (Parser.primaryType type') store := by
  refine fun A => .lift_bind fun token => ?_
  obtain ⟨kind, span, lineBreak, text⟩ := token
  cases kind with
  | identifier =>
    refine .lift_bind fun _ => ?_
    dsimp only
    cases KeywordType.ofName? text with
    | some keyword => exact fun _ => rfl
    | none => exact fun _ => rfl
  | nullWord => exact .lift_bind fun _ _ => rfl
  | leftParen => exact .lift_bind fun _ => .bind (htype _) fun _ => .lift_bind fun _ => .pure rfl
  | _ =>
    refine .lift_bind fun _ => .bind (stores_missingName _) fun i => ?_
    exact .spanOf_bind (n := i.toNode) List.prefix_rfl fun _ => rfl

theorem stores_arrayType {type : NodeBuild} {type' : NodeParse} (htype : Stores type type' store) :
    Stores (arrayType type) (Parser.arrayType type') store :=
  fun _ => .lift_bind fun _ => .bind (stores_primaryType htype _) fun t =>
    .lift_bind fun r => ends_brackets _ r t

theorem stores_moreMembers {member : NodeBuild} {member' : NodeParse} (hmember : Stores member member' store)
    (r : Nat) : Stores (moreMembers member r) (Parser.moreMembers member' r) storeList := by
  induction r with
  | zero => exact fun _ _ => rfl
  | succ r ih =>
    refine fun A => .lift_bind fun _ => .ite ?_ (.pure rfl)
    exact .bind (hmember _) fun _ => .bind (ih _) fun _ => .pure rfl

theorem stores_typeWithin (r : Nat) : Stores (typeWithin r) (Parser.typeWithin r) store := by
  induction r with
  | zero => exact stores_missingExpression
  | succ r ih =>
    refine fun A => .lift_bind fun _ => .bind (stores_arrayType ih _) fun first => ?_
    refine .lift_bind fun m => .bind (stores_moreMembers (stores_arrayType ih) m _) fun ts => ?_
    cases ts with
    | nil => exact .pure rfl
    | cons second more => exact ends_finish rfl

theorem stores_type : Stores type Parser.type store :=
  fun _ => .lift_bind fun m => stores_typeWithin (m + 1) _

theorem stores_typeOption : Stores typeAnnotation Parser.typeAnnotation storeOption :=
  fun _ => .lift_bind fun _ => .ite (.bind (stores_type _) fun _ => .pure rfl) (.pure rfl)

theorem stores_typeAlias : Stores typeAlias Parser.typeAlias store := by
  refine fun A => .lift_bind fun _ => .bind (stores_declaredName _) fun i => ?_
  refine .lift_bind fun _ => .bind (stores_type _) fun t => .lift_bind fun _ => ?_
  exact ends_finish rfl

/-! ### Expressions -/

section

variable {expr : NodeBuild} {expr' : NodeParse} (hexpr : Stores expr expr' store)

include hexpr

theorem stores_initializer : Stores (initializer expr) (Parser.initializer expr') storeOption :=
  fun _ => .lift_bind fun _ => .ite (.bind (hexpr _) fun _ => .pure rfl) (.pure rfl)

theorem stores_parameter : Stores (parameter expr) (Parser.parameter expr') store := by
  refine fun A => .lift_bind fun _ => .bind (stores_declaredName _) fun i => ?_
  refine .bind (stores_typeOption _) fun t? => .bind (stores_initializer hexpr _) fun e? => ?_
  exact ends_finish rfl

theorem stores_parameters : Stores (parameters expr) (Parser.parameters expr') storeList := by
  refine fun A => .lift_bind fun _ => .ite (.lift_bind fun m => ?_) (.pure rfl)
  refine .bind (stores_items (stores_parameter hexpr) _ _ _) fun ps => ?_
  exact .lift_bind fun _ => .pure rfl

theorem stores_arguments : Stores (arguments expr) (Parser.arguments expr') storeList := by
  refine fun A => .lift_bind fun _ => .lift_bind fun m => ?_
  refine .bind (stores_items hexpr _ _ _) fun es => ?_
  exact .lift_bind fun _ => .pure rfl

theorem stores_primary : Stores (primary expr) (Parser.primary expr') store := by
  refine fun A => .lift_bind fun token => ?_
  obtain ⟨kind, span, lineBreak, text⟩ := token
  cases kind with
  | identifier | numericLiteral | stringLiteral | trueWord | falseWord | nullWord =>
    exact .lift_bind fun _ _ => rfl
  | leftParen =>
    exact .lift_bind fun _ => .bind (hexpr _) fun e => .lift_bind fun _ => ends_finish rfl
  | leftBracket =>
    refine .lift_bind fun _ => .lift_bind fun m => .bind (stores_items hexpr _ _ _) fun es => ?_
    exact .lift_bind fun _ => ends_finish rfl
  | unknown => exact .lift_bind fun _ => .lift_bind fun _ => stores_missingExpression _
  | _ => exact .lift_bind fun _ => stores_missingExpression _

theorem ends_suffixes (start r : Nat) (e : Node Span) :
    Ends A ((store e).run A).2 (suffixes expr start r ((store e).run A).1)
      (Parser.suffixes expr' start r e) store := by
  induction r generalizing e with
  | zero => exact .pure rfl
  | succ r ih =>
    refine .lift_bind fun token => ?_
    obtain ⟨kind, span, lineBreak, text⟩ := token
    cases kind with
    | dot =>
      refine .lift_bind fun _ => .bind (stores_memberName _) fun i => ?_
      exact .bind (ends_finish (k := .propertyAccess e i) rfl) fun e' => ih e'
    | leftParen =>
      refine .bind (stores_arguments hexpr _) fun as => ?_
      exact .bind (ends_finish (k := .call e as) rfl) fun e' => ih e'
    | _ => exact .pure rfl

theorem stores_operand : Stores (operand expr) (Parser.operand expr') store :=
  fun _ => .lift_bind fun _ => .bind (stores_primary hexpr _) fun e =>
    .lift_bind fun r => ends_suffixes hexpr _ r e

theorem stores_unary (r : Nat) : Stores (unary expr r) (Parser.unary expr' r) store := by
  induction r with
  | zero => exact stores_operand hexpr
  | succ r ih =>
    refine fun A => .lift_bind fun token => ?_
    cases PrefixOperator.ofToken? token.kind with
    | some op => exact .lift_bind fun _ => .bind (ih _) fun e => ends_finish rfl
    | none => exact stores_operand hexpr A

theorem ends_operators (r least : Nat) (left : Node Span) :
    Ends A ((store left).run A).2 (operators expr r least ((store left).run A).1)
      (Parser.operators expr' r least left) store := by
  induction r generalizing least left A with
  | zero => exact .pure rfl
  | succ r ih =>
    refine .lift_bind fun token => ?_
    cases BinaryOperator.ofToken? token.kind with
    | some op =>
      refine .ite (.pure rfl) (.lift_bind fun _ => .lift_bind fun m => ?_)
      refine .bind (stores_unary hexpr m _) fun first => .bind (ih _ first) fun right => ?_
      refine .spanOf_bind (Node.prefix_store ..) ?_
      exact .bind (ends_finish (k := .binary _ left right) rfl) fun e => ih least e
    | none => exact .pure rfl

/-! ### Statements -/

theorem stores_variableDeclaration {keyword : VariableKind} :
    Stores (variableDeclaration expr keyword) (Parser.variableDeclaration expr' keyword) store := by
  refine fun A => .lift_bind fun token => .bind (stores_declaredName _) fun i => ?_
  refine .bind (stores_typeOption _) fun t? => .bind (stores_initializer hexpr _) fun e? => ?_
  have hisNone : ∀ B, ((storeOption e?).run B).1.isNone = e?.isNone := fun B => by cases e? <;> rfl
  dsimp only
  rw [hisNone]
  refine .ite (.spanOf_bind (n := i.toNode) ?_ (.lift_bind fun _ => ends_finish rfl)) (ends_finish rfl)
  exact (Node.prefix_storeOption t? _).trans (Node.prefix_storeOption e? _)

theorem stores_variableDeclarations {keyword : VariableKind} (r : Nat) :
    Stores (variableDeclarations (variableDeclaration expr keyword) r)
      (Parser.variableDeclarations (Parser.variableDeclaration expr' keyword) r) storeList := by
  induction r with
  | zero => exact fun _ => .bind (stores_variableDeclaration hexpr _) fun _ => .pure rfl
  | succ r ih =>
    refine fun A => .bind (stores_variableDeclaration hexpr _) fun d => ?_
    exact .lift_bind fun _ => .ite (.bind (ih _) fun _ => .pure rfl) (.pure rfl)

theorem stores_variableStatement {keyword : VariableKind} :
    Stores (variableStatement expr keyword) (Parser.variableStatement expr' keyword) store := by
  refine fun A => .lift_bind fun _ => .lift_bind fun r => ?_
  refine .bind (stores_variableDeclarations hexpr r _) fun ds => .lift_bind fun _ => ?_
  exact ends_finish rfl

theorem stores_condition : Stores (condition expr) (Parser.condition expr') store :=
  fun _ => .lift_bind fun _ => .bind (hexpr _) fun _ => .lift_bind fun _ => .pure rfl

theorem stores_returnStatement : Stores (returnStatement expr) (Parser.returnStatement expr') store := by
  refine fun A => .lift_bind fun token => .look_bind fun s => ?_
  have hfinish : ∀ e? : Option (Node Span), Ends A ((storeOption e?).run A).2
      (do
        Parser.semicolon
        finish token.span.start (.returnStatement ((storeOption e?).run A).1))
      (do
        Parser.semicolon
        Parser.finish token.span.start (.returnStatement e?)) store :=
    fun e? => .lift_bind fun _ => ends_finish rfl
  exact .ite (.bind (f := storeOption) (.pure (x := none) rfl) hfinish) (.bind (hexpr A).some hfinish)

theorem stores_expressionStatement :
    Stores (expressionStatement expr) (Parser.expressionStatement expr') store :=
  fun _ => .lift_bind fun _ => .bind (hexpr _) fun _ => .lift_bind fun _ => ends_finish rfl

end

section

variable {statement : Build (Option NodeId)} {statement' : Parse (Option (Node Span))}
  (hstatement : Stores statement statement' storeOption)

include hstatement

theorem stores_statements (close : TokenKind) (r : Nat) :
    Stores (statements statement close r) (Parser.statements statement' close r) storeList := by
  induction r with
  | zero => exact fun _ _ => rfl
  | succ r ih =>
    refine fun A => .lift_bind fun _ => .lift_bind fun _ => .ite (.pure rfl) ?_
    refine .lift_bind fun before => .bind (hstatement _) fun s? => .lift_bind fun after => ?_
    have hmore : Ends A ((storeOption s?).run A).2
        (do
          let more ← statements statement close r
          pure (((storeOption s?).run A).1.toList ++ more))
        (do
          let more ← Parser.statements statement' close r
          pure (s?.toList ++ more)) storeList :=
      .bind (ih _) fun more => .pure (by cases s? <;> rfl)
    exact .ite (.lift_bind fun _ => hmore) hmore

theorem stores_block : Stores (block statement) (Parser.block statement') store := by
  refine fun A => .lift_bind fun token => .lift_bind fun _ => .lift_bind fun r => ?_
  refine .bind (stores_statements hstatement _ _ _) fun ss => .lift_bind fun _ => ?_
  exact ends_finish rfl

theorem stores_embedded : Stores (embedded statement) (Parser.embedded statement') store := by
  refine fun A => .bind (hstatement _) fun s? => ?_
  cases s? with
  | some s => exact .pure rfl
  | none => exact .look_bind fun s _ => rfl

variable {expr : NodeBuild} {expr' : NodeParse} (hexpr : Stores expr expr' store)

include hexpr

theorem stores_arrowFunction :
    Stores (arrowFunction statement expr) (Parser.arrowFunction statement' expr') store := by
  refine fun A => .lift_bind fun token => ?_
  have hrest : ∀ ps : List (Node Span), Ends A ((storeList ps).run A).2
      (do
        let returnType? ← typeAnnotation
        let _ ← Parser.expect .arrow
        let body ← if ← Parser.isAt .leftBrace then block statement else expr
        finish token.span.start (.arrowFunction ((storeList ps).run A).1 returnType? body))
      (do
        let returnType? ← Parser.typeAnnotation
        let _ ← Parser.expect .arrow
        let body ← if ← Parser.isAt .leftBrace then Parser.block statement' else expr'
        Parser.finish token.span.start (.arrowFunction ps returnType? body)) store := by
    refine fun ps => .bind (stores_typeOption _) fun t? => .lift_bind fun _ => .lift_bind fun _ => ?_
    exact .ite (.bind (stores_block hstatement _) fun b => ends_finish rfl)
      (.bind (hexpr _) fun b => ends_finish rfl)
  refine .lift_bind fun _ => .ite (.bind (stores_declaredName _) fun i => ?_)
    (.bind (stores_parameters hexpr _) hrest)
  refine .spanOf_bind (n := i.toNode) List.prefix_rfl (.alloc_bind ?_)
  exact .bind (f := storeList) (.pure (x := [Node.mk i.label (.parameter i none none)]) rfl) hrest

theorem stores_assignment : Stores (assignment statement expr) (Parser.assignment statement' expr') store := by
  refine fun A => .look_bind fun s => .ite (stores_arrowFunction hstatement hexpr A) ?_
  refine .lift_bind fun m => .bind (stores_unary hexpr m A) fun first => ?_
  refine .lift_bind fun m => .bind (ends_operators hexpr m 0 first) fun left => .lift_bind fun token => ?_
  cases BinaryOperator.assignmentOfToken? token.kind with
  | some op =>
    have hright : Ends A ((store left).run A).2
        (do
          let _ ← Parser.advance
          let right ← expr
          finish (← spanOf ((store left).run A).1).start (.binary op ((store left).run A).1 right))
        (do
          let _ ← Parser.advance
          let right ← expr'
          Parser.finish left.label.start (.binary op left right)) store := by
      refine .lift_bind fun _ => .bind (hexpr _) fun right => ?_
      exact .spanOf_bind (Node.prefix_store ..) (ends_finish rfl)
    refine .get_bind ?_
    rw [isTarget_store List.prefix_rfl]
    exact .ite (.spanOf_bind List.prefix_rfl (.lift_bind fun _ => hright)) hright
  | none => exact .pure rfl

theorem stores_functionDeclaration :
    Stores (functionDeclaration statement expr) (Parser.functionDeclaration statement' expr') store := by
  refine fun A => .lift_bind fun token => .bind (stores_declaredName _) fun i => ?_
  refine .bind (stores_parameters hexpr _) fun ps => .bind (stores_typeOption _) fun t? => ?_
  refine .lift_bind fun _ => .ite (.bind (stores_block hstatement _) fun b => ends_finish rfl) ?_
  refine .lift_bind fun _ => .look_bind fun s => ?_
  exact .bind (stores_leaf (k := .block []) rfl _) fun b => ends_finish rfl

theorem stores_ifStatement :
    Stores (ifStatement statement expr) (Parser.ifStatement statement' expr') store := by
  refine fun A => .lift_bind fun token => .bind (stores_condition hexpr _) fun c => ?_
  refine .bind (stores_embedded hstatement _) fun a => .lift_bind fun _ => .ite ?_ ?_
  · exact .bind (stores_embedded hstatement _).some fun b? => ends_finish rfl
  · exact .bind (f := storeOption) (.pure (x := none) rfl) fun b? => ends_finish rfl

theorem stores_whileStatement :
    Stores (whileStatement statement expr) (Parser.whileStatement statement' expr') store := by
  refine fun A => .lift_bind fun token => .bind (stores_condition hexpr _) fun c => ?_
  exact .bind (stores_embedded hstatement _) fun a => ends_finish rfl

theorem stores_anyStatement :
    Stores (anyStatement statement expr) (Parser.anyStatement statement' expr') storeOption := by
  refine fun A => .look_bind fun s => ?_
  have hother : ∀ kind, Ends A A
      (if s.startsTypeAlias then some <$> typeAlias
        else if Parser.startsExpression kind then some <$> expressionStatement expr
        else do
          Parser.reportHere .statementExpected
          let _ ← Parser.advance
          pure none)
      (if s.startsTypeAlias then some <$> Parser.typeAlias
        else if Parser.startsExpression kind then some <$> Parser.expressionStatement expr'
        else do
          Parser.reportHere .statementExpected
          let _ ← Parser.advance
          pure none) storeOption := by
    intro kind
    refine .ite (stores_typeAlias A).some (.ite (stores_expressionStatement hexpr A).some ?_)
    exact .lift_bind fun _ => .lift_bind fun _ => .pure rfl
  show Ends A A (match s.current.kind with | _ => _) (match s.current.kind with | _ => _) _
  cases s.current.kind with
  | leftBrace => exact (stores_block hstatement A).some
  | varWord | letWord | constWord => exact (stores_variableStatement hexpr A).some
  | functionWord => exact (stores_functionDeclaration hstatement hexpr A).some
  | ifWord => exact (stores_ifStatement hstatement hexpr A).some
  | whileWord => exact (stores_whileStatement hstatement hexpr A).some
  | returnWord => exact (stores_returnStatement hexpr A).some
  | semicolon => exact .lift_bind fun _ => (ends_finish (k := .emptyStatement) rfl).some
  | unknown => exact .lift_bind fun _ => .lift_bind fun _ => .pure rfl
  | _ => exact hother _

end

/-- Statements and expressions are stored at every depth. -/
theorem stores_nested (r : Nat) :
    Stores (statement r) (Parser.statement r) storeOption ∧
      Stores (expression r) (Parser.expression r) store := by
  induction r with
  | zero => exact ⟨fun _ _ => rfl, stores_missingExpression⟩
  | succ r ih =>
    obtain ⟨hstatement, hexpr⟩ := ih
    exact ⟨stores_anyStatement hstatement hexpr, stores_assignment hstatement hexpr⟩

end Builder

/-! ### The arena of a text -/

theorem ofTokens_eq (stream : TokenStream) :
    Arena.ofTokens stream = (store (parseTokens stream).1).run [] := by
  have hfile : Builder.Ends [] [] (Builder.sourceFile stream.ending)
      (do
        let left ← Parser.remaining
        let body ← Parser.statements (Parser.statement (2 * left + 2)) .endOfFile (left + 1)
        pure (.mk ⟨0, stream.ending.span.stop⟩ (.sourceFile body))) store :=
    .lift_bind fun left => .bind (Builder.stores_statements (Builder.stores_nested _).1 _ _ _) fun _ _ => rfl
  exact congrArg Prod.fst (hfile _)

/-- **The nodes that reading puts into an arena are those of the tree**, with the same numbers, spans and
parents, and in the same order. -/
theorem Tree.ofTokens_parse (fileName text : String) :
    Arena.ofTokens (.ofChars text.toList) = ((Tree.parse fileName text).root.id,
      (Tree.parse fileName text).entries.toList.map Entry.cell) := by
  rw [ofTokens_eq, Node.run_store_nil, Tree.entries_parse, Tree.root_parse]

end ScriptAnalysis.Syntax

import ScriptAnalysis.Proofs.Syntax.Keeping

/-!
# Keeping the tokens of a whole text

Every reader of a type, an expression or a statement keeps what it takes, by one lemma for each. The readers
of statements and expressions are nested in one another, and depth bounds how often: `keeps_nested` shows
that twice the number of tokens left is deep enough. Then every statement takes a token, and the statements
of a text take all of them (`takes_sourceFile`).
-/

namespace ScriptAnalysis.Syntax.Parser

open Syntax.Node

variable {source : List Char} {s : State} {pre : List Mark} {c : Prop} {n : Nat} {close : TokenKind}
  {start : Nat}

/-! ### Types -/

theorem keeps_brackets (r : Nat) (t : Node Span) :
    Keeps source n t.marks (brackets start r t) marks := by
  induction r generalizing n t with
  | zero => exact .pure rfl
  | succ r ih =>
    intro s hs _
    show KeepsAt s False t.marks (if (s.current.kind == .leftBracket &&
      (s.peek 1).kind == .rightBracket) = true then _ else _) marks
    by_cases h : (s.current.kind == .leftBracket && (s.peek 1).kind == .rightBracket) = true
    · rw [if_pos h]
      obtain ⟨hopen, hclose⟩ : s.current.kind = .leftBracket ∧ (s.peek 1).kind = .rightBracket := by
        simpa using h
      have hcurrent := hs.current_advanced (by rw [hopen]; decide)
      refine .of_true ((keepsAt_filler hs (by rw [hopen]; rfl)).bind_at ?_)
      refine .of_true ((keepsAt_filler hs.advanced (by rw [hcurrent, hclose]; rfl)).bind hs.advanced ?_)
      exact fun _ => (keeps_finish rfl rfl (List.append_nil _)).bind fun t' => ih t'
    · rw [if_neg h]
      exact .pure rfl

theorem keeps_primaryType {type : NodeParse} (htype : Keeps source n [] type marks) :
    Keeps source n [] (primaryType type) marks := by
  intro s hs hn
  refine .current_bind ?_
  split
  · rename_i hkind
    cases hname : KeywordType.ofName? s.current.text with
    | some keyword =>
      exact keepsAt_leaf hs (hkind ▸ rfl) rfl hname
    | none =>
      refine .of_true ((keepsAt_name hs hkind).bind hs fun _ => .pure ?_)
      exact (marks_eq_marksBelow rfl rfl).trans (List.append_nil _)
  · rename_i hkind
    have htext : s.current.text = "null" :=
      (hs.current (by rw [hkind]; decide)).spelled _ (by rw [hkind]; rfl)
    exact keepsAt_leaf hs (hkind ▸ rfl) rfl ((KeywordType.ofName?_eq_some_iff _ _).mpr htext)
  · rename_i hkind
    refine .of_true ((keepsAt_filler hs (hkind ▸ rfl)).bind hs fun _ => ?_)
    exact (htype.of_le hn).bind fun t => (keeps_expect rfl).bind fun _ => .pure rfl
  · refine (keeps_reportHere.bind fun _ => keeps_missingName.bind fun i => .pure ?_) s hs hn
    exact (marks_eq_marksBelow rfl rfl).trans (List.append_nil _)

theorem keeps_arrayType {type : NodeParse} (htype : Keeps source n [] type marks) :
    Keeps source n [] (arrayType type) marks :=
  keeps_current.bind fun _ => (keeps_primaryType htype).bind fun t =>
    keeps_remaining.bind fun r => keeps_brackets r t

theorem keeps_moreMembers {member : NodeParse} (hmember : Keeps source n [] member marks) (r : Nat) :
    Keeps source n [] (moreMembers member r) listMarks := by
  induction r with
  | zero => exact .pure rfl
  | succ r ih =>
    refine (keeps_eat rfl).bind fun _ => .ite ?_ (.pure rfl)
    exact hmember.bind fun t => ih.frame.bind fun ts => .pure rfl

theorem keeps_typeWithin (r : Nat) : Keeps source n [] (typeWithin r) marks := by
  induction r with
  | zero => exact keeps_missingExpression
  | succ r ih =>
    refine keeps_current.bind fun _ => (keeps_arrayType ih).bind fun t => keeps_remaining.bind fun m => ?_
    refine (keeps_moreMembers (keeps_arrayType ih) m).frame.bind fun ts => ?_
    match ts with
    | [] => exact .pure (List.append_nil _).symm
    | t' :: ts => exact keeps_finish rfl rfl rfl

theorem keeps_type : Keeps source n [] type marks := keeps_remaining.bind fun r => keeps_typeWithin (r + 1)

theorem keeps_typeAnnotation : Keeps source n [] typeAnnotation optionMarks :=
  (keeps_eat rfl).bind fun _ => .ite (keeps_type.bind fun t => .pure (optionMarks_some t)) (.pure rfl)

/-! ### Expressions -/

/-- With at most `n` tokens left the reader of an expression keeps what it takes, and it takes a token where
an expression can start. -/
def KeepsExpression (source : List Char) (n : Nat) (p : NodeParse) : Prop :=
  ∀ s : State, s.Ready source → s.rest.length ≤ n →
    KeepsAt s (startsExpression s.current.kind = true) [] p marks

/-- With at most `n` tokens left the reader of a statement keeps what it takes, and it takes a token unless
the text ends. -/
def KeepsStatement (source : List Char) (n : Nat) (p : Parse (Option (Node Span))) : Prop :=
  ∀ s : State, s.Ready source → s.rest.length ≤ n →
    KeepsAt s (s.current.kind ≠ .endOfFile) [] p optionMarks

theorem KeepsExpression.keeps {p : NodeParse} (h : KeepsExpression source n p) :
    Keeps source n [] p marks :=
  fun s hs hn => (h s hs hn).imp False.elim

theorem KeepsStatement.keeps {p : Parse (Option (Node Span))} (h : KeepsStatement source n p) :
    Keeps source n [] p optionMarks :=
  fun s hs hn => (h s hs hn).imp False.elim

section

variable {expr : NodeParse}

theorem keeps_initializer (hexpr : Keeps source n [] expr marks) :
    Keeps source n [] (initializer expr) optionMarks :=
  (keeps_eat rfl).bind fun _ => .ite (hexpr.bind fun e => .pure (optionMarks_some e)) (.pure rfl)

theorem keeps_parameter (hexpr : Keeps source n [] expr marks) :
    Keeps source n [] (parameter expr) marks := by
  refine keeps_current.bind fun _ => keeps_declaredName.bind fun i => ?_
  refine keeps_typeAnnotation.frame.bind fun t? => (keeps_initializer hexpr).frame.bind fun e? => ?_
  exact keeps_finish rfl rfl (by simp [marksBelow, Kind.map, Kind.children, optionMarks, Ident.marks])

theorem keeps_parameters (hexpr : Keeps source n [] expr marks) :
    Keeps source n [] (parameters expr) listMarks := by
  refine (keeps_expect rfl).bind fun opened => .ite ?_ (.pure rfl)
  refine keeps_remaining.bind fun r => (keeps_items (keeps_parameter hexpr) _).bind fun ps => ?_
  exact (keeps_expect rfl).bind fun _ => .pure rfl

variable (hexpr : ∀ k < n, Keeps source k [] expr marks)

include hexpr

theorem keepsAt_parameters (hs : s.Ready source) (hn : s.rest.length ≤ n)
    (h : s.current.kind = .leftParen) : KeepsAt s True [] (parameters expr) listMarks := by
  refine ((keepsAt_expect hs rfl).imp fun _ => h).bind_lt hs hn fun opened k hk => .ite ?_ (.pure rfl)
  refine keeps_remaining.bind fun r => (keeps_items (keeps_parameter (hexpr k hk)) _).bind fun ps => ?_
  exact (keeps_expect rfl).bind fun _ => .pure rfl

theorem keepsAt_arguments (hs : s.Ready source) (hn : s.rest.length ≤ n)
    (h : s.current.kind = .leftParen) : KeepsAt s True [] (arguments expr) listMarks := by
  refine ((keepsAt_expect hs rfl).imp fun _ => h).bind_lt hs hn fun _ k hk => ?_
  refine keeps_remaining.bind fun r => (keeps_items (hexpr k hk) _).bind fun as => ?_
  exact (keeps_expect rfl).bind fun _ => .pure rfl

/-- Whether an expression without operators can start with a token. -/
def startsOperand (kind : TokenKind) : Bool :=
  startsExpression kind && (PrefixOperator.ofToken? kind).isNone

theorem keepsAt_primary (hs : s.Ready source) (hn : s.rest.length ≤ n) :
    KeepsAt s (startsOperand s.current.kind = true) [] (primary expr) marks := by
  have hspelled : ∀ text, s.current.kind.spelling? = some text → s.current.text = text := by
    intro text htext
    refine (hs.current ?_).spelled text htext
    intro h
    rw [h] at htext
    cases htext
  refine .current_bind ?_
  split
  · rename_i h
    exact keepsAt_leaf hs (h ▸ rfl) rfl rfl
  · rename_i h
    exact keepsAt_leaf hs (h ▸ rfl) rfl rfl
  · rename_i h
    exact keepsAt_leaf hs (h ▸ rfl) rfl rfl
  · rename_i h
    exact keepsAt_leaf hs (h ▸ rfl) rfl (hspelled _ (h ▸ rfl))
  · rename_i h
    exact keepsAt_leaf hs (h ▸ rfl) rfl (hspelled _ (h ▸ rfl))
  · rename_i h
    exact keepsAt_leaf hs (h ▸ rfl) rfl (hspelled _ (h ▸ rfl))
  · rename_i h
    refine (keepsAt_filler hs (h ▸ rfl)).bind_lt hs hn fun _ k hk => (hexpr k hk).bind fun e => ?_
    exact (keeps_expect rfl).bind fun _ => keeps_finish rfl rfl (List.append_nil _)
  · rename_i h
    refine (keepsAt_filler hs (h ▸ rfl)).bind_lt hs hn fun _ k hk => keeps_remaining.bind fun r => ?_
    refine (keeps_items (hexpr k hk) _).bind fun es => (keeps_expect rfl).bind fun _ => ?_
    exact keeps_finish rfl rfl rfl
  · rename_i h
    refine (keepsAt_reportHere_advance hs (h ▸ rfl) keeps_missingExpression).imp fun _ => ?_
    rw [h]
    decide
  · refine ((keeps_reportHere.bind fun _ => keeps_missingExpression) s hs hn).imp fun h => ?_
    generalize s.current.kind = kind at *
    cases kind <;> simp_all [startsOperand, startsExpression, PrefixOperator.ofToken?]

theorem keeps_suffixes (r : Nat) (e : Node Span) :
    Keeps source n e.marks (suffixes expr start r e) marks := by
  induction r generalizing n e with
  | zero => exact .pure rfl
  | succ r ih =>
    intro s hs hn
    refine .current_bind ?_
    split
    · rename_i h
      show KeepsAt s False e.marks ((do let _ ← advance; memberName) >>= fun name => do
        suffixes expr start r (← finish start (.propertyAccess e name))) marks
      refine .bind_lt hs hn (keepsAt_member hs h) fun i k hk => ?_
      refine (keeps_finish rfl rfl ?_).bind fun e' => ih (fun j hj => hexpr j (Nat.lt_trans hj hk)) e'
      simp [marksBelow, Kind.map, Kind.children, Ident.marks]
    · rename_i h
      refine .bind_lt hs hn (keepsAt_arguments hexpr hs hn h).frame fun as k hk => ?_
      exact (keeps_finish rfl rfl rfl).bind fun e' => ih (fun j hj => hexpr j (Nat.lt_trans hj hk)) e'
    · exact .pure rfl

theorem keepsAt_operand (hs : s.Ready source) (hn : s.rest.length ≤ n) :
    KeepsAt s (startsOperand s.current.kind = true) [] (operand expr) marks := by
  refine .current_bind ((keepsAt_primary hexpr hs hn).bind hs fun e => keeps_remaining.bind fun r => ?_)
  exact (keeps_suffixes hexpr r e).of_le hn

omit hexpr in
theorem isFiller_of_prefixOperator {kind : TokenKind} {op : PrefixOperator}
    (h : PrefixOperator.ofToken? kind = some op) : isFiller kind = true := by
  have h := Option.isSome_of_eq_some h
  revert h
  cases kind <;> decide

omit hexpr in
theorem isFiller_of_binaryOperator {kind : TokenKind} {op : BinaryOperator}
    (h : BinaryOperator.ofToken? kind = some op) : isFiller kind = true := by
  have h := Option.isSome_of_eq_some h
  revert h
  cases kind <;> decide

omit hexpr in
theorem isFiller_of_assignment {kind : TokenKind} {op : BinaryOperator}
    (h : BinaryOperator.assignmentOfToken? kind = some op) : isFiller kind = true := by
  have h := Option.isSome_of_eq_some h
  revert h
  cases kind <;> decide

theorem keepsAt_unary (r : Nat) (hs : s.Ready source) (hn : s.rest.length ≤ n) :
    KeepsAt s (startsExpression s.current.kind = true ∧ 0 < r) [] (unary expr r) marks := by
  induction r generalizing n s with
  | zero => exact (keepsAt_operand hexpr hs hn).imp fun h => absurd h.2 (Nat.lt_irrefl 0)
  | succ r ih =>
    refine .current_bind ?_
    cases hop : PrefixOperator.ofToken? s.current.kind with
    | some op =>
      have hfiller := isFiller_of_prefixOperator hop
      refine (keepsAt_filler hs hfiller).bind_lt hs hn fun _ k hk => Keeps.bind (m := marks) ?_ fun e =>
        keeps_finish rfl rfl (List.append_nil _)
      exact fun s' hs' hn' => (ih (fun j hj => hexpr j (Nat.lt_trans hj hk)) hs' hn').imp False.elim
    | none =>
      refine (keepsAt_operand hexpr hs hn).imp fun h => ?_
      rw [startsOperand, h.1, hop]
      rfl

theorem keeps_unary (r : Nat) : Keeps source n [] (unary expr r) marks :=
  fun _ hs hn => (keepsAt_unary hexpr r hs hn).imp False.elim

theorem keeps_operators (r least : Nat) (left : Node Span) :
    Keeps source n left.marks (operators expr r least left) marks := by
  induction r generalizing n least left with
  | zero => exact .pure rfl
  | succ r ih =>
    intro s hs hn
    refine .current_bind ?_
    cases hop : BinaryOperator.ofToken? s.current.kind with
    | some op =>
      refine KeepsAt.ite (fun _ => .pure rfl) fun _ => ?_
      have hfiller := isFiller_of_binaryOperator hop
      refine (keepsAt_filler hs hfiller).bind_lt hs hn fun _ k hk => keeps_remaining.bind fun m => ?_
      have hexpr' : ∀ j < k, Keeps source j [] expr marks := fun j hj => hexpr j (Nat.lt_trans hj hk)
      refine (keeps_unary hexpr' m).frame.bind fun first => ?_
      refine (ih hexpr' op.precedence first).frame_append.bind fun right => ?_
      refine (keeps_finish rfl rfl ?_).bind fun e => ih hexpr' least e
      simp [marksBelow, Kind.map, Kind.children]
    | none => exact .pure rfl

end

/-! ### Statements -/

section

variable {expr : NodeParse}

section

variable (hexpr : Keeps source n [] expr marks)

include hexpr

theorem keeps_variableDeclaration {keyword : VariableKind} :
    Keeps source n [] (variableDeclaration expr keyword) marks := by
  refine keeps_current.bind fun _ => keeps_declaredName.bind fun i => ?_
  refine keeps_typeAnnotation.frame.bind fun t? => (keeps_initializer hexpr).frame.bind fun e? => ?_
  have hfinish : ∀ start, Keeps source n (([] ++ i.marks ++ optionMarks t?) ++ optionMarks e?)
      (finish start (.variableDeclaration i t? e?)) marks :=
    fun _ => keeps_finish rfl rfl (by simp [marksBelow, Kind.map, Kind.children, optionMarks, Ident.marks])
  exact .ite (keeps_report.bind fun _ => hfinish _) (hfinish _)

theorem keeps_variableDeclarations {keyword : VariableKind} (r : Nat) :
    Keeps source n [] (variableDeclarations (variableDeclaration expr keyword) r) listMarks := by
  induction r with
  | zero => exact (keeps_variableDeclaration hexpr).bind fun d => .pure (List.append_nil _)
  | succ r ih =>
    refine (keeps_variableDeclaration hexpr).bind fun d => (keeps_eat rfl).bind fun _ => ?_
    exact .ite (ih.frame.bind fun ds => .pure rfl) (.pure (List.append_nil _))

theorem keeps_condition : Keeps source n [] (condition expr) marks :=
  (keeps_expect rfl).bind fun _ => hexpr.bind fun _ => (keeps_expect rfl).bind fun _ => .pure rfl

end

theorem keepsAt_variableStatement {keyword : VariableKind} (hexpr : ∀ k < n, Keeps source k [] expr marks)
    (hs : s.Ready source) (hn : s.rest.length ≤ n) (h : isFiller s.current.kind = true) :
    KeepsAt s c [] (variableStatement expr keyword) marks := by
  refine (keepsAt_filler hs h).bind_lt hs hn fun _ k hk => keeps_remaining.bind fun r => ?_
  refine (keeps_variableDeclarations (hexpr k hk) r).bind fun ds => keeps_semicolon.bind fun _ => ?_
  exact keeps_finish rfl rfl rfl

/-- The mark of the declaration is the word in front of it. -/
theorem keepsAt_typeAlias (hs : s.Ready source) (hkind : s.current.kind = .identifier)
    (htext : s.current.text = "type") : KeepsAt s c [] typeAlias marks := by
  have hword : KeepsAt s True [] advance fun _ => [] ++ [.typeWord s.current.span.start] :=
    keepsAt_advance hs (by rw [hkind]; decide) (.typeWord hkind htext .nil)
      fun h => absurd (hkind.symm.trans h) (by decide)
  refine .of_true (hword.bind_at ?_)
  have hrest : Keeps source s.rest.length [.typeWord s.current.span.start] (do
      let name ← declaredName .identifierExpected
      let _ ← expect .equals
      let aliased ← type
      semicolon
      finish s.current.span.start (.typeAlias name aliased)) marks := by
    refine keeps_declaredName.bind fun i => (keeps_expect rfl).bind fun _ => keeps_type.frame.bind fun t => ?_
    refine keeps_semicolon.bind fun _ s' _ _ => ⟨[], ?_, .refl s', False.elim⟩
    show (Node.mk _ _).marks = _
    rw [marks_mk, List.append_nil]
    simp [Kind.marksAt, Kind.isTypeAlias, marksBelow, Kind.map, Kind.children, Ident.marks]
  obtain ⟨ms, -, htakes, -⟩ := hword
  exact hrest _ (htakes.ready hs) htakes.length_le

theorem keepsAt_returnStatement (hexpr : ∀ k < n, Keeps source k [] expr marks) (hs : s.Ready source)
    (hn : s.rest.length ≤ n) (h : isFiller s.current.kind = true) :
    KeepsAt s c [] (returnStatement expr) marks := by
  refine (keepsAt_filler hs h).bind_lt hs hn fun token k hk => .get_bind fun _ => ?_
  have hfinish : ∀ e? : Option (Node Span), Keeps source k (optionMarks e?) (do
      semicolon
      finish token.span.start (.returnStatement e?)) marks :=
    fun e? => keeps_semicolon.bind fun _ => keeps_finish rfl rfl rfl
  exact .ite (hfinish none) (((hexpr k hk).map optionMarks_some).bind hfinish)

theorem keepsAt_expressionStatement (hexpr : KeepsExpression source n expr) (hs : s.Ready source)
    (hn : s.rest.length ≤ n) :
    KeepsAt s (startsExpression s.current.kind = true) [] (expressionStatement expr) marks := by
  refine .current_bind ((hexpr s hs hn).bind hs fun e => keeps_semicolon.bind fun _ => ?_)
  exact keeps_finish rfl rfl (List.append_nil _)

variable {statement : Parse (Option (Node Span))}

/-- Behind a statement that takes a token nothing is stepped over. -/
theorem run_statements_succ {r : Nat} (hclose : s.current.kind ≠ close) (hne : s.current.kind ≠ .endOfFile)
    (hlt : (statement.run s).2.rest.length < s.rest.length) :
    (statements statement close (r + 1)).run s =
      (do let first? ← statement
          let more ← statements statement close r
          pure (first?.toList ++ more) : Parse (List (Node Span))).run s := by
  show StateT.run (if (s.current.kind == close || s.current.kind == .endOfFile) = true
    then pure [] else _ : Parse (List (Node Span))) s = _
  rw [if_neg (by simp [hclose, hne])]
  show StateT.run (if ((statement.run s).2.rest.length == s.rest.length) = true then _ else _ :
    Parse (List (Node Span))) (statement.run s).2 = _
  rw [if_neg (mt beq_iff_eq.mp (Nat.ne_of_lt hlt))]
  rfl

theorem keeps_statements (hstatement : KeepsStatement source n statement) (r : Nat) :
    Keeps source n [] (statements statement close r) listMarks := by
  induction r with
  | zero => exact .pure rfl
  | succ r ih =>
    intro s hs hn
    by_cases h : s.current.kind = close ∨ s.current.kind = .endOfFile
    · show KeepsAt s False [] (if (s.current.kind == close || s.current.kind == .endOfFile) = true
        then pure [] else _) listMarks
      rw [if_pos (by simpa using h)]
      exact .pure rfl
    obtain ⟨hclose, hne⟩ := not_or.mp h
    have hlt : (statement.run s).2.rest.length < s.rest.length := by
      obtain ⟨ms, -, -, hlt⟩ := hstatement s hs hn
      exact hlt hne
    rw [KeepsAt, run_statements_succ hclose hne hlt]
    refine (hstatement.keeps.bind fun first? => ?_) s hs hn
    exact ih.frame.bind fun more => .pure (listMarks_toList_append first? more)

/-- The statements of a whole text take all its tokens. -/
theorem rest_run_statements (hstatement : KeepsStatement source n statement) (r : Nat)
    (hs : s.Ready source) (hn : s.rest.length ≤ n) (hr : s.rest.length < r) :
    ((statements statement .endOfFile r).run s).2.rest = [] := by
  induction r generalizing s with
  | zero => exact absurd hr (Nat.not_lt_zero _)
  | succ r ih =>
    by_cases h : s.current.kind = .endOfFile
    · show (StateT.run (if (s.current.kind == .endOfFile || s.current.kind == .endOfFile) = true
        then pure [] else _ : Parse (List (Node Span))) s).2.rest = []
      rw [if_pos (by simpa using h)]
      exact hs.rest_eq_nil h
    · obtain ⟨ms, -, htakes, hlt⟩ := hstatement s hs hn
      rw [run_statements_succ h h (hlt h)]
      exact ih (htakes.ready hs) (Nat.le_trans htakes.length_le hn)
        (Nat.lt_of_lt_of_le (hlt h) (Nat.le_of_lt_succ hr))

theorem keepsAt_block (hstatement : ∀ k < n, KeepsStatement source k statement) (hs : s.Ready source)
    (hn : s.rest.length ≤ n) (h : s.current.kind = .leftBrace) : KeepsAt s c [] (block statement) marks := by
  refine .current_bind (.bind_lt hs hn ((keepsAt_expect hs rfl).imp fun _ => h) fun _ k hk => ?_)
  refine keeps_remaining.bind fun r => (keeps_statements (hstatement k hk) (r + 1)).bind fun ss => ?_
  exact (keeps_expect rfl).bind fun _ => keeps_finish rfl rfl rfl

theorem keeps_embedded (hstatement : KeepsStatement source n statement) :
    Keeps source n [] (embedded statement) marks := by
  refine hstatement.keeps.bind fun n? => ?_
  cases n? with
  | some a => exact .pure (optionMarks_some a).symm
  | none => exact .get_bind fun _ => .pure rfl

section

variable (hstatement : ∀ k < n, KeepsStatement source k statement)
  (hexpr : ∀ k < n, Keeps source k [] expr marks)

include hstatement hexpr

theorem keepsAt_functionDeclaration (hs : s.Ready source) (hn : s.rest.length ≤ n)
    (h : isFiller s.current.kind = true) :
    KeepsAt s c [] (functionDeclaration statement expr) marks := by
  refine (keepsAt_filler hs h).bind_lt hs hn fun token k hk => keeps_declaredName.bind fun i => ?_
  refine (keeps_parameters (hexpr k hk)).frame.bind fun ps => keeps_typeAnnotation.frame.bind fun t? => ?_
  have hfinish : ∀ b : Node Span,
      Keeps source k (([] ++ i.marks ++ listMarks ps ++ optionMarks t?) ++ b.marks)
        (finish token.span.start (.functionDeclaration i ps t? b)) marks :=
    fun b => keeps_finish rfl rfl
      (by simp [marksBelow, Kind.map, Kind.children, listMarks, optionMarks, Ident.marks])
  intro s' hs' hn'
  refine .isAt_ite (fun hbrace => ?_) fun _ => ?_
  · have hblock := keepsAt_block (c := False) (fun j hj => hstatement j (Nat.lt_trans hj hk)) hs' hn' hbrace
    exact hblock.frame.bind hs' fun b => (hfinish b).of_le hn'
  · refine (keeps_reportHere.bind fun _ => .get_bind fun s'' => ?_) s' hs' hn'
    have hempty : (Node.mk (Span.point s''.lastEnd) (.block [])).marks = [] := rfl
    have hpoint := hfinish (.mk (.point s''.lastEnd) (.block []))
    rwa [hempty, List.append_nil] at hpoint

theorem keepsAt_ifStatement (hs : s.Ready source) (hn : s.rest.length ≤ n)
    (h : isFiller s.current.kind = true) : KeepsAt s c [] (ifStatement statement expr) marks := by
  refine (keepsAt_filler hs h).bind_lt hs hn fun token k hk => (keeps_condition (hexpr k hk)).bind fun e => ?_
  refine (keeps_embedded (hstatement k hk)).frame.bind fun a => ?_
  have hfinish : ∀ b? : Option (Node Span), Keeps source k ((e.marks ++ a.marks) ++ optionMarks b?)
      (finish token.span.start (.ifStatement e a b?)) marks :=
    fun b? => keeps_finish rfl rfl (by simp [marksBelow, Kind.map, Kind.children, optionMarks])
  refine (keeps_eat rfl).bind fun _ => .ite ?_ ?_
  · exact ((keeps_embedded (hstatement k hk)).map optionMarks_some).frame.bind hfinish
  · have hnone := hfinish none
    rwa [optionMarks_none, List.append_nil] at hnone

theorem keepsAt_whileStatement (hs : s.Ready source) (hn : s.rest.length ≤ n)
    (h : isFiller s.current.kind = true) : KeepsAt s c [] (whileStatement statement expr) marks := by
  refine (keepsAt_filler hs h).bind_lt hs hn fun token k hk => (keeps_condition (hexpr k hk)).bind fun e => ?_
  refine (keeps_embedded (hstatement k hk)).frame.bind fun a => keeps_finish rfl rfl ?_
  simp [marksBelow, Kind.map, Kind.children]

/-! ### Functions without a name and assignments -/

/-- A function without a name takes the name or the parentheses it starts with. -/
theorem keepsAt_arrowFunction (hs : s.Ready source) (hn : s.rest.length ≤ n)
    (h : s.startsArrowFunction = true) : KeepsAt s c [] (arrowFunction statement expr) marks := by
  have hrest : ∀ start (ps : List (Node Span)), ∀ k < n, Keeps source k (listMarks ps) (do
      let returnType? ← typeAnnotation
      let _ ← expect .arrow
      let body ← if ← isAt .leftBrace then block statement else expr
      finish start (.arrowFunction ps returnType? body)) marks := by
    intro start ps k hk
    refine keeps_typeAnnotation.frame.bind fun t? => (keeps_expect rfl).bind fun _ => ?_
    have hfinish : ∀ b : Node Span, Keeps source k ((listMarks ps ++ optionMarks t?) ++ b.marks)
        (finish start (.arrowFunction ps t? b)) marks :=
      fun b => keeps_finish rfl rfl (by simp [marksBelow, Kind.map, Kind.children, listMarks, optionMarks])
    intro s' hs' hn'
    refine .isAt_ite (fun hbrace => ?_) fun _ => ?_
    · have hblock := keepsAt_block (c := False) (fun j hj => hstatement j (Nat.lt_trans hj hk)) hs' hn' hbrace
      exact hblock.frame.bind hs' fun b => (hfinish b).of_le hn'
    · exact ((hexpr k hk).frame.bind hfinish) s' hs' hn'
  refine .current_bind (.isAt_ite (fun hname => ?_) fun hname => ?_)
  · refine .bind_lt hs hn ((keepsAt_declaredName hs).imp fun _ => hname) fun i k hk => ?_
    have hparam : listMarks [.mk i.label (.parameter i none none)] = [] ++ i.marks :=
      (List.append_nil _).trans ((marks_eq_marksBelow rfl rfl).trans (List.append_nil _))
    exact (Keeps.pure hparam).bind fun ps => hrest _ ps k hk
  · have hparen : s.current.kind = .leftParen := by
      revert h hname
      rw [State.startsArrowFunction]
      cases s.current.kind <;> simp
    exact .bind_lt hs hn (keepsAt_parameters hexpr hs hn hparen) fun ps k hk => hrest _ ps k hk

theorem keepsAt_assignment (hs : s.Ready source) (hn : s.rest.length ≤ n) :
    KeepsAt s (startsExpression s.current.kind = true) [] (assignment statement expr) marks := by
  have hassigned : ∀ (op : BinaryOperator) (left : Node Span) (s' : State), s'.Ready source →
      s'.rest.length ≤ n → isFiller s'.current.kind = true → KeepsAt s' False left.marks (do
        let _ ← advance
        let right ← expr
        finish left.label.start (.binary op left right)) marks := by
    intro op left s' hs' hn' hfiller
    refine (keepsAt_filler hs' hfiller).bind_lt hs' hn' fun _ k hk => ?_
    refine (hexpr k hk).frame.bind fun right => keeps_finish rfl rfl ?_
    simp [marksBelow, Kind.map, Kind.children]
  refine .get_bind (.ite (fun harrow => keepsAt_arrowFunction hstatement hexpr hs hn harrow) fun _ => ?_)
  have hpos : startsExpression s.current.kind = true → 0 < s.rest.length := by
    intro h
    have hne : s.current.kind ≠ .endOfFile := by
      intro hend
      rw [hend] at h
      exact absurd h (by decide)
    rw [(hs.rest_eq hne).1]
    exact Nat.succ_pos _
  refine .remaining_bind (((keepsAt_unary hexpr _ hs hn).imp fun h => ⟨h, hpos h⟩).bind hs fun first => ?_)
  refine .of_le ?_ hn
  refine keeps_remaining.bind fun r => (keeps_operators hexpr r 0 first).bind fun left => ?_
  intro s' hs' hn'
  refine .current_bind ?_
  cases hop : BinaryOperator.assignmentOfToken? s'.current.kind with
  | none => exact .pure rfl
  | some op =>
    have hfiller := isFiller_of_assignment hop
    refine .ite (fun _ => .report ?_) fun _ => hassigned op left s' hs' hn' hfiller
    refine hassigned op left _ (hs'.reported ..) ?_ ?_
    · rwa [State.rest_reported]
    · rwa [State.current_reported]

/-! ### Statements of every form -/

theorem keepsStatement_anyStatement (hexpr' : KeepsExpression source n expr) :
    KeepsStatement source n (anyStatement statement expr) := by
  intro s hs hn
  have hsome : ∀ {p : NodeParse}, KeepsAt s (s.current.kind ≠ .endOfFile) [] p marks →
      KeepsAt s (s.current.kind ≠ .endOfFile) [] (some <$> p) optionMarks :=
    fun h => h.map optionMarks_some
  refine .get_bind ?_
  split
  · rename_i h
    exact hsome (keepsAt_block hstatement hs hn h)
  · rename_i h
    exact hsome (keepsAt_variableStatement hexpr hs hn (h ▸ rfl))
  · rename_i h
    exact hsome (keepsAt_variableStatement hexpr hs hn (h ▸ rfl))
  · rename_i h
    exact hsome (keepsAt_variableStatement hexpr hs hn (h ▸ rfl))
  · rename_i h
    exact hsome (keepsAt_functionDeclaration hstatement hexpr hs hn (h ▸ rfl))
  · rename_i h
    exact hsome (keepsAt_ifStatement hstatement hexpr hs hn (h ▸ rfl))
  · rename_i h
    exact hsome (keepsAt_whileStatement hstatement hexpr hs hn (h ▸ rfl))
  · rename_i h
    exact hsome (keepsAt_returnStatement hexpr hs hn (h ▸ rfl))
  · rename_i h
    refine .of_true ((keepsAt_filler hs (h ▸ rfl)).bind hs fun _ => ?_)
    exact (keeps_finish rfl rfl rfl).map optionMarks_some
  · rename_i h
    exact keepsAt_reportHere_advance hs (h ▸ rfl) (.pure rfl)
  · by_cases halias : s.startsTypeAlias = true
    · rw [if_pos halias]
      simp only [State.startsTypeAlias, Bool.and_eq_true, beq_iff_eq] at halias
      exact hsome (keepsAt_typeAlias hs halias.1.1.1 halias.1.1.2)
    rw [if_neg halias]
    by_cases hstarts : startsExpression s.current.kind = true
    · rw [if_pos hstarts]
      exact hsome ((keepsAt_expressionStatement hexpr' hs hn).imp fun _ => hstarts)
    rw [if_neg hstarts]
    refine keepsAt_reportHere_advance hs ?_ (.pure rfl)
    revert hstarts
    cases s.current.kind <;> decide

end

end

/-- Statements and expressions keep what they take if they may be nested as deep as there are tokens. -/
theorem keeps_nested (depth n : Nat) :
    (2 * n + 2 ≤ depth → KeepsStatement source n (statement depth)) ∧
      (2 * n + 1 ≤ depth → KeepsExpression source n (expression depth)) := by
  induction depth generalizing n with
  | zero => exact ⟨fun h => by omega, fun h => by omega⟩
  | succ depth ih =>
    have hstatement : 2 * n ≤ depth → ∀ k < n, KeepsStatement source k (statement depth) :=
      fun h k hk => (ih k).1 (by omega)
    have hexpr : 2 * n ≤ depth → ∀ k < n, Keeps source k [] (expression depth) marks :=
      fun h k hk => ((ih k).2 (by omega)).keeps
    constructor
    · intro h
      exact keepsStatement_anyStatement (hstatement (by omega)) (hexpr (by omega)) ((ih n).2 (by omega))
    · intro h s hs hn
      exact keepsAt_assignment (hstatement (by omega)) (hexpr (by omega)) hs hn

theorem run_remaining_bind {γ : Type} (s : State) (f : Nat → Parse γ) :
    (remaining >>= f).run s = (f s.rest.length).run s :=
  rfl

theorem run_sourceFile (s : State) :
    sourceFile.run s =
      (statements (statement (2 * s.rest.length + 2)) .endOfFile (s.rest.length + 1)).run s := by
  rw [sourceFile, run_remaining_bind]

/-- Reading a whole text takes all its tokens, and what is read has the marks they have left. -/
theorem takes_sourceFile (hs : s.Ready source) :
    Takes s (sourceFile.run s).2 (listMarks (sourceFile.run s).1) ∧ (sourceFile.run s).2.rest = [] := by
  have hstatement : KeepsStatement source s.rest.length (statement (2 * s.rest.length + 2)) :=
    (keeps_nested _ _).1 (Nat.le_refl _)
  have hkeeps : Keeps source s.rest.length []
      (statements (statement (2 * s.rest.length + 2)) .endOfFile (s.rest.length + 1)) listMarks :=
    keeps_statements hstatement _
  obtain ⟨ms, hm, htakes, -⟩ := hkeeps s hs (Nat.le_refl _)
  rw [List.nil_append] at hm
  rw [run_sourceFile, hm]
  exact ⟨htakes, rest_run_statements hstatement _ hs (Nat.le_refl _) (Nat.lt_succ_self _)⟩

end ScriptAnalysis.Syntax.Parser

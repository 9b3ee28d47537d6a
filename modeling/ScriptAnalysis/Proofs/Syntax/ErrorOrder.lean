import ScriptAnalysis.Ast.Conversion
import ScriptAnalysis.Proofs.Syntax.Clean

/-!
# The order of syntax errors

Reading goes forward, and an error is reported at the next token. So the errors come in the order of the text,
but for two of them: a constant without a value is reported at its name and an assignment to no target at its
left-hand side, and reading has gone past both by then. Errors found in between start further right and are
listed before. `Proceeds lo p starts` says that `p` goes forward from any place behind `lo` and keeps the
errors in order up to that exception, and that what it returns starts before the place it has got to.

What starts where matters only for the names of variables and for the operands of an assignment, so `starts`
is nothing for all other readers.
-/

namespace ScriptAnalysis.Syntax

/-- Whether the error is reported at something that has been read already. -/
def ErrorCause.looksBack : ErrorCause → Bool
  | constWithoutValue | invalidTarget => true
  | _ => false

/-- The errors are in the order of the text. -/
def InSourceOrder (errors : List Error) : Prop := errors.Pairwise (·.span.start ≤ ·.span.start)

/-- The errors are in the order of the text, but for those that look back. -/
def InReadingOrder (errors : List Error) : Prop :=
  errors.Pairwise fun earlier later => later.cause.looksBack = false → earlier.span.start ≤ later.span.start

namespace Parser

/-- The next token starts at `lo` or later, the errors found start there or before, and they are in the order
of reading. -/
structure State.Past (lo : Nat) (s : State) : Prop where
  tokens : (s.rest ++ [s.ending]).Pairwise (·.span.start ≤ ·.span.start)
  le_offset : lo ≤ s.offset
  errors_le : ∀ e ∈ s.errors, e.span.start ≤ s.offset
  ordered : InReadingOrder s.errors.reverse

namespace State.Past

variable {s : State} {lo lo' : Nat} {cause : ErrorCause} {span : Span}

theorem mono (h : s.Past lo') (hle : lo ≤ lo') : s.Past lo := { h with le_offset := Nat.le_trans hle h.le_offset }

/-- Where reading has got to is a bound of its own. -/
theorem here (h : s.Past lo) : s.Past s.offset := { h with le_offset := Nat.le_refl _ }

theorem offset_le_advanced (h : s.Past lo) : s.offset ≤ s.advanced.offset := by
  obtain ⟨rest, ending, lastEnd, errors⟩ := s
  cases rest with
  | nil => exact Nat.le_refl _
  | cons t ts =>
    obtain ⟨hnext, -⟩ := List.pairwise_cons.mp h.tokens
    cases ts with
    | nil => exact hnext ending List.mem_cons_self
    | cons u us => exact hnext u List.mem_cons_self

theorem advanced (h : s.Past lo) : s.advanced.Past lo := by
  have hle := h.offset_le_advanced
  have hreach : ∀ e ∈ s.errors, e.span.start ≤ s.advanced.offset :=
    fun e he => Nat.le_trans (h.errors_le e he) hle
  have hlo := Nat.le_trans h.le_offset hle
  obtain ⟨rest, ending, lastEnd, errors⟩ := s
  cases rest with
  | nil => exact h
  | cons t ts => exact ⟨h.tokens.of_cons, hlo, hreach, h.ordered⟩

/-- An error starts at the next token, or it starts before and looks back. -/
theorem reported (h : s.Past lo) (hle : span.start ≤ s.offset)
    (hcause : cause.looksBack = false → span.start = s.offset) : (s.reported cause span).Past lo := by
  have hadded : ({ s with errors := ⟨cause, span⟩ :: s.errors } : State).Past lo := by
    refine ⟨h.tokens, h.le_offset, List.forall_mem_cons.mpr ⟨hle, h.errors_le⟩, ?_⟩
    rw [InReadingOrder, List.reverse_cons, List.pairwise_append]
    refine ⟨h.ordered, List.pairwise_singleton .., fun e he e' he' hback => ?_⟩
    obtain rfl := List.mem_singleton.mp he'
    rw [hcause hback]
    exact h.errors_le e (List.mem_reverse.mp he)
  rw [State.reported]
  split
  · split
    · exact h
    · exact ‹s.errors = _› ▸ hadded
  · exact ‹s.errors = _› ▸ hadded

end State.Past

/-- From any place behind `lo` the reader goes forward and keeps the errors in the order of reading; what it
returns starts before the place it has got to. -/
def Proceeds {γ : Type} (lo : Nat) (p : Parse γ) (starts : γ → Nat) : Prop :=
  ∀ s : State, s.Past lo → (p.run s).2.Past lo ∧ starts (p.run s).1 ≤ (p.run s).2.offset

/-- The reader goes forward from any place, whatever it returns. -/
abbrev Moves {γ : Type} (p : Parse γ) : Prop := ∀ lo, Proceeds lo p fun _ => 0

variable {γ δ : Type} {lo : Nat} {p q : Parse γ} {starts : γ → Nat} {ends : δ → Nat}

namespace Proceeds

theorem pure {x : γ} (h : starts x ≤ lo) : Proceeds lo (Pure.pure x) starts :=
  fun _ hs => ⟨hs, Nat.le_trans h hs.le_offset⟩

theorem imp {starts' : γ → Nat} (hp : Proceeds lo p starts) (h : ∀ x, starts' x ≤ starts x) :
    Proceeds lo p starts' := by
  intro s hs
  obtain ⟨hs', hle⟩ := hp s hs
  exact ⟨hs', Nat.le_trans (h _) hle⟩

/-- Where a thing starts can be forgotten. -/
theorem forget (hp : Proceeds lo p starts) : Proceeds lo p fun _ => 0 := hp.imp fun _ => Nat.zero_le _

/-- What the first reader returns starts before the place from which the second one goes on. -/
theorem bind {f : γ → Parse δ} (hp : Proceeds lo p starts)
    (hf : ∀ x lo', lo ≤ lo' → starts x ≤ lo' → Proceeds lo' (f x) ends) : Proceeds lo (p >>= f) ends := by
  intro s hs
  obtain ⟨hs', hle⟩ := hp s hs
  obtain ⟨hs'', hle'⟩ := hf _ _ hs'.le_offset hle _ hs'.here
  exact ⟨hs''.mono hs'.le_offset, hle'⟩

/-- One reader behind another one. -/
theorem andThen {f : γ → Parse δ} (hp : Proceeds lo p starts) (hf : ∀ x, Proceeds lo (f x) ends) :
    Proceeds lo (p >>= f) ends := by
  intro s hs
  obtain ⟨hs', -⟩ := hp s hs
  exact hf _ _ hs'

theorem map {g : γ → δ} (hp : Proceeds lo p starts) : Proceeds lo (g <$> p) fun _ => 0 := by
  intro s hs
  obtain ⟨hs', -⟩ := hp s hs
  exact ⟨hs', Nat.zero_le _⟩

theorem ite {c : Prop} [Decidable c] (hp : Proceeds lo p starts) (hq : Proceeds lo q starts) :
    Proceeds lo (if c then p else q) starts := by
  split
  · exact hp
  · exact hq

/-- Looking at the state. -/
theorem get_bind {f : State → Parse δ} (hf : ∀ s, Proceeds lo (f s) ends) : Proceeds lo (get >>= f) ends :=
  fun s hs => hf s s hs

end Proceeds

/-! ### Steps -/

variable {kind : TokenKind} {cause : ErrorCause} {close : TokenKind} {start : Nat} {span : Span}
  {k : Kind (Ident Span) (Node Span)}

theorem proceeds_current : Proceeds lo current (·.span.start) := fun _ hs => ⟨hs, Nat.le_refl _⟩

theorem moves_isAt : Moves (isAt kind) := fun _ _ hs => ⟨hs, Nat.zero_le _⟩

theorem moves_remaining : Moves remaining := fun _ _ hs => ⟨hs, Nat.zero_le _⟩

theorem proceeds_advance : Proceeds lo advance (·.span.start) :=
  fun _ hs => ⟨hs.advanced, hs.offset_le_advanced⟩

/-- An error that looks back is reported at something before the next token. -/
theorem proceeds_report (hle : span.start ≤ lo) (hback : cause.looksBack = true) :
    Proceeds lo (report cause span) fun _ => 0 := by
  intro s hs
  refine ⟨hs.reported (Nat.le_trans hle hs.le_offset) fun h => ?_, Nat.zero_le _⟩
  rw [hback] at h
  cases h

theorem moves_reportHere : Moves (reportHere cause) :=
  fun _ _ hs => ⟨hs.reported (Nat.le_refl _) fun _ => rfl, Nat.zero_le _⟩

theorem moves_eat : Moves (eat kind) :=
  fun lo => (moves_isAt lo).andThen fun _ =>
    .ite (proceeds_advance.andThen fun _ => .pure (Nat.zero_le _)) (.pure (Nat.zero_le _))

theorem moves_expect : Moves (expect kind) :=
  fun lo => (moves_eat lo).andThen fun _ =>
    .ite (.pure (Nat.zero_le _)) ((moves_reportHere lo).andThen fun _ => .pure (Nat.zero_le _))

theorem moves_semicolon : Moves semicolon :=
  fun lo => (moves_eat lo).andThen fun _ =>
    .ite (.pure (Nat.zero_le _)) (.get_bind fun _ => .ite (.pure (Nat.zero_le _)) (moves_reportHere lo))

theorem proceeds_finish (hstart : start ≤ lo) : Proceeds lo (finish start k) (·.label.start) :=
  fun _ hs => ⟨hs, Nat.le_trans hstart hs.le_offset⟩

theorem moves_finish : Moves (finish start k) := fun _ _ hs => ⟨hs, Nat.zero_le _⟩

theorem proceeds_missingName : Proceeds lo missingName (·.label.start) :=
  proceeds_current.bind fun _ _ _ hle => .pure hle

theorem proceeds_missingExpression : Proceeds lo missingExpression (·.label.start) :=
  proceeds_missingName.bind fun _ _ _ hle => .pure hle

theorem proceeds_declaredName : Proceeds lo (declaredName cause) (·.label.start) :=
  (moves_isAt lo).andThen fun _ => .ite (proceeds_advance.bind fun _ _ _ hle => .pure hle)
    ((moves_reportHere lo).andThen fun _ => proceeds_missingName)

theorem moves_memberName : Moves memberName :=
  fun lo => proceeds_current.andThen fun _ => .ite (proceeds_advance.andThen fun _ => .pure (Nat.zero_le _))
    ((moves_reportHere lo).andThen fun _ => proceeds_missingName.forget)

theorem moves_items {item : NodeParse} (hitem : Moves item) (r : Nat) : Moves (items item close r) := by
  intro lo
  induction r with
  | zero => exact .pure (Nat.zero_le _)
  | succ r ih =>
    refine (moves_isAt lo).andThen fun _ => (moves_isAt lo).andThen fun _ => .ite (.pure (Nat.zero_le _)) ?_
    refine (hitem lo).andThen fun _ => (moves_eat lo).andThen fun _ => ?_
    exact .ite (ih.andThen fun _ => .pure (Nat.zero_le _)) (.pure (Nat.zero_le _))

/-! ### Types -/

theorem moves_brackets (r : Nat) {t : Node Span} : Moves (brackets start r t) := by
  intro lo
  induction r generalizing t with
  | zero => exact .pure (Nat.zero_le _)
  | succ r ih =>
    refine (moves_isAt lo).andThen fun _ => .get_bind fun _ => .ite ?_ (.pure (Nat.zero_le _))
    refine proceeds_advance.andThen fun _ => proceeds_advance.andThen fun _ => ?_
    exact (moves_finish lo).andThen fun _ => ih

theorem moves_primaryType {type : NodeParse} (htype : Moves type) : Moves (primaryType type) := by
  refine fun lo => proceeds_current.andThen fun token => ?_
  split
  · refine proceeds_advance.andThen fun _ => ?_
    split
    · exact .pure (Nat.zero_le _)
    · exact .pure (Nat.zero_le _)
  · exact proceeds_advance.andThen fun _ => .pure (Nat.zero_le _)
  · exact proceeds_advance.andThen fun _ => (htype lo).andThen fun _ =>
      (moves_expect lo).andThen fun _ => .pure (Nat.zero_le _)
  · exact (moves_reportHere lo).andThen fun _ => proceeds_missingName.andThen fun _ => .pure (Nat.zero_le _)

theorem moves_arrayType {type : NodeParse} (htype : Moves type) : Moves (arrayType type) :=
  fun lo => proceeds_current.andThen fun _ => (moves_primaryType htype lo).andThen fun _ =>
    (moves_remaining lo).andThen fun r => moves_brackets r lo

theorem moves_moreMembers {member : NodeParse} (hmember : Moves member) (r : Nat) :
    Moves (moreMembers member r) := by
  intro lo
  induction r with
  | zero => exact .pure (Nat.zero_le _)
  | succ r ih =>
    refine (moves_eat lo).andThen fun _ => .ite ?_ (.pure (Nat.zero_le _))
    exact (hmember lo).andThen fun _ => ih.andThen fun _ => .pure (Nat.zero_le _)

theorem moves_typeWithin (r : Nat) : Moves (typeWithin r) := by
  induction r with
  | zero => exact fun _ => proceeds_missingExpression.forget
  | succ r ih =>
    refine fun lo => proceeds_current.andThen fun _ => (moves_arrayType ih lo).andThen fun first => ?_
    refine (moves_remaining lo).andThen fun m => (moves_moreMembers (moves_arrayType ih) m lo).andThen fun ts => ?_
    cases ts with
    | nil => exact .pure (Nat.zero_le _)
    | cons second more => exact moves_finish lo

theorem moves_type : Moves type := fun lo => (moves_remaining lo).andThen fun m => moves_typeWithin (m + 1) lo

theorem moves_ascription : Moves typeAnnotation :=
  fun lo => (moves_eat lo).andThen fun _ =>
    .ite ((moves_type lo).andThen fun _ => .pure (Nat.zero_le _)) (.pure (Nat.zero_le _))

theorem moves_typeAlias : Moves typeAlias :=
  fun lo => proceeds_advance.andThen fun _ => proceeds_declaredName.andThen fun _ =>
    (moves_expect lo).andThen fun _ => (moves_type lo).andThen fun _ =>
      (moves_semicolon lo).andThen fun _ => moves_finish lo

/-! ### Expressions -/

section

variable {expr : NodeParse} (hexpr : Moves expr)

include hexpr

theorem moves_initializer : Moves (initializer expr) :=
  fun lo => (moves_eat lo).andThen fun _ =>
    .ite ((hexpr lo).andThen fun _ => .pure (Nat.zero_le _)) (.pure (Nat.zero_le _))

theorem moves_parameter : Moves (parameter expr) :=
  fun lo => proceeds_current.andThen fun _ => proceeds_declaredName.andThen fun _ =>
    (moves_ascription lo).andThen fun _ => (moves_initializer hexpr lo).andThen fun _ => moves_finish lo

theorem moves_parameters : Moves (parameters expr) := by
  refine fun lo => (moves_expect lo).andThen fun _ => .ite ?_ (.pure (Nat.zero_le _))
  refine (moves_remaining lo).andThen fun r => (moves_items (moves_parameter hexpr) (r + 1) lo).andThen fun _ => ?_
  exact (moves_expect lo).andThen fun _ => .pure (Nat.zero_le _)

theorem moves_arguments : Moves (arguments expr) :=
  fun lo => (moves_expect lo).andThen fun _ => (moves_remaining lo).andThen fun r =>
    (moves_items hexpr (r + 1) lo).andThen fun _ => (moves_expect lo).andThen fun _ => .pure (Nat.zero_le _)

/-- What an expression starts with is behind the place where it began. -/
theorem proceeds_primary : Proceeds lo (primary expr) (·.label.start) := by
  refine proceeds_current.bind fun token lo' _ htoken => ?_
  have hleaf : ∀ k : Kind (Ident Span) (Node Span),
      Proceeds lo' (do let _ ← advance; pure (Node.mk token.span k)) (·.label.start) :=
    fun k => proceeds_advance.andThen fun _ => .pure htoken
  split
  · exact hleaf _
  · exact hleaf _
  · exact hleaf _
  · exact hleaf _
  · exact hleaf _
  · exact hleaf _
  · exact proceeds_advance.andThen fun _ => (hexpr lo').andThen fun _ =>
      (moves_expect lo').andThen fun _ => proceeds_finish htoken
  · exact proceeds_advance.andThen fun _ => (moves_remaining lo').andThen fun r =>
      (moves_items hexpr (r + 1) lo').andThen fun _ => (moves_expect lo').andThen fun _ => proceeds_finish htoken
  · exact (moves_reportHere lo').andThen fun _ => proceeds_advance.andThen fun _ => proceeds_missingExpression
  · exact (moves_reportHere lo').andThen fun _ => proceeds_missingExpression

theorem proceeds_suffixes (hstart : start ≤ lo) (r : Nat) {e : Node Span} (he : e.label.start ≤ lo) :
    Proceeds lo (suffixes expr start r e) (·.label.start) := by
  induction r generalizing lo e with
  | zero => exact .pure he
  | succ r ih =>
    refine proceeds_current.andThen fun _ => ?_
    have hmore : ∀ k, Proceeds lo (do suffixes expr start r (← finish start k)) (·.label.start) :=
      fun k => (proceeds_finish hstart).bind fun _ _ hle he' => ih (Nat.le_trans hstart hle) he'
    split
    · exact proceeds_advance.andThen fun _ => (moves_memberName lo).andThen fun _ => hmore _
    · exact (moves_arguments hexpr lo).andThen fun _ => hmore _
    · exact .pure he

theorem proceeds_operand : Proceeds lo (operand expr) (·.label.start) := by
  refine proceeds_current.bind fun token lo' _ htoken => ?_
  refine (proceeds_primary hexpr).bind fun first lo'' hle hfirst => (moves_remaining lo'').andThen fun r => ?_
  exact proceeds_suffixes hexpr (Nat.le_trans htoken hle) r hfirst

theorem proceeds_unary (r : Nat) : Proceeds lo (unary expr r) (·.label.start) := by
  induction r generalizing lo with
  | zero => exact proceeds_operand hexpr
  | succ r ih =>
    refine proceeds_current.bind fun token lo' _ htoken => ?_
    split
    · exact proceeds_advance.andThen fun _ => ih.andThen fun _ => proceeds_finish htoken
    · exact proceeds_operand hexpr

theorem proceeds_operators (r least : Nat) {left : Node Span} (hleft : left.label.start ≤ lo) :
    Proceeds lo (operators expr r least left) (·.label.start) := by
  induction r generalizing lo least left with
  | zero => exact .pure hleft
  | succ r ih =>
    refine proceeds_current.andThen fun token => ?_
    split
    · refine .ite (.pure hleft) (proceeds_advance.andThen fun _ => (moves_remaining lo).andThen fun m => ?_)
      refine (proceeds_unary hexpr m).bind fun first lo' hle hfirst => ?_
      refine (ih _ hfirst).andThen fun right => ?_
      exact (proceeds_finish (Nat.le_trans hleft hle)).bind fun _ _ _ hboth => ih least hboth
    · exact .pure hleft

/-! ### Statements -/

/-- A constant without a value is reported at its name, which has been read before. -/
theorem moves_variableDeclaration {keyword : VariableKind} : Moves (variableDeclaration expr keyword) := by
  refine fun lo => proceeds_current.andThen fun token => proceeds_declaredName.bind fun name lo' _ hname => ?_
  refine (moves_ascription lo').andThen fun t? => (moves_initializer hexpr lo').andThen fun e? => ?_
  exact .ite ((proceeds_report hname rfl).andThen fun _ => moves_finish lo') (moves_finish lo')

theorem moves_variableDeclarations {keyword : VariableKind} (r : Nat) :
    Moves (variableDeclarations (variableDeclaration expr keyword) r) := by
  intro lo
  induction r with
  | zero => exact (moves_variableDeclaration hexpr lo).andThen fun _ => .pure (Nat.zero_le _)
  | succ r ih =>
    refine (moves_variableDeclaration hexpr lo).andThen fun _ => (moves_eat lo).andThen fun _ => ?_
    exact .ite (ih.andThen fun _ => .pure (Nat.zero_le _)) (.pure (Nat.zero_le _))

theorem moves_variableStatement {keyword : VariableKind} : Moves (variableStatement expr keyword) :=
  fun lo => proceeds_advance.andThen fun _ => (moves_remaining lo).andThen fun r =>
    (moves_variableDeclarations hexpr r lo).andThen fun _ =>
      (moves_semicolon lo).andThen fun _ => moves_finish lo

theorem moves_condition : Moves (condition expr) :=
  fun lo => (moves_expect lo).andThen fun _ => (hexpr lo).andThen fun _ =>
    (moves_expect lo).andThen fun _ => .pure (Nat.zero_le _)

theorem moves_returnStatement : Moves (returnStatement expr) := by
  refine fun lo => proceeds_advance.andThen fun _ => .get_bind fun s => ?_
  exact .ite ((moves_semicolon lo).andThen fun _ => moves_finish lo)
    ((hexpr lo).map.andThen fun _ => (moves_semicolon lo).andThen fun _ => moves_finish lo)

theorem moves_expressionStatement : Moves (expressionStatement expr) :=
  fun lo => proceeds_current.andThen fun _ => (hexpr lo).andThen fun _ =>
    (moves_semicolon lo).andThen fun _ => moves_finish lo

end

section

variable {statement : Parse (Option (Node Span))} (hstatement : Moves statement)

include hstatement

theorem moves_statements (r : Nat) : Moves (statements statement close r) := by
  intro lo
  induction r with
  | zero => exact .pure (Nat.zero_le _)
  | succ r ih =>
    refine (moves_isAt lo).andThen fun _ => (moves_isAt lo).andThen fun _ => .ite (.pure (Nat.zero_le _)) ?_
    refine (moves_remaining lo).andThen fun before => (hstatement lo).andThen fun s? => ?_
    have hmore : Proceeds lo (do
        let more ← statements statement close r
        pure (s?.toList ++ more)) fun _ => 0 :=
      ih.andThen fun _ => .pure (Nat.zero_le _)
    exact (moves_remaining lo).andThen fun _ => .ite (proceeds_advance.andThen fun _ => hmore) hmore

theorem moves_block : Moves (block statement) :=
  fun lo => proceeds_current.andThen fun _ => (moves_expect lo).andThen fun _ =>
    (moves_remaining lo).andThen fun r => (moves_statements hstatement (r + 1) lo).andThen fun _ =>
      (moves_expect lo).andThen fun _ => moves_finish lo

theorem moves_embedded : Moves (embedded statement) := by
  refine fun lo => (hstatement lo).andThen fun s? => ?_
  cases s? with
  | some s => exact .pure (Nat.zero_le _)
  | none => exact .get_bind fun _ => .pure (Nat.zero_le _)

variable {expr : NodeParse} (hexpr : Moves expr)

include hexpr

theorem moves_arrowFunction : Moves (arrowFunction statement expr) := by
  refine fun lo => proceeds_current.andThen fun token => ?_
  have hrest : ∀ ps : List (Node Span), Proceeds lo (do
      let returnType? ← typeAnnotation
      let _ ← expect .arrow
      let body ← if ← isAt .leftBrace then block statement else expr
      finish token.span.start (.arrowFunction ps returnType? body)) fun _ => 0 := by
    intro ps
    refine (moves_ascription lo).andThen fun _ => (moves_expect lo).andThen fun _ => ?_
    exact (moves_isAt lo).andThen fun _ => .ite ((moves_block hstatement lo).andThen fun _ => moves_finish lo)
      ((hexpr lo).andThen fun _ => moves_finish lo)
  refine (moves_isAt lo).andThen fun _ => .ite ?_ ((moves_parameters hexpr lo).andThen hrest)
  exact proceeds_declaredName.andThen fun name => hrest _

/-- What is no target is reported where it starts, and it has been read before. -/
theorem moves_assignment : Moves (assignment statement expr) := by
  refine fun lo => .get_bind fun _ => .ite (moves_arrowFunction hstatement hexpr lo) ?_
  refine (moves_remaining lo).andThen fun m => (proceeds_unary hexpr m).bind fun first lo' _ hfirst => ?_
  refine (moves_remaining lo').andThen fun m => (proceeds_operators hexpr m 0 hfirst).bind fun left lo'' _ hleft => ?_
  refine proceeds_current.andThen fun token => ?_
  split
  · rename_i op _
    have hright : Proceeds lo'' (do
        let _ ← advance
        let right ← expr
        finish left.label.start (.binary op left right)) fun _ => 0 :=
      proceeds_advance.andThen fun _ => (hexpr lo'').andThen fun _ => moves_finish lo''
    exact .ite ((proceeds_report hleft rfl).andThen fun _ => hright) hright
  · exact .pure (Nat.zero_le _)

theorem moves_functionDeclaration : Moves (functionDeclaration statement expr) := by
  refine fun lo => proceeds_advance.andThen fun token => proceeds_declaredName.andThen fun _ => ?_
  refine (moves_parameters hexpr lo).andThen fun _ => (moves_ascription lo).andThen fun _ => ?_
  refine (moves_isAt lo).andThen fun _ => .ite ((moves_block hstatement lo).andThen fun _ => moves_finish lo) ?_
  exact (moves_reportHere lo).andThen fun _ => .get_bind fun _ => moves_finish lo

theorem moves_ifStatement : Moves (ifStatement statement expr) := by
  refine fun lo => proceeds_advance.andThen fun token => (moves_condition hexpr lo).andThen fun _ => ?_
  refine (moves_embedded hstatement lo).andThen fun _ => (moves_eat lo).andThen fun _ => ?_
  exact .ite ((moves_embedded hstatement lo).map.andThen fun _ => moves_finish lo) (moves_finish lo)

theorem moves_whileStatement : Moves (whileStatement statement expr) :=
  fun lo => proceeds_advance.andThen fun _ => (moves_condition hexpr lo).andThen fun _ =>
    (moves_embedded hstatement lo).andThen fun _ => moves_finish lo

theorem moves_anyStatement : Moves (anyStatement statement expr) := by
  refine fun lo => .get_bind fun s => ?_
  split
  · exact (moves_block hstatement lo).map
  · exact (moves_variableStatement hexpr lo).map
  · exact (moves_variableStatement hexpr lo).map
  · exact (moves_variableStatement hexpr lo).map
  · exact (moves_functionDeclaration hstatement hexpr lo).map
  · exact (moves_ifStatement hstatement hexpr lo).map
  · exact (moves_whileStatement hstatement hexpr lo).map
  · exact (moves_returnStatement hexpr lo).map
  · exact proceeds_advance.andThen fun _ => (moves_finish lo).map
  · exact (moves_reportHere lo).andThen fun _ => proceeds_advance.andThen fun _ => .pure (Nat.zero_le _)
  · refine .ite (moves_typeAlias lo).map (.ite (moves_expressionStatement hexpr lo).map ?_)
    exact (moves_reportHere lo).andThen fun _ => proceeds_advance.andThen fun _ => .pure (Nat.zero_le _)

end

/-- Statements and expressions go forward at every depth. -/
theorem moves_nested (r : Nat) : Moves (statement r) ∧ Moves (expression r) := by
  induction r with
  | zero => exact ⟨fun _ => .pure (Nat.zero_le _), fun _ => proceeds_missingExpression.forget⟩
  | succ r ih =>
    obtain ⟨hstatement, hexpr⟩ := ih
    exact ⟨moves_anyStatement hstatement hexpr, moves_assignment hstatement hexpr⟩

theorem moves_sourceFile : Moves sourceFile :=
  fun lo => (moves_remaining lo).andThen fun left => moves_statements (moves_nested _).1 (left + 1) lo

end Parser

/-! ### The errors of a text -/

/-- The tree is read in the order of its tokens. -/
theorem inReadingOrder_ofChars (cs : List Char) : InReadingOrder (parseTokens (.ofChars cs)).2 := by
  have hstarts := TokenStream.pairwise_starts_ofChars cs
  have hinitial : (Parser.State.initial (.ofChars cs)).Past 0 := by
    refine ⟨?_, Nat.zero_le _, List.forall_mem_nil _, .nil⟩
    rw [TokenStream.starts, List.pairwise_map] at hstarts
    exact hstarts.imp Nat.le_of_lt
  obtain ⟨hpast, -⟩ := Parser.moves_sourceFile 0 _ hinitial
  rw [parseTokens_eq]
  exact hpast.ordered

/-- What is found among the tokens is sorted in with the other errors. -/
theorem inSourceOrder_allErrors (treeErrors : List Error) {tokenErrors : List Error} (h : tokenErrors ≠ []) :
    InSourceOrder (Tree.allErrors treeErrors tokenErrors) := by
  cases tokenErrors with
  | nil => exact absurd rfl h
  | cons e es =>
    refine List.Pairwise.imp of_decide_eq_true (List.pairwise_mergeSort ?_ ?_ (treeErrors ++ e :: es))
    · exact fun a b c hab hbc => decide_eq_true (Nat.le_trans (of_decide_eq_true hab) (of_decide_eq_true hbc))
    · exact fun a b => by simpa using Nat.le_total a.span.start b.span.start

theorem InSourceOrder.inReadingOrder {errors : List Error} (h : InSourceOrder errors) : InReadingOrder errors := by
  refine List.Pairwise.imp ?_ h
  intro earlier later hle _
  exact hle

/-- The errors of a file are in the order of reading. -/
theorem inReadingOrder_parse (fileName text : String) : InReadingOrder (Tree.parse fileName text).errors := by
  show InReadingOrder (Tree.allErrors _ (TokenStream.ofChars text.toList).errors)
  cases htokens : (TokenStream.ofChars text.toList).errors with
  | nil => exact inReadingOrder_ofChars text.toList
  | cons e es => exact (inSourceOrder_allErrors _ (List.cons_ne_nil e es)).inReadingOrder

/-- **Errors come in source order exactly where those that look back do.** An error that does not look back
starts behind all errors before it; and the first error, which is reported where a file is converted, is the
leftmost one unless one that looks back starts before it. -/
theorem inSourceOrder_parse_iff (fileName text : String) (settings : Ast.Settings) :
    let t := Tree.parse fileName text
    (InSourceOrder t.errors ↔ t.errors.Pairwise fun earlier later =>
      later.cause.looksBack = true → earlier.span.start ≤ later.span.start) ∧
    ∀ c, Ast.Conversion.ofTree t settings = .error c →
      c.error ∈ t.errors ∧ ((∀ e ∈ t.errors, c.offset ≤ e.span.start) ↔
        ∀ e ∈ t.errors, e.cause.looksBack = true → c.offset ≤ e.span.start) := by
  intro t
  have hreading : InReadingOrder t.errors := inReadingOrder_parse fileName text
  refine ⟨⟨fun h => ?_, fun hback => ?_⟩, fun c hc => ?_⟩
  · refine List.Pairwise.imp ?_ h
    intro earlier later hle _
    exact hle
  · refine (hreading.and hback).imp fun {earlier later} h => ?_
    cases hcause : later.cause.looksBack with
    | false => exact h.1 hcause
    | true => exact h.2 hcause
  · -- a conversion fails only with the first of the errors
    obtain ⟨first, more, herrors, rfl⟩ : ∃ first more, t.errors = first :: more ∧
        c = ⟨settings.filePath, first, t.position first.span.start⟩ := by
      rw [Ast.Conversion.ofTree] at hc
      split at hc
      · exact ⟨_, _, ‹_›, (Except.error.inj hc).symm⟩
      · cases hc
    rw [herrors] at hreading ⊢
    obtain ⟨hfirst, -⟩ := List.pairwise_cons.mp hreading
    refine ⟨List.mem_cons_self, fun h e he _ => h e he, fun hback e he => ?_⟩
    rcases List.mem_cons.mp he with rfl | hmore
    · exact Nat.le_refl _
    · cases hcause : e.cause.looksBack with
      | false => exact hfirst e hmore hcause
      | true => exact hback e he hcause

/-- The missing type is reported before the missing value, which stands to the left of it. -/
theorem not_inSourceOrder_const_without_type :
    let t := Tree.parse "file.ts" "const a: ;"
    t.errors = [⟨.typeExpected, ⟨9, 10⟩⟩, ⟨.constWithoutValue, ⟨6, 7⟩⟩] ∧ ¬InSourceOrder t.errors ∧
      ∃ c, Ast.Conversion.ofTree t (.ofTree t) = .error c ∧ ¬∀ e ∈ t.errors, c.offset ≤ e.span.start := by
  have herrors : (Tree.parse "file.ts" "const a: ;").errors =
      [⟨.typeExpected, ⟨9, 10⟩⟩, ⟨.constWithoutValue, ⟨6, 7⟩⟩] := by
    decide +kernel
  refine ⟨herrors, ?_, ⟨"file.ts", ⟨.typeExpected, ⟨9, 10⟩⟩, (Tree.parse "file.ts" "const a: ;").position 9⟩, ?_, ?_⟩
  · rw [herrors, InSourceOrder]
    decide
  · rw [Ast.Conversion.ofTree, herrors]
    rfl
  · rw [herrors]
    decide

end ScriptAnalysis.Syntax

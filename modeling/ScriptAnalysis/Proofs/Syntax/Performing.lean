import ScriptAnalysis.Proofs.Syntax.Following

/-!
# What the readers do without their bounds

Each reader does what its routine does as long as its bounds are not reached, by one lemma for each routine.
A loop that may go round as often as there are tokens left ends by itself, and a statement may be nested twice
as deep as there are tokens left (`performs_nested`).

A routine is entered with at most `n` tokens left. What it calls after a token has been taken has fewer left,
so the readers that are nested in it only have to do what they should with fewer than `n`.
-/

namespace ScriptAnalysis.Syntax.Parser

variable {s : State} {n r start : Nat} {close : TokenKind}

/-! ### Steps -/

section

variable {top : State} {level : Nat} {kind : TokenKind} {cause : ErrorCause}

theorem follows_finish {k : Kind (Ident Span) (Node Span)} :
    Follows top level n (finish start k) (liftM (finish start k)) := .lift fun _ _ => advances_finish

theorem follows_report {span : Span} : Follows top level n (report cause span) (liftM (report cause span)) :=
  .lift fun _ _ => advances_report

theorem follows_reportHere : Follows top level n (reportHere cause) (liftM (reportHere cause)) :=
  .lift fun _ _ => advances_reportHere

/-- What cannot start anything is stepped over. -/
theorem followsAt_reportHere_advance {s : State} {α : Type} {p : Parse α} {σ : Script α} (hs : top.Under n s)
    (h : Follows top level n p σ) : FollowsAt top level s (s.current.kind ≠ .endOfFile)
      (do
        reportHere cause
        let _ ← advance
        p)
      (do
        reportHere cause
        let _ ← advance
        σ) := by
  by_cases hend : s.current.kind = .endOfFile
  · exact ((follows_reportHere.bind fun _ => Follows.advance.bind fun _ => h) s hs).imp fun hne => hne hend
  · have hleads := s.leads_reported cause s.current.span
    have hs' := hs.of_leads hleads (Nat.le_trans hleads.length_le hs.le)
    have hne := (s.current_reported cause s.current.span).symm ▸ hend
    exact .step_bind hleads (.of_true ((FollowsAt.advance hs' rfl hne).bind hs' fun _ => h))

theorem follows_missingName : Follows top level n missingName (liftM missingName) :=
  .lift fun _ _ => advances_missingName

theorem follows_missingExpression : Follows top level n missingExpression (liftM missingExpression) :=
  .lift fun _ _ => advances_missingExpression

theorem follows_expect (hkind : kind ≠ .endOfFile) :
    Follows top level n (expect kind) (liftM (expect kind)) :=
  .lift fun _ hs => (advances_expect hs hkind).imp False.elim

theorem follows_declaredName : Follows top level n (declaredName cause) (liftM (declaredName cause)) :=
  .lift fun _ hs => (advances_declaredName hs).imp False.elim

theorem follows_memberName : Follows top level n memberName (liftM memberName) :=
  .lift fun _ hs => advances_memberName hs

theorem follows_semicolon : Follows top level n semicolon (liftM semicolon) :=
  .lift fun _ hs => advances_semicolon hs

end

/-! ### Types -/

/-- Without tokens the loop ends, and so it does not matter that its bound is reached. -/
theorem performs_brackets (hr : n ≤ r) (t : Node Span) :
    Performs n (.brackets start t) (brackets start r t) := by
  induction r generalizing n t with
  | zero =>
    intro s hs hn _
    have hend := hs.kind_of_length (Nat.le_trans hn hr)
    rw [Routine.body]
    refine .look rfl (.look rfl (.choose (fun h => ?_) fun _ => .pure t))
    rw [show ((isAt .leftBracket).run s).1 = (s.current.kind == .leftBracket) from rfl, hend] at h
    cases h
  | succ r ih =>
    intro s hs hn _
    have hu := State.Under.refl hs
    rw [Routine.body]
    refine .look_bind rfl (.look_bind rfl (.ite (fun h => ?_) fun _ => .pure t))
    have hopen : s.current.kind = .leftBracket := beq_iff_eq.mp (Bool.and_eq_true_iff.mp h).1
    refine (FollowsAt.advance hu hopen (by decide)).bind_lt hu fun _ k hk => Follows.advance.bind fun _ => ?_
    exact follows_finish.bind fun t' => .inner (ih (by omega) t') (fun _ => trivial) hk

section

variable {type : NodeParse} (htype : ∀ k < n, Performs k .type type)

include htype

theorem performs_primaryType : Performs n .primaryType (primaryType type) := by
  intro s hs hn _
  have hu := State.Under.refl hs
  rw [Routine.body]
  refine .current_bind ?_
  cases hkind : s.current.kind with
  | identifier =>
    refine (FollowsAt.advance hu hkind (by decide)).bind_lt hu fun _ k hk => ?_
    cases KeywordType.ofName? s.current.text <;> exact .pure _
  | nullWord => exact (FollowsAt.advance hu hkind (by decide)).bind_lt hu fun _ k hk => .pure _
  | leftParen =>
    refine (FollowsAt.advance hu hkind (by decide)).bind_lt hu fun _ k hk => ?_
    refine (Follows.inner (htype k (by omega)) (fun _ => trivial) hk).bind fun inner => ?_
    exact (follows_expect (by decide)).bind fun _ => .pure inner
  | _ => exact (follows_reportHere.bind fun _ => follows_missingName.bind fun _ => .pure _) s hu

theorem performs_arrayType : Performs n .arrayType (arrayType type) := by
  intro s hs hn _
  have hu := State.Under.refl hs
  rw [Routine.body]
  refine .current_bind ?_
  refine (Follows.lower ((performs_primaryType htype).of_le hn) (fun _ => trivial) ?_).bind
    (fun first => ?_) s hu
  · simp
  · exact .remaining_bind fun r hr => .lower (performs_brackets (Nat.le_refl r) first) (fun _ => trivial)
      (by simp)

end

theorem performs_members {member : NodeParse} (hmember : ∀ k < n, Performs k .arrayType member) (hr : n ≤ r) :
    Performs n .members (moreMembers member r) := by
  induction r generalizing n with
  | zero =>
    intro s hs hn _
    have hend := hs.kind_of_length (Nat.le_trans hn hr)
    rw [Routine.body]
    exact .eat_choose (by rw [hend]; decide) (.pure [])
  | succ r ih =>
    intro s hs hn _
    have hu := State.Under.refl hs
    rw [Routine.body]
    refine .guard_ite hu (guard_eat (by decide) hs) False.elim (fun k hk => ?_) (.pure [])
    refine (Follows.inner (hmember k (by omega)) (fun _ => trivial) hk).bind fun first => ?_
    refine (Follows.inner (ih (fun j hj => hmember j (by omega)) (by omega)) (fun _ => trivial)
      hk).bind fun more => .pure _

theorem performs_typeWithin (hr : n < r) : Performs n .type (typeWithin r) := by
  induction r generalizing n with
  | zero => exact absurd hr (Nat.not_lt_zero n)
  | succ r ih =>
    have hmember : ∀ k ≤ n, Performs k .arrayType (arrayType (typeWithin r)) :=
      fun k hk => performs_arrayType fun j hj => ih (by omega)
    intro s hs hn _
    have hu := State.Under.refl hs
    rw [Routine.body]
    refine .current_bind ((Follows.lower (hmember _ hn) (fun _ => trivial) (by simp)).bind
      (fun first => .remaining_bind fun m hm => ?_) s hu)
    refine (Follows.lower (performs_members (fun k hk => hmember k (by omega)) (Nat.le_refl m))
      (fun _ => trivial) (by simp)).bind fun more => ?_
    cases more with
    | nil => exact .pure first
    | cons second more => exact follows_finish

theorem performs_type : Performs n .type type :=
  .of_remaining fun m _ => performs_typeWithin (Nat.lt_succ_self m)

theorem performs_ascription : Performs n .ascription typeAnnotation := by
  intro s hs hn _
  rw [Routine.body]
  refine .guard_ite (.refl hs) (guard_eat (by decide) hs) False.elim (fun k hk => ?_) (.pure none)
  exact (Follows.inner performs_type (fun _ => trivial) hk).bind fun _ => .pure _

/-! ### Lists with commas -/

/-- The reader of an item does what the routine of the item does. -/
def Item.Performed (n : Nat) (p : NodeParse) : Item → Prop
  | parameter => Performs n .parameter p
  | value => Performs n .expression p

theorem Item.Performed.of_le {item : Item} {p : NodeParse} {k : Nat} (h : item.Performed n p) (hk : k ≤ n) :
    item.Performed k p := by
  cases item with
  | parameter => exact Performs.of_le h hk
  | value => exact Performs.of_le h hk

theorem Item.Performed.follows {item : Item} {p : NodeParse} {top : State} {level : Nat}
    (h : item.Performed n p) (hlower : n < top.rest.length ∨ 5 < level) :
    Follows top level n p item.script := by
  cases item with
  | parameter => exact .call h (fun _ => trivial) (hlower.imp_right (Nat.lt_trans (by simp)))
  | value => exact .call h (fun _ => trivial) hlower

theorem performs_items {item : Item} {p : NodeParse} (hitem : item.Performed n p) (hr : n ≤ r) :
    Performs n (.items item close) (items p close r) := by
  induction r generalizing n with
  | zero =>
    intro s hs hn _
    have hend := hs.kind_of_length (Nat.le_trans hn hr)
    rw [Routine.body]
    exact .look rfl (.look rfl (.choose (fun _ => .pure []) (absurd (closes_of_endOfFile hend))))
  | succ r ih =>
    intro s hs hn _
    have hu := State.Under.refl hs
    rw [Routine.body]
    refine .look_bind rfl (.look_bind rfl (.ite (fun _ => .pure []) fun _ => ?_))
    refine ((hitem.of_le hn).follows (.inr (by simp))).bind (fun first => ?_) s hu
    refine .guard_ite (fun s hs => guard_eat (by decide) hs) (fun k hk => ?_) (.pure [first])
    exact (Follows.inner (ih (hitem.of_le (by omega)) (by omega)) (fun _ => trivial) hk).bind
      fun more => .pure _

/-- A list of items after a token has been taken. -/
theorem Item.Performed.items_bind {item : Item} {p : NodeParse} {top : State} {level : Nat} {α : Type}
    {f : List (Node Span) → Parse α} {g : List (Node Span) → Script α} (hitem : item.Performed n p)
    (hn : n < top.rest.length) (hf : ∀ ns, Follows top level n (f ns) (g ns)) :
    Follows top level n (do f (← items p close ((← remaining) + 1))) (do g (← call (.items item close))) :=
  .remaining_bind fun m hm => (Follows.inner (performs_items (hitem.of_le hm) (Nat.le_succ m))
    (fun _ => trivial) (by omega)).bind fun ns => (hf ns).of_le hm

/-! ### Expressions -/

section

variable {expr : NodeParse} {top : State} {level : Nat}

theorem follows_initializer (hexpr : ∀ k < n, Performs k .expression expr) (hn : n ≤ top.rest.length) :
    Follows top level n (initializer expr) initializerScript := by
  refine .guard_ite (fun _ hs => guard_eat (by decide) hs) (fun k hk => ?_) (.pure none)
  exact (Follows.inner (hexpr k hk) (fun _ => trivial) (by omega)).bind fun _ => .pure _

theorem follows_condition (hexpr : Performs n .expression expr) (hn : n < top.rest.length) :
    Follows top level n (condition expr) conditionScript := by
  refine (follows_expect (by decide)).bind fun _ => ?_
  refine (Follows.inner hexpr (fun _ => trivial) hn).bind fun cond => ?_
  exact (follows_expect (by decide)).bind fun _ => .pure cond

end

section

variable {expr : NodeParse} (hexpr : ∀ k < n, Performs k .expression expr)

include hexpr

theorem performs_parameter : Performs n .parameter (parameter expr) := by
  intro s hs hn _
  rw [Routine.body]
  refine .current_bind ((follows_declaredName.bind fun i => ?_) s (.refl hs))
  refine (Follows.lower performs_ascription (fun _ => trivial) (by simp)).bind fun t? => ?_
  refine (follows_initializer (fun k hk => hexpr k (by omega)) (Nat.le_refl _)).bind fun e? => ?_
  exact follows_finish

theorem performs_parameters : Performs n .parameters (parameters expr) := by
  intro s hs hn _
  have hu := State.Under.refl hs
  rw [Routine.body]
  refine .guard_ite hu (guard_expect (by decide) hs) (fun h => ?_) (fun k hk => ?_) (.pure [])
  · exact run_expect_fst s .leftParen ▸ beq_iff_eq.mpr h
  have hitem : Item.parameter.Performed k (parameter expr) :=
    performs_parameter fun j hj => hexpr j (by omega)
  exact hitem.items_bind hk fun ps => (follows_expect (by decide)).bind fun _ => .pure ps

theorem performs_arguments : Performs n .arguments (arguments expr) := by
  intro s hs hn hopen
  have hu := State.Under.refl hs
  rw [Routine.body]
  refine FollowsAt.bind_lt hu (.lift ((advances_expect hs (by decide)).imp fun _ => hopen)) fun _ k hk => ?_
  have hitem : Item.value.Performed k expr := hexpr k (by omega)
  exact hitem.items_bind hk fun as => (follows_expect (by decide)).bind fun _ => .pure as

theorem performs_primary : Performs n .primary (primary expr) := by
  intro s hs hn _
  have hu := State.Under.refl hs
  rw [Routine.body]
  refine .current_bind ?_
  cases hkind : s.current.kind with
  | identifier | numericLiteral | stringLiteral | trueWord | falseWord | nullWord =>
    exact (FollowsAt.advance hu hkind (by decide)).bind_lt hu fun _ k hk => .pure _
  | leftParen =>
    refine (FollowsAt.advance hu hkind (by decide)).bind_lt hu fun _ k hk => ?_
    refine (Follows.inner (hexpr k (by omega)) (fun _ => trivial) hk).bind fun inner => ?_
    exact (follows_expect (by decide)).bind fun _ => follows_finish
  | leftBracket =>
    refine (FollowsAt.advance hu hkind (by decide)).bind_lt hu fun _ k hk => ?_
    have hitem : Item.value.Performed k expr := hexpr k (by omega)
    exact hitem.items_bind hk fun es => (follows_expect (by decide)).bind fun _ => follows_finish
  | unknown =>
    exact (followsAt_reportHere_advance hu follows_missingExpression).imp fun _ => by rw [hkind]; decide
  | _ =>
    refine ((follows_reportHere.bind fun _ => follows_missingExpression) s hu).imp fun h => ?_
    rw [Routine.Consumes, hkind] at h
    exact absurd h (by decide)

theorem performs_suffixes (hr : n ≤ r) (e : Node Span) :
    Performs n (.suffixes start e) (suffixes expr start r e) := by
  induction r generalizing n e with
  | zero =>
    intro s hs hn _
    have hend := hs.kind_of_length (Nat.le_trans hn hr)
    rw [Routine.body]
    refine .current_look ?_
    rw [hend]
    exact .pure e
  | succ r ih =>
    intro s hs hn _
    have hu := State.Under.refl hs
    have hnext : ∀ k < s.rest.length, ∀ e, Performs k (.suffixes start e) (suffixes expr start r e) :=
      fun k hk e => ih (fun j hj => hexpr j (by omega)) (by omega) e
    rw [Routine.body]
    refine .current_bind ?_
    cases hkind : s.current.kind with
    | dot =>
      refine (FollowsAt.advance hu hkind (by decide)).bind_lt hu fun _ k hk => ?_
      refine follows_memberName.bind fun i => ?_
      exact follows_finish.bind fun e' => .inner (hnext k hk e') (fun _ => trivial) hk
    | leftParen =>
      have hargs : FollowsAt s 1 s True (arguments expr) (call .arguments) :=
        .call ((performs_arguments hexpr).of_le hn) hu hkind (.inr Nat.zero_lt_one)
      refine hargs.bind_lt hu fun as k hk => ?_
      exact follows_finish.bind fun e' => .inner (hnext k hk e') (fun _ => trivial) hk
    | _ => exact .pure e

theorem performs_operand : Performs n .operand (operand expr) := by
  intro s hs hn _
  have hu := State.Under.refl hs
  rw [Routine.body]
  refine .current_bind ((FollowsAt.call ((performs_primary hexpr).of_le hn) hu trivial (.inr (by simp))).bind
    hu fun e => .remaining_bind fun m hm => ?_)
  exact .lower (performs_suffixes (fun k hk => hexpr k (by omega)) (Nat.le_refl m) e) (fun _ => trivial)
    (by simp)

theorem performs_unary (hr : n ≤ r) : Performs n .unary (unary expr r) := by
  have hoperand : ∀ s : State, s.Ended → s.rest.length ≤ n → PrefixOperator.ofToken? s.current.kind = none →
      FollowsAt s 3 s (startsExpression s.current.kind = true) (operand expr) (call .operand) := by
    intro s hs hn hop
    refine (FollowsAt.call ((performs_operand hexpr).of_le hn) (.refl hs) trivial (.inr (by simp))).imp
      fun h => ?_
    rw [Routine.Consumes, startsOperand, h, hop]
    rfl
  induction r generalizing n with
  | zero =>
    intro s hs hn _
    have hend := hs.kind_of_length (Nat.le_trans hn hr)
    have hop : PrefixOperator.ofToken? s.current.kind = none := by rw [hend]; rfl
    rw [Routine.body]
    refine .current_look ?_
    rw [hop]
    exact hoperand s hs hn hop
  | succ r ih =>
    intro s hs hn _
    have hu := State.Under.refl hs
    rw [Routine.body]
    refine .current_bind ?_
    cases hop : PrefixOperator.ofToken? s.current.kind with
    | none => exact hoperand s hs hn hop
    | some op =>
      have hne := ne_endOfFile_of_some rfl hop
      refine (FollowsAt.advance hu rfl hne).bind_lt hu fun _ k hk => ?_
      have hinner : Performs k .unary (unary expr r) := ih (fun j hj => hexpr j (by omega)) (by omega)
        fun s hs hk => hoperand s hs (by omega)
      exact (Follows.inner hinner (fun _ => trivial) hk).bind fun e => follows_finish

theorem performs_binary {least : Nat} {more : Node Span → NodeParse}
    (hmore : ∀ left, Performs n (.operators least left) (more left)) :
    Performs n (.binary least) (do
      let first ← unary expr (← remaining)
      more first) := by
  intro s hs hn _
  have hu := State.Under.refl hs
  have hunary : Performs s.rest.length .unary (unary expr s.rest.length) :=
    performs_unary (fun k hk => hexpr k (by omega)) (Nat.le_refl _)
  rw [Routine.body]
  refine .remaining_bind ((FollowsAt.call hunary hu trivial (.inr (by simp))).bind hu fun first => ?_)
  exact .lower ((hmore first).of_le hn) (fun _ => trivial) (by simp)

theorem performs_operators (hr : n ≤ r) (least : Nat) (left : Node Span) :
    Performs n (.operators least left) (operators expr r least left) := by
  induction r generalizing n least left with
  | zero =>
    intro s hs hn _
    have hend := hs.kind_of_length (Nat.le_trans hn hr)
    rw [Routine.body]
    refine .current_look ?_
    rw [hend]
    exact .pure left
  | succ r ih =>
    intro s hs hn _
    have hu := State.Under.refl hs
    rw [Routine.body]
    refine .current_bind ?_
    cases hop : BinaryOperator.ofToken? s.current.kind with
    | none => exact .pure left
    | some op =>
      have hne := ne_endOfFile_of_some rfl hop
      refine FollowsAt.ite (fun _ => .pure left) fun _ => ?_
      refine (FollowsAt.advance hu rfl hne).bind_lt hu fun _ k hk => ?_
      have hmore : ∀ least left, Performs k (.operators least left) (operators expr r least left) :=
        ih (fun j hj => hexpr j (by omega)) (by omega)
      -- The right operand is one routine here and two readers there.
      have hright := performs_binary (fun j hj => hexpr j (by omega)) (hmore op.precedence)
      show Follows s 0 k ((do
        let first ← unary expr (← remaining)
        operators expr r op.precedence first) >>= fun right => do
        operators expr r least (← finish left.label.start (.binary op left right))) _
      refine (Follows.inner hright (fun _ => trivial) hk).bind fun right => ?_
      exact follows_finish.bind fun e => .inner (hmore least e) (fun _ => trivial) hk

end

/-! ### Blocks -/

section

variable {statement : Parse (Option (Node Span))} (hstatement : Performs n .statement statement)

include hstatement

theorem performs_statements (hr : n ≤ r) :
    Performs n (.statements close) (statements statement close r) := by
  induction r generalizing n with
  | zero =>
    intro s hs hn _
    have hend := hs.kind_of_length (Nat.le_trans hn hr)
    rw [Routine.body, roundScript]
    exact .look rfl (.look rfl (.choose (fun _ => .pure []) (absurd (closes_of_endOfFile hend))))
  | succ r ih =>
    intro s hs hn _
    have hu := State.Under.refl hs
    rw [Routine.body, roundScript]
    refine .look_bind rfl (.look_bind rfl (.ite (fun _ => .pure []) fun hopen => .look_bind rfl ?_))
    have hne : s.current.kind ≠ .endOfFile := mt closes_of_endOfFile hopen
    have hfirst := FollowsAt.call (hstatement.of_le hn) hu trivial (.inr (show 7 < 8 by decide))
    refine FollowsAt.bind_lt hu (hfirst.imp fun _ => hne) fun first? k hk s' hs' => ?_
    refine .look_bind rfl (.ite (fun hstuck => ?_) fun _ => ?_)
    -- The statement has taken a token, so the next token is not stepped over.
    · exact absurd (beq_iff_eq.mp hstuck) (Nat.ne_of_lt (Nat.lt_of_le_of_lt hs'.le hk))
    · exact ((Follows.inner (ih (hstatement.of_le (by omega)) (by omega)) (fun _ => trivial)
        hk).bind fun more => .pure _) s' hs'

theorem performs_embedded : Performs n .embedded (embedded statement) := by
  intro s hs hn _
  have hu := State.Under.refl hs
  rw [Routine.body]
  refine ((Follows.lower (hstatement.of_le hn) (fun _ => trivial) (by simp)).bind fun body? => ?_) s hu
  cases body? with
  | none => exact .look_bind (fun _ => rfl) fun _ => .pure _
  | some body => exact .pure body

end

section

variable {statement : Parse (Option (Node Span))} (hstatement : ∀ k < n, Performs k .statement statement)

include hstatement

theorem performs_block : Performs n .block (block statement) := by
  intro s hs hn hopen
  have hu := State.Under.refl hs
  rw [Routine.body]
  refine .current_bind (FollowsAt.bind_lt hu (.lift ((advances_expect hs (by decide)).imp fun _ => hopen))
    fun _ k hk => .remaining_bind fun m hm => ?_)
  refine (Follows.inner (performs_statements (hstatement m (by omega)) (Nat.le_succ m)) (fun _ => trivial)
    (by omega)).bind fun body => ?_
  exact (follows_expect (by decide)).bind fun _ => follows_finish

variable {expr : NodeParse} (hexpr : ∀ k < n, Performs k .expression expr)

include hexpr

theorem performs_arrowFunction : Performs n .arrowFunction (arrowFunction statement expr) := by
  intro s hs hn harrow
  have hu := State.Under.refl hs
  have hrest : ∀ start (ps : List (Node Span)), ∀ k < s.rest.length, Follows s 1 k
      (do
        let returnType? ← typeAnnotation
        let _ ← expect .arrow
        let body ← if ← isAt .leftBrace then block statement else expr
        finish start (.arrowFunction ps returnType? body))
      (do
        let returnType? ← call .ascription
        let _ ← expect .arrow
        let body ← if ← isAt .leftBrace then call .block else call .expression
        finish start (.arrowFunction ps returnType? body)) := by
    intro start ps k hk
    refine (Follows.inner performs_ascription (fun _ => trivial) hk).bind fun t? => ?_
    refine (follows_expect (by decide)).bind fun _ s' hs' => .isAt_ite (fun hopen => ?_) fun _ => ?_
    · have hblock := performs_block (n := k) fun j hj => hstatement j (by omega)
      exact ((FollowsAt.call hblock hs' hopen (.inl hk)).imp False.elim).bind hs' fun _ => follows_finish
    · exact ((Follows.inner (hexpr k (by omega)) (fun _ => trivial) hk).bind fun _ => follows_finish) s' hs'
  rw [Routine.body]
  refine .current_bind (.isAt_ite (fun hname => ?_) fun hname => ?_)
  · have hparam : FollowsAt s 1 s True (declaredName .identifierExpected)
        (liftM (declaredName .identifierExpected)) := .lift ((advances_declaredName hs).imp fun _ => hname)
    refine hparam.bind_lt hu fun i k hk => ?_
    exact hrest _ [.mk i.label (.parameter i none none)] k hk
  · have hopen : s.current.kind = .leftParen := by
      revert harrow hname
      rw [Routine.Fits, State.startsArrowFunction]
      cases s.current.kind <;> simp
    have hparams : FollowsAt s 1 s (s.current.kind = .leftParen) (parameters expr) (call .parameters) :=
      .call ((performs_parameters hexpr).of_le hn) hu trivial (.inr Nat.zero_lt_one)
    exact (hparams.imp fun _ => hopen).bind_lt hu fun ps k hk => hrest _ ps k hk

theorem performs_assignment : Performs n .expression (assignment statement expr) := by
  intro s hs hn _
  have hu := State.Under.refl hs
  have hassigned : ∀ (op : BinaryOperator) (left : Node Span) (s' : State), s.Under s.rest.length s' →
      s'.current.kind ≠ .endOfFile → FollowsAt s 5 s' False
        (do
          let _ ← advance
          let right ← expr
          finish left.label.start (.binary op left right))
        (do
          let _ ← advance
          let right ← call .expression
          finish left.label.start (.binary op left right)) := by
    intro op left s' hs' hne
    refine (FollowsAt.advance hs' rfl hne).bind_lt hs' fun _ k hk => ?_
    exact (Follows.inner (hexpr k (by omega)) (fun _ => trivial) hk).bind fun _ => follows_finish
  rw [Routine.body]
  refine .get_bind (.ite (fun harrow => ?_) fun _ => ?_)
  · exact (FollowsAt.call ((performs_arrowFunction hstatement hexpr).of_le hn) hu harrow
      (.inr (by simp))).of_true
  have hleft : Performs n (.binary 0) (do
      let first ← unary expr (← remaining)
      operators expr (← remaining) 0 first) :=
    performs_binary hexpr fun left => .of_remaining fun m hm =>
      performs_operators (fun k hk => hexpr k (by omega)) (Nat.le_refl m) 0 left
  have hregroup : ∀ f : Node Span → NodeParse, (do
      let first ← unary expr (← remaining)
      let left ← operators expr (← remaining) 0 first
      f left) = (do
      let first ← unary expr (← remaining)
      operators expr (← remaining) 0 first) >>= f :=
    fun _ => rfl
  rw [hregroup]
  refine FollowsAt.bind hu (FollowsAt.call (hleft.of_le hn) hu trivial (.inr (show 4 < 5 by decide)))
    fun left s' hs' => ?_
  refine .current_bind ?_
  cases hop : BinaryOperator.assignmentOfToken? s'.current.kind with
  | none => exact .pure left
  | some op =>
    have hne := ne_endOfFile_of_some rfl hop
    refine .ite (fun _ => ?_) fun _ => hassigned op left s' hs' hne
    refine (FollowsAt.lift advances_report).bind_at (hassigned op left _ ?_ ?_)
    · exact hs'.of_leads (s'.leads_reported _ _) (Nat.le_trans (s'.leads_reported _ _).length_le hs'.le)
    · exact (s'.current_reported .invalidTarget left.label).symm ▸ hne

/-! ### Statements -/

theorem performs_functionDeclaration :
    Performs n .functionDeclaration (functionDeclaration statement expr) := by
  intro s hs hn hne
  have hu := State.Under.refl hs
  rw [Routine.body]
  refine (FollowsAt.advance hu rfl hne).bind_lt hu fun token k hk => follows_declaredName.bind fun i => ?_
  have hparams := performs_parameters (n := k) fun j hj => hexpr j (by omega)
  refine (Follows.inner hparams (fun _ => trivial) hk).bind fun ps => ?_
  refine (Follows.inner performs_ascription (fun _ => trivial) hk).bind fun t? s' hs' => ?_
  refine .isAt_ite (fun hopen => ?_) fun _ => ?_
  · have hblock := performs_block (n := k) fun j hj => hstatement j (by omega)
    exact ((FollowsAt.call hblock hs' hopen (.inl hk)).imp False.elim).bind hs' fun _ => follows_finish
  · exact (follows_reportHere.bind fun _ => .look_bind (fun _ => rfl) fun _ => follows_finish) s' hs'

theorem performs_ifStatement : Performs n .ifStatement (ifStatement statement expr) := by
  intro s hs hn hne
  have hu := State.Under.refl hs
  rw [Routine.body]
  refine (FollowsAt.advance hu rfl hne).bind_lt hu fun token k hk => ?_
  have hbranch : Follows s 0 k (embedded statement) (call .embedded) :=
    .inner (performs_embedded (hstatement k (by omega))) (fun _ => trivial) hk
  refine (follows_condition (hexpr k (by omega)) hk).bind fun cond => hbranch.bind fun a => ?_
  refine .guard_ite (fun s hs => guard_eat (by decide) hs) (fun j hj => ?_) follows_finish
  exact (hbranch.of_le (by omega)).map.bind fun b => follows_finish

theorem performs_whileStatement : Performs n .whileStatement (whileStatement statement expr) := by
  intro s hs hn hne
  have hu := State.Under.refl hs
  rw [Routine.body]
  refine (FollowsAt.advance hu rfl hne).bind_lt hu fun token k hk => ?_
  refine (follows_condition (hexpr k (by omega)) hk).bind fun cond => ?_
  refine (Follows.inner (performs_embedded (hstatement k (by omega))) (fun _ => trivial) hk).bind
    fun body => follows_finish

end

section

variable {expr : NodeParse}

theorem performs_declarations {keyword : VariableKind} {declaration : NodeParse}
    (hdeclaration : Performs n (.declaration keyword) declaration) (hr : n ≤ r) :
    Performs n (.declarations keyword) (variableDeclarations declaration r) := by
  induction r generalizing n with
  | zero =>
    intro s hs hn _
    have hu := State.Under.refl hs
    rw [Routine.body]
    refine ((Follows.lower (hdeclaration.of_le hn) (fun _ => trivial) (by simp)).bind fun d s' hs' => ?_) s hu
    have hend := hs'.ended.kind_of_length (Nat.le_trans hs'.le (Nat.le_trans hn hr))
    exact .eat_choose (by rw [hend]; decide) (.pure [d])
  | succ r ih =>
    intro s hs hn _
    have hu := State.Under.refl hs
    rw [Routine.body]
    refine ((Follows.lower (hdeclaration.of_le hn) (fun _ => trivial) (by simp)).bind fun d => ?_) s hu
    refine .guard_ite (fun s hs => guard_eat (by decide) hs) (fun k hk => ?_) (.pure [d])
    exact (Follows.inner (ih (hdeclaration.of_le (by omega)) (by omega)) (fun _ => trivial)
      hk).bind fun ds => .pure _

variable (hexpr : ∀ k < n, Performs k .expression expr)

include hexpr

theorem performs_declaration {keyword : VariableKind} :
    Performs n (.declaration keyword) (variableDeclaration expr keyword) := by
  intro s hs hn _
  rw [Routine.body]
  refine .current_bind ((follows_declaredName.bind fun i => ?_) s (.refl hs))
  refine (Follows.lower performs_ascription (fun _ => trivial) (by simp)).bind fun t? => ?_
  refine (follows_initializer (fun k hk => hexpr k (by omega)) (Nat.le_refl _)).bind fun e? => ?_
  exact .ite (follows_report.bind fun _ => follows_finish) follows_finish

theorem performs_variableStatement {keyword : VariableKind} :
    Performs n (.variableStatement keyword) (variableStatement expr keyword) := by
  intro s hs hn hne
  have hu := State.Under.refl hs
  rw [Routine.body]
  refine (FollowsAt.advance hu rfl hne).bind_lt hu fun token k hk => .remaining_bind fun m hm => ?_
  have hdeclaration : Performs m (.declaration keyword) (variableDeclaration expr keyword) :=
    performs_declaration fun j hj => hexpr j (by omega)
  refine (Follows.inner (performs_declarations hdeclaration (Nat.le_refl m)) (fun _ => trivial)
    (by omega)).bind fun ds => ?_
  exact follows_semicolon.bind fun _ => follows_finish

theorem performs_returnStatement : Performs n .returnStatement (returnStatement expr) := by
  intro s hs hn hne
  have hu := State.Under.refl hs
  rw [Routine.body]
  refine (FollowsAt.advance hu rfl hne).bind_lt hu fun token k hk => .look_bind (fun _ => rfl) fun s' => ?_
  have hfinish : ∀ e?, Follows s 0 k
      (do
        semicolon
        finish token.span.start (.returnStatement e?))
      (do
        semicolon
        finish token.span.start (.returnStatement e?)) :=
    fun e? => follows_semicolon.bind fun _ => follows_finish
  exact .ite (hfinish none)
    ((Follows.inner (hexpr k (by omega)) (fun _ => trivial) hk).map.bind hfinish)

omit hexpr in
theorem performs_typeAlias : Performs n .typeAlias typeAlias := by
  intro s hs hn hne
  have hu := State.Under.refl hs
  rw [Routine.body]
  refine (FollowsAt.advance hu rfl hne).bind_lt hu fun token k hk => follows_declaredName.bind fun i => ?_
  refine (follows_expect (by decide)).bind fun _ => ?_
  refine (Follows.inner performs_type (fun _ => trivial) hk).bind fun t => ?_
  exact follows_semicolon.bind fun _ => follows_finish

omit hexpr in
theorem performs_expressionStatement (hexpr : Performs n .expression expr) :
    Performs n .expressionStatement (expressionStatement expr) := by
  intro s hs hn _
  have hu := State.Under.refl hs
  rw [Routine.body]
  refine .current_bind (FollowsAt.bind hu (FollowsAt.call (hexpr.of_le hn) hu trivial
    (.inr (show 5 < 6 by decide))) fun e => ?_)
  exact follows_semicolon.bind fun _ => follows_finish

omit hexpr in
theorem performs_anyStatement {statement : Parse (Option (Node Span))}
    (hstatement : ∀ k < n, Performs k .statement statement) (hexpr : Performs n .expression expr) :
    Performs n .statement (anyStatement statement expr) := by
  intro s hs hn _
  have hu := State.Under.refl hs
  have hcall : ∀ {c : Routine} {p : Parse c.Result}, Performs n c p → c.Fits s → c.level < 7 →
      (s.current.kind ≠ .endOfFile → c.Consumes s) →
      FollowsAt s 7 s (s.current.kind ≠ .endOfFile) p (call c) :=
    fun hp hfits hlevel hc => (FollowsAt.call (hp.of_le hn) hu hfits (.inr hlevel)).imp hc
  have hother : ∀ kind, s.current.kind = kind → FollowsAt s 7 s (s.current.kind ≠ .endOfFile)
      (if s.startsTypeAlias then some <$> typeAlias
        else if startsExpression kind then some <$> expressionStatement expr
        else do
          reportHere .statementExpected
          let _ ← advance
          pure none)
      (if s.startsTypeAlias then some <$> call .typeAlias
        else if startsExpression kind then some <$> call .expressionStatement
        else do
          reportHere .statementExpected
          let _ ← advance
          pure none) := by
    rintro _ rfl
    refine .ite (fun halias => ?_) fun _ => .ite (fun hstarts => ?_) fun _ =>
      followsAt_reportHere_advance hu (.pure none)
    · simp only [State.startsTypeAlias, Bool.and_eq_true, beq_iff_eq] at halias
      exact (hcall performs_typeAlias (by simp [Routine.Fits, halias]) (by decide) fun _ => trivial).map
    · exact (hcall (performs_expressionStatement hexpr) trivial (by decide) fun _ => hstarts).map
  have hexpr' : ∀ k < n, Performs k .expression expr := fun k hk => hexpr.of_le (Nat.le_of_lt hk)
  have hword : ∀ {kind}, s.current.kind = kind → kind ≠ .endOfFile → s.current.kind ≠ .endOfFile :=
    fun h hne => h ▸ hne
  rw [Routine.body]
  refine .get_bind ?_
  cases hkind : s.current.kind with
  | leftBrace => exact (hcall (performs_block hstatement) hkind (by decide) fun _ => trivial).map
  | varWord | letWord | constWord =>
    exact (hcall (performs_variableStatement hexpr') (hword hkind (by decide)) (by decide)
      fun _ => trivial).map
  | functionWord =>
    exact (hcall (performs_functionDeclaration hstatement hexpr') (hword hkind (by decide)) (by decide)
      fun _ => trivial).map
  | ifWord =>
    exact (hcall (performs_ifStatement hstatement hexpr') (hword hkind (by decide)) (by decide)
      fun _ => trivial).map
  | whileWord =>
    exact (hcall (performs_whileStatement hstatement hexpr') (hword hkind (by decide)) (by decide)
      fun _ => trivial).map
  | returnWord =>
    exact (hcall (performs_returnStatement hexpr') (hword hkind (by decide)) (by decide)
      fun _ => trivial).map
  | semicolon =>
    exact .of_true ((FollowsAt.advance hu hkind (by decide)).bind hu fun token => follows_finish.map)
  | unknown => exact followsAt_reportHere_advance hu (.pure none)
  | _ => exact hother _ hkind

end

/-- Statements and expressions are read as without bounds if they may be nested as deep as there are
tokens. -/
theorem performs_nested (depth n : Nat) :
    (2 * n + 2 ≤ depth → Performs n .statement (statement depth)) ∧
      (2 * n + 1 ≤ depth → Performs n .expression (expression depth)) := by
  induction depth generalizing n with
  | zero => exact ⟨fun h => by omega, fun h => by omega⟩
  | succ depth ih =>
    have hstatement : 2 * n ≤ depth → ∀ k < n, Performs k .statement (statement depth) :=
      fun h k hk => (ih k).1 (by omega)
    constructor
    · exact fun h => performs_anyStatement (hstatement (by omega)) ((ih n).2 (by omega))
    · exact fun h => performs_assignment (hstatement (by omega)) fun k hk => (ih k).2 (by omega)

end ScriptAnalysis.Syntax.Parser

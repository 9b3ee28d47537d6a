import ScriptAnalysis.Proofs.Syntax.KeepingNodes
import ScriptAnalysis.Proofs.Syntax.Routines

/-!
# Readers and the scripts they follow

A reader has bounds that its script has not, and it does the same as long as the bounds are not reached.
`Follows` relates the two: the script comes to an end as the reader does, and each call on the way has fewer
tokens left than a state `top` or goes to a routine further down. So what the calls of a routine can come back
to is a routine with fewer tokens left.

`Performs` says this of the reader of a routine, with the state that the routine is entered in for `top`.
-/

namespace ScriptAnalysis.Syntax.Parser

variable {s s' s'' top : State} {α β : Type} {c c' d : Prop} {kind : TokenKind} {cause : ErrorCause}

/-! ### The tokens that are left -/

namespace State

/-- The end of the text stands behind the tokens and nowhere else. -/
structure Ended (s : State) : Prop where
  tokens : ∀ t ∈ s.rest, t.kind ≠ .endOfFile
  ending : s.ending.kind = .endOfFile

/-- From one state to the other nothing but tokens is taken from the front. -/
structure Leads (s s' : State) : Prop where
  rest : s'.rest <:+ s.rest
  ending : s'.ending = s.ending

namespace Leads

theorem refl (s : State) : s.Leads s := ⟨List.suffix_refl _, rfl⟩

theorem trans (h : s.Leads s') (h' : s'.Leads s'') : s.Leads s'' :=
  ⟨h'.rest.trans h.rest, h'.ending.trans h.ending⟩

theorem length_le (h : s.Leads s') : s'.rest.length ≤ s.rest.length := h.rest.length_le

theorem ended (h : s.Leads s') (hs : s.Ended) : s'.Ended :=
  ⟨fun t ht => hs.tokens t (h.rest.subset ht), h.ending ▸ hs.ending⟩

end Leads

theorem leads_advanced (s : State) : s.Leads s.advanced :=
  ⟨s.rest_advanced ▸ List.tail_suffix _, s.ending_advanced⟩

theorem leads_reported (s : State) (cause : ErrorCause) (span : Span) :
    s.Leads (s.reported cause span) := by
  obtain ⟨errors, hreported, -⟩ := s.reported_eq cause span
  rw [hreported]
  exact ⟨List.suffix_refl _, rfl⟩

theorem Ended.kind_of_nil (hs : s.Ended) (h : s.rest = []) : s.current.kind = .endOfFile := by
  rw [current, peek, h]
  exact hs.ending

theorem Ended.nil_of_kind (hs : s.Ended) (h : s.current.kind = .endOfFile) : s.rest = [] := by
  cases hrest : s.rest with
  | nil => rfl
  | cons t ts =>
    have ht : s.current = t := by rw [current, peek, hrest]; rfl
    exact absurd (ht ▸ h) (hs.tokens t (hrest ▸ List.mem_cons_self))

theorem Ended.kind_of_length (hs : s.Ended) (h : s.rest.length ≤ 0) : s.current.kind = .endOfFile :=
  hs.kind_of_nil (List.length_eq_zero_iff.mp (Nat.le_zero.mp h))

theorem Ended.length_advanced (hs : s.Ended) (h : s.current.kind ≠ .endOfFile) :
    s.advanced.rest.length < s.rest.length := by
  have hpos := List.length_pos_iff.mpr (mt hs.kind_of_nil h)
  rw [s.rest_advanced, List.length_tail]
  omega

end State

theorem ne_endOfFile_of_some {γ : Type} {f : TokenKind → Option γ} {x : γ} (hend : f .endOfFile = none)
    (h : f kind = some x) : kind ≠ .endOfFile := by
  rintro rfl
  rw [hend] at h
  cases h

/-- Every list closes at the end of the text. -/
theorem closes_of_endOfFile {close : TokenKind} (h : kind = .endOfFile) :
    (kind == close || kind == .endOfFile) = true :=
  Bool.or_eq_true_iff.mpr (.inr (beq_iff_eq.mpr h))

/-! ### What is called from where -/

namespace Routine

/-- Where a routine is called. -/
def Fits (s : State) : Routine → Prop
  | block => s.current.kind = .leftBrace
  | arguments => s.current.kind = .leftParen
  | arrowFunction => s.startsArrowFunction = true
  | variableStatement _ | functionDeclaration | typeAlias | ifStatement | whileStatement
  | returnStatement => s.current.kind ≠ .endOfFile
  | _ => True

/-- Where a routine takes a token for certain. -/
def Consumes (s : State) : Routine → Prop
  | statement => s.current.kind ≠ .endOfFile
  | expression | expressionStatement | binary _ | unary => startsExpression s.current.kind = true
  | operand | primary => startsOperand s.current.kind = true
  | parameters => s.current.kind = .leftParen
  | block | arguments | arrowFunction | variableStatement _ | functionDeclaration | typeAlias
  | ifStatement | whileStatement | returnStatement => True
  | _ => False

/-- How far up a routine stands. Before it has taken a token a routine only calls those below it. -/
@[simp] def level : Routine → Nat
  | brackets .. | members | primaryType | ascription | parameters | arguments | primary | operators ..
  | block | variableStatement _ | functionDeclaration | typeAlias | ifStatement | whileStatement
  | returnStatement => 0
  | arrayType | parameter | suffixes .. | arrowFunction | declaration _ => 1
  | type | operand | declarations _ => 2
  | unary => 3
  | binary _ => 4
  | expression => 5
  | items .. | expressionStatement => 6
  | statement => 7
  | statements _ | embedded => 8

end Routine

/-- A call that has fewer tokens left than `top` or goes to a routine that stands below a level. -/
structure Below (top : State) (level : Nat) (call : State × Routine) : Prop where
  leads : top.Leads call.1
  fits : call.2.Fits call.1
  lower : call.1.rest.length < top.rest.length ∨ call.2.level < level

/-! ### Readers that only take tokens -/

/-- The reader only takes tokens, and it takes one if `c` holds. -/
structure Advances (s : State) (c : Prop) (p : Parse α) : Prop where
  leads : s.Leads (p.run s).2
  lt : c → (p.run s).2.rest.length < s.rest.length

namespace Advances

variable {p q : Parse α} {f : α → Parse β}

theorem pure (a : α) : Advances s False (Pure.pure a) := ⟨.refl s, False.elim⟩

theorem imp (h : Advances s c p) (hc : c' → c) : Advances s c' p := ⟨h.1, fun h' => h.2 (hc h')⟩

theorem bind (h : Advances s c p) (hf : Advances (p.run s).2 False (f (p.run s).1)) :
    Advances s c (p >>= f) :=
  ⟨h.1.trans hf.1, fun hc => Nat.lt_of_le_of_lt hf.1.length_le (h.2 hc)⟩

theorem map {g : α → β} (h : Advances s c p) : Advances s c (g <$> p) := ⟨h.leads, h.lt⟩

/-- A step that leaves the state as it is. -/
theorem look_bind (h : (p.run s).2 = s) (hf : Advances s c (f (p.run s).1)) : Advances s c (p >>= f) := by
  have hrun : (p >>= f).run s = (f (p.run s).1).run s := congrArg (f (p.run s).1).run h
  exact ⟨hrun ▸ hf.leads, hrun ▸ hf.lt⟩

theorem ite [Decidable d] (hp : d → Advances s c p) (hq : ¬d → Advances s c q) :
    Advances s c (if d then p else q) := by
  split
  · exact hp ‹_›
  · exact hq ‹_›

end Advances

theorem advances_report {span : Span} : Advances s False (report cause span) :=
  ⟨s.leads_reported cause span, False.elim⟩

theorem advances_reportHere : Advances s False (reportHere cause) :=
  ⟨s.leads_reported cause s.current.span, False.elim⟩

theorem advances_finish {start : Nat} {k : Kind (Ident Span) (Node Span)} :
    Advances s False (finish start k) :=
  ⟨.refl s, False.elim⟩

theorem advances_missingName : Advances s False missingName := ⟨.refl s, False.elim⟩

theorem advances_missingExpression : Advances s False missingExpression := ⟨.refl s, False.elim⟩

theorem advances_advance (hs : s.Ended) : Advances s (s.current.kind ≠ .endOfFile) advance :=
  ⟨s.leads_advanced, hs.length_advanced⟩

theorem advances_isAt_ite {p q : Parse α} (hyes : s.current.kind = kind → Advances s c p)
    (hno : s.current.kind ≠ kind → Advances s c q) : Advances s c (do if ← isAt kind then p else q) :=
  .look_bind rfl (.ite (fun h => hyes (beq_iff_eq.mp h)) fun h => hno (mt beq_iff_eq.mpr h))

theorem run_eat_fst (s : State) (kind : TokenKind) :
    ((eat kind).run s).1 = (s.current.kind == kind) := by
  show ((if (s.current.kind == kind) = true then _ else _ : Parse Bool).run s).1 = _
  cases s.current.kind == kind <;> rfl

theorem run_expect_fst (s : State) (kind : TokenKind) :
    ((expect kind).run s).1 = (s.current.kind == kind) := by
  show ((if ((eat kind).run s).1 = true then _ else _ : Parse Bool).run ((eat kind).run s).2).1 = _
  rw [run_eat_fst]
  cases s.current.kind == kind <;> rfl

section

variable (hs : s.Ended)

include hs

theorem advances_eat (hkind : kind ≠ .endOfFile) : Advances s (s.current.kind = kind) (eat kind) := by
  refine advances_isAt_ite (fun h => ?_) fun h => (Advances.pure false).imp h
  exact .bind ((advances_advance hs).imp fun _ => h ▸ hkind) (.pure true)

theorem advances_expect (hkind : kind ≠ .endOfFile) : Advances s (s.current.kind = kind) (expect kind) :=
  (advances_eat hs hkind).bind
    (.ite (fun _ => .pure true) fun _ => advances_reportHere.bind (.pure false))

theorem advances_declaredName : Advances s (s.current.kind = .identifier) (declaredName cause) := by
  refine advances_isAt_ite (fun h => ?_) fun h => (advances_reportHere.bind advances_missingName).imp h
  exact .bind ((advances_advance hs).imp fun _ => h ▸ by decide) (.pure _)

theorem advances_memberName : Advances s False memberName :=
  .look_bind rfl (.ite (fun _ => ((advances_advance hs).imp False.elim).bind (.pure _)) fun _ =>
    advances_reportHere.bind advances_missingName)

theorem advances_semicolon : Advances s False semicolon :=
  ((advances_eat hs (by decide)).imp False.elim).bind (.ite (fun _ => .pure ()) fun _ =>
    .look_bind rfl (.ite (fun _ => .pure ()) fun _ => advances_reportHere))

end

/-! ### Readers that follow a script -/

/-- The reader does what the script does: the script ends as the reader does, makes calls below only, and
takes a token if `c` holds. -/
structure FollowsAt (top : State) (level : Nat) (s : State) (c : Prop) (p : Parse α) (σ : Script α) :
    Prop where
  advances : Advances s c p
  runs : ∃ calls, Runs σ s calls (p.run s) ∧ ∀ call ∈ calls, Below top level call

/-- A state that is reached from `top`, with at most `n` tokens left. -/
structure State.Under (top : State) (n : Nat) (s : State) : Prop where
  ended : s.Ended
  leads : top.Leads s
  le : s.rest.length ≤ n

/-- With at most `n` tokens left the reader does what the script does. -/
def Follows (top : State) (level n : Nat) (p : Parse α) (σ : Script α) : Prop :=
  ∀ s, top.Under n s → FollowsAt top level s False p σ

/-- With at most `n` tokens left the reader does what the routine does. -/
def Performs (n : Nat) (c : Routine) (p : Parse c.Result) : Prop :=
  ∀ s : State, s.Ended → s.rest.length ≤ n → c.Fits s → FollowsAt s c.level s (c.Consumes s) p c.body

variable {level n : Nat} {p q : Parse α} {σ τ : Script α} {f : α → Parse β} {g : α → Script β}

theorem State.Under.of_leads {k : Nat} (hs : top.Under n s) (h : s.Leads s') (hk : s'.rest.length ≤ k) :
    top.Under k s' :=
  ⟨h.ended hs.ended, hs.leads.trans h, hk⟩

theorem State.Under.refl (hs : s.Ended) : s.Under s.rest.length s := ⟨hs, .refl s, Nat.le_refl _⟩

theorem Performs.of_le {r : Routine} {p : Parse r.Result} {k : Nat} (h : Performs n r p) (hk : k ≤ n) :
    Performs k r p :=
  fun s hs hn => h s hs (Nat.le_trans hn hk)

namespace FollowsAt

theorem pure (a : α) : FollowsAt top level s False (Pure.pure a) (Pure.pure a) :=
  ⟨.pure a, [], .pure a s, by simp⟩

theorem imp (h : FollowsAt top level s c p σ) (hc : c' → c) : FollowsAt top level s c' p σ :=
  ⟨h.1.imp hc, h.2⟩

theorem of_true (h : FollowsAt top level s True p σ) : FollowsAt top level s c p σ :=
  h.imp fun _ => trivial

/-- A step follows itself. -/
theorem lift (h : Advances s c p) : FollowsAt top level s c p (liftM p) :=
  ⟨h, [], .step (.pure _ _), by simp⟩

theorem bind_at (h : FollowsAt top level s c p σ)
    (hf : FollowsAt top level (p.run s).2 False (f (p.run s).1) (g (p.run s).1)) :
    FollowsAt top level s c (p >>= f) (σ >>= g) := by
  obtain ⟨hadvances, calls, hruns, hbelow⟩ := h
  obtain ⟨hadvances', calls', hruns', hbelow'⟩ := hf
  refine ⟨hadvances.bind hadvances', calls ++ calls', hruns.bind hruns', fun call hcall => ?_⟩
  exact (List.mem_append.mp hcall).elim (hbelow call) (hbelow' call)

theorem bind (hs : top.Under n s) (h : FollowsAt top level s c p σ)
    (hf : ∀ a, Follows top level n (f a) (g a)) : FollowsAt top level s c (p >>= f) (σ >>= g) :=
  h.bind_at (hf _ _ (hs.of_leads h.advances.leads (Nat.le_trans h.advances.leads.length_le hs.le)))

/-- What comes behind a token has fewer tokens left. -/
theorem bind_lt (hs : top.Under n s) (h : FollowsAt top level s True p σ)
    (hf : ∀ a, ∀ k < n, Follows top level k (f a) (g a)) : FollowsAt top level s c (p >>= f) (σ >>= g) :=
  h.of_true.bind_at (hf _ _ (Nat.lt_of_lt_of_le (h.advances.lt trivial) hs.le) _
    (hs.of_leads h.advances.leads (Nat.le_refl _)))

theorem map {h : α → β} (hp : FollowsAt top level s c p σ) :
    FollowsAt top level s c (h <$> p) (h <$> σ) := by
  obtain ⟨hadvances, calls, hruns, hbelow⟩ := hp
  refine ⟨hadvances.map, calls, ?_, hbelow⟩
  rw [← List.append_nil calls]
  exact hruns.bind (.pure _ _)

/-- Looking at the state. -/
theorem look_bind (h : (p.run s).2 = s)
    (hf : FollowsAt top level s c (f (p.run s).1) (g (p.run s).1)) :
    FollowsAt top level s c (p >>= f) (liftM p >>= g) := by
  obtain ⟨hadvances, calls, hruns, hbelow⟩ := hf
  refine ⟨hadvances.look_bind h, calls, .step ?_, hbelow⟩
  show Runs (g (p.run s).1) (p.run s).2 calls ((f (p.run s).1).run (p.run s).2)
  rw [h]
  exact hruns

theorem current_bind {f : Token → Parse α} {g : Token → Script α}
    (h : FollowsAt top level s c (f s.current) (g s.current)) :
    FollowsAt top level s c (current >>= f) (liftM current >>= g) := look_bind rfl h

theorem get_bind {f : State → Parse α} {g : State → Script α} (h : FollowsAt top level s c (f s) (g s)) :
    FollowsAt top level s c (get >>= f) (liftM (get : Parse State) >>= g) := look_bind rfl h

/-- A step before what takes a token. -/
theorem step_bind (h : s.Leads (p.run s).2)
    (hf : FollowsAt top level (p.run s).2 c (f (p.run s).1) (g (p.run s).1)) :
    FollowsAt top level s c (p >>= f) (liftM p >>= g) := by
  obtain ⟨hadvances, calls, hruns, hbelow⟩ := hf
  refine ⟨⟨h.trans hadvances.1, fun hc => ?_⟩, calls, .step hruns, hbelow⟩
  exact Nat.lt_of_lt_of_le (hadvances.2 hc) h.length_le

/-- A bound for what comes next is taken from the number of tokens left. -/
theorem remaining_bind {f : Nat → Parse α} (hf : FollowsAt top level s c (f s.rest.length) σ) :
    FollowsAt top level s c (remaining >>= f) σ :=
  ⟨⟨hf.advances.leads, hf.advances.lt⟩, hf.runs⟩

theorem ite [Decidable d] (hp : d → FollowsAt top level s c p σ) (hq : ¬d → FollowsAt top level s c q τ) :
    FollowsAt top level s c (if d then p else q) (if d then σ else τ) := by
  by_cases h : d
  · rw [if_pos h, if_pos h]
    exact hp h
  · rw [if_neg h, if_neg h]
    exact hq h

theorem isAt_ite (hyes : s.current.kind = kind → FollowsAt top level s c p σ)
    (hno : s.current.kind ≠ kind → FollowsAt top level s c q τ) :
    FollowsAt top level s c (do if ← isAt kind then p else q) (do if ← isAt kind then σ else τ) :=
  .look_bind rfl (.ite (fun h => hyes (beq_iff_eq.mp h)) fun h => hno (mt beq_iff_eq.mpr h))

/-- A step that takes a token where it says yes. -/
theorem guard_ite {b : Parse Bool} (hs : top.Under n s) (hb : Advances s ((b.run s).1 = true) b)
    (hc : c → (b.run s).1 = true) (hyes : ∀ k < n, Follows top level k p σ)
    (hno : Follows top level n q τ) :
    FollowsAt top level s c (do if ← b then p else q) (do if ← b then σ else τ) := by
  refine (lift (hb.imp hc)).bind_at (.ite (fun h => ?_) fun _ => ?_)
  · exact hyes _ (Nat.lt_of_lt_of_le (hb.2 h) hs.le) _ (hs.of_leads hb.1 (Nat.le_refl _))
  · exact hno _ (hs.of_leads hb.1 (Nat.le_trans hb.1.length_le hs.le))

theorem advance (hs : top.Under n s) (hkind : s.current.kind = kind) (h : kind ≠ .endOfFile) :
    FollowsAt top level s True advance (liftM advance) :=
  lift ((advances_advance hs.ended).imp fun _ => hkind ▸ h)

theorem call {r : Routine} {p : Parse r.Result} (hp : Performs n r p) (hs : top.Under n s)
    (hfits : r.Fits s) (hlower : n < top.rest.length ∨ r.level < level) :
    FollowsAt top level s (r.Consumes s) p (call r) := by
  obtain ⟨hadvances, calls, hruns, -⟩ := hp s hs.ended hs.le hfits
  refine ⟨hadvances, [(s, r)], .call hruns (.pure _ _), ?_⟩
  simp only [List.mem_singleton, forall_eq]
  exact ⟨hs.leads, hfits, hlower.imp_left (Nat.lt_of_le_of_lt hs.le)⟩

/-- The script looks at the state before it does what the reader does. -/
theorem look {b : Parse β} {g : β → Script α} (h : (b.run s).2 = s)
    (hf : FollowsAt top level s c p (g (b.run s).1)) : FollowsAt top level s c p (liftM b >>= g) := by
  obtain ⟨hadvances, calls, hruns, hbelow⟩ := hf
  refine ⟨hadvances, calls, .step ?_, hbelow⟩
  show Runs (g (b.run s).1) (b.run s).2 calls (p.run s)
  rw [h]
  exact hruns

/-- The script looks at the next token before it does what the reader does. -/
theorem current_look {g : Token → Script α} (h : FollowsAt top level s c p (g s.current)) :
    FollowsAt top level s c p (liftM current >>= g) := look rfl h

/-- The script makes a choice that the reader does not make. -/
theorem choose [Decidable d] (hp : d → FollowsAt top level s c p σ) (hq : ¬d → FollowsAt top level s c p τ) :
    FollowsAt top level s c p (if d then σ else τ) := by
  by_cases h : d
  · rw [if_pos h]
    exact hp h
  · rw [if_neg h]
    exact hq h

/-- The script finds that a token is missing which the reader does not look for. -/
theorem eat_choose (h : s.current.kind ≠ kind) (hq : FollowsAt top level s c p τ) :
    FollowsAt top level s c p (do if ← eat kind then σ else τ) := by
  have hrun : (eat kind).run s = (false, s) := by
    show (if (s.current.kind == kind) = true then _ else _ : Parse Bool).run s = _
    rw [if_neg (mt beq_iff_eq.mp h)]
    rfl
  refine .look (congrArg Prod.snd hrun) (.choose (fun hyes => ?_) fun _ => hq)
  rw [hrun] at hyes
  cases hyes

end FollowsAt

namespace Follows

theorem pure (a : α) : Follows top level n (Pure.pure a) (Pure.pure a) := fun _ _ => .pure a

theorem of_le {k : Nat} (h : Follows top level n p σ) (hk : k ≤ n) : Follows top level k p σ :=
  fun s hs => h s ⟨hs.ended, hs.leads, Nat.le_trans hs.le hk⟩

theorem bind (h : Follows top level n p σ) (hf : ∀ a, Follows top level n (f a) (g a)) :
    Follows top level n (p >>= f) (σ >>= g) :=
  fun s hs => (h s hs).bind hs hf

theorem map {h : α → β} (hp : Follows top level n p σ) : Follows top level n (h <$> p) (h <$> σ) :=
  fun s hs => (hp s hs).map

theorem lift (h : ∀ s, s.Ended → Advances s False p) : Follows top level n p (liftM p) :=
  fun s hs => .lift (h s hs.ended)

theorem look_bind (h : ∀ s, (p.run s).2 = s) (hf : ∀ a, Follows top level n (f a) (g a)) :
    Follows top level n (p >>= f) (liftM p >>= g) :=
  fun s hs => .look_bind (h s) (hf _ s hs)

theorem remaining_bind {f : Nat → Parse α} (hf : ∀ r ≤ n, Follows top level r (f r) σ) :
    Follows top level n (remaining >>= f) σ :=
  fun s hs => .remaining_bind (hf _ hs.le s ⟨hs.ended, hs.leads, Nat.le_refl _⟩)

theorem ite [Decidable d] (hp : Follows top level n p σ) (hq : Follows top level n q τ) :
    Follows top level n (if d then p else q) (if d then σ else τ) :=
  fun s hs => .ite (fun _ => hp s hs) fun _ => hq s hs

theorem guard_ite {b : Parse Bool} (hb : ∀ s, s.Ended → Advances s ((b.run s).1 = true) b)
    (hyes : ∀ k < n, Follows top level k p σ) (hno : Follows top level n q τ) :
    Follows top level n (do if ← b then p else q) (do if ← b then σ else τ) :=
  fun s hs => .guard_ite hs (hb s hs.ended) False.elim hyes hno

theorem advance : Follows top level n advance (liftM advance) :=
  lift fun _ hs => (advances_advance hs).imp False.elim

/-- A call with fewer tokens left, or of a routine below the level. -/
theorem call {r : Routine} {p : Parse r.Result} (hp : Performs n r p) (hfits : ∀ s, r.Fits s)
    (hlower : n < top.rest.length ∨ r.level < level) : Follows top level n p (call r) :=
  fun s hs => (FollowsAt.call hp hs (hfits s) hlower).imp False.elim

theorem inner {r : Routine} {p : Parse r.Result} (hp : Performs n r p) (hfits : ∀ s, r.Fits s)
    (hn : n < top.rest.length) : Follows top level n p (Parser.call r) :=
  .call hp hfits (.inl hn)

theorem lower {r : Routine} {p : Parse r.Result} (hp : Performs n r p) (hfits : ∀ s, r.Fits s)
    (hlevel : r.level < level) : Follows top level n p (Parser.call r) :=
  .call hp hfits (.inr hlevel)

end Follows

/-- A bound that is taken from the number of tokens left. -/
theorem Performs.of_remaining {r : Routine} {p : Nat → Parse r.Result} (h : ∀ m ≤ n, Performs m r (p m)) :
    Performs n r (remaining >>= p) :=
  fun s hs hn hfits => .remaining_bind (h _ hn s hs (Nat.le_refl _) hfits)

theorem guard_eat (hkind : kind ≠ .endOfFile) (hs : s.Ended) :
    Advances s (((eat kind).run s).1 = true) (eat kind) :=
  (advances_eat hs hkind).imp fun h => beq_iff_eq.mp (run_eat_fst s kind ▸ h)

theorem guard_expect (hkind : kind ≠ .endOfFile) (hs : s.Ended) :
    Advances s (((expect kind).run s).1 = true) (expect kind) :=
  (advances_expect hs hkind).imp fun h => beq_iff_eq.mp (run_expect_fst s kind ▸ h)

end ScriptAnalysis.Syntax.Parser

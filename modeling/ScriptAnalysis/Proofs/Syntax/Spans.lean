import ScriptAnalysis.Proofs.Syntax.Parsed
import ScriptAnalysis.Proofs.Token.Cover

/-!
# Where nodes stand

Whatever a text says, every node of the tree that is read from it stands between two offsets of the text at
which no character is cut (`lies_ofChars`). A node starts where a token or another node starts, or at the
place of a missing name, and it stops where the last consumed token did, but not before its start. `Lays At p P`
says that `p` returns something that `P` holds of when the tokens that are left stand between offsets that
`At` holds of; there is one lemma for each reader.
-/

namespace ScriptAnalysis

open Text

theorem Text.IsBoundary.le_byteLength {cs : List Char} {offset : Nat} (h : IsBoundary cs offset) :
    offset ≤ byteLength cs := by
  obtain ⟨before, after, rfl, rfl⟩ := h
  rw [byteLength_append]
  exact Nat.le_add_right ..

/-- The span goes from one offset that `At` holds of to another one that is not before it. -/
structure Span.Sits (At : Nat → Prop) (s : Span) : Prop where
  le : s.start ≤ s.stop
  start : At s.start
  stop : At s.stop

theorem Span.sits_point {At : Nat → Prop} {offset : Nat} (h : At offset) : (point offset).Sits At :=
  ⟨Nat.le_refl offset, h, h⟩

namespace Syntax

/-- Every node of the tree stands between offsets that `At` holds of. -/
def Node.Lies (At : Nat → Prop) (n : Node Span) : Prop := ∀ l ∈ n.labels, l.Sits At

namespace Node

variable {At : Nat → Prop}

theorem lies_mk_iff {l : Span} {k : Kind (Ident Span) (Node Span)} :
    (mk l k).Lies At ↔ l.Sits At ∧ ∀ c ∈ (mk l k).children, c.Lies At := by
  simp only [Lies, labels_eq (mk l k), List.forall_mem_append, List.forall_mem_singleton,
    List.mem_flatten, List.mem_map, forall_exists_index, and_imp, forall_apply_eq_imp_iff₂, label_mk]
  exact ⟨fun ⟨hbelow, hself⟩ => ⟨hself, fun c hc l hl => hbelow l c hc hl⟩,
    fun ⟨hself, hbelow⟩ => ⟨fun l c hc hl => hbelow c hc l hl, hself⟩⟩

theorem Lies.label {n : Node Span} (h : n.Lies At) : n.label.Sits At :=
  h _ (List.mem_map_of_mem n.mem_nodes_self)

theorem lies_toNode {i : Ident Span} (h : i.label.Sits At) : i.toNode.Lies At :=
  lies_mk_iff.2 ⟨h, List.forall_mem_nil _⟩

end Node

namespace Parser

/-! ### Readers -/

/-- The tokens that are left stand between offsets that `At` holds of, and the last one stopped at one. -/
structure State.Lies (At : Nat → Prop) (s : State) : Prop where
  rest : ∀ t ∈ s.rest, t.span.Sits At
  ending : s.ending.span.Sits At
  lastEnd : At s.lastEnd

/-- The reader returns something that `P` holds of, and leaves tokens that stand where they should. -/
def Lays {γ : Type} (At : Nat → Prop) (p : Parse γ) (P : γ → Prop) : Prop :=
  ∀ s : State, s.Lies At → P (p.run s).1 ∧ (p.run s).2.Lies At

variable {At : Nat → Prop} {γ δ : Type} {p : Parse γ} {P : γ → Prop} {Q : δ → Prop}

namespace State.Lies

variable {s : State}

theorem current (h : s.Lies At) : s.current.span.Sits At := by
  obtain ⟨rest, ending, lastEnd, errors⟩ := s
  cases rest with
  | nil => exact h.ending
  | cons t rest => exact h.rest t List.mem_cons_self

theorem advanced (h : s.Lies At) : s.advanced.Lies At := by
  obtain ⟨rest, ending, lastEnd, errors⟩ := s
  cases rest with
  | nil => exact h
  | cons t rest =>
    obtain ⟨ht, hrest⟩ := List.forall_mem_cons.1 h.rest
    exact ⟨hrest, h.ending, ht.stop⟩

theorem reported (h : s.Lies At) (cause : ErrorCause) (span : Span) : (s.reported cause span).Lies At := by
  rw [State.reported]
  split
  · split
    · exact h
    · exact ⟨h.rest, h.ending, h.lastEnd⟩
  · exact ⟨h.rest, h.ending, h.lastEnd⟩

end State.Lies

namespace Lays

theorem pure {x : γ} (h : P x) : Lays At (Pure.pure x) P := fun _ hs => ⟨h, hs⟩

theorem bind {f : γ → Parse δ} (hp : Lays At p P) (hf : ∀ x, P x → Lays At (f x) Q) :
    Lays At (p >>= f) Q := by
  intro s hs
  obtain ⟨hx, hs'⟩ := hp s hs
  exact hf _ hx _ hs'

theorem map {f : γ → δ} (hp : Lays At p P) (hf : ∀ x, P x → Q (f x)) : Lays At (f <$> p) Q := by
  intro s hs
  obtain ⟨hx, hs'⟩ := hp s hs
  exact ⟨hf _ hx, hs'⟩

theorem some (hp : Lays At p P) : Lays At (Option.some <$> p) (fun x? => ∀ x ∈ x?, P x) :=
  hp.map fun _ hx _ hy => Option.some.inj hy ▸ hx

/-- One of two readers. -/
theorem ite {p' : Parse γ} {c : Prop} [Decidable c] (hp : Lays At p P) (hp' : Lays At p' P) :
    Lays At (if c then p else p') P := by
  split
  · exact hp
  · exact hp'

/-- Looking at the state. -/
theorem get_bind {f : State → Parse δ} (h : ∀ s : State, s.Lies At → Lays At (f s) Q) :
    Lays At (get >>= f) Q := fun s hs => h s hs s hs

end Lays

/-! ### Steps -/

variable {kind : TokenKind} {cause : ErrorCause} {start : Nat} {close : TokenKind}
  {k : Kind (Ident Span) (Node Span)}

theorem lays_current : Lays At current (·.span.Sits At) := fun _ hs => ⟨hs.current, hs⟩

theorem lays_isAt : Lays At (isAt kind) fun _ => True := fun _ hs => ⟨trivial, hs⟩

theorem lays_remaining : Lays At remaining fun _ => True := fun _ hs => ⟨trivial, hs⟩

theorem lays_advance : Lays At advance (·.span.Sits At) := fun _ hs => ⟨hs.current, hs.advanced⟩

theorem lays_report {span : Span} : Lays At (report cause span) fun _ => True :=
  fun _ hs => ⟨trivial, hs.reported cause span⟩

theorem lays_reportHere : Lays At (reportHere cause) fun _ => True :=
  lays_current.bind fun _ _ => lays_report

theorem lays_eat : Lays At (eat kind) fun _ => True :=
  lays_isAt.bind fun _ _ => .ite (lays_advance.bind fun _ _ => .pure trivial) (.pure trivial)

theorem lays_expect : Lays At (expect kind) fun _ => True :=
  lays_eat.bind fun _ _ => .ite (.pure trivial) (lays_reportHere.bind fun _ _ => .pure trivial)

theorem lays_semicolon : Lays At semicolon fun _ => True :=
  lays_eat.bind fun _ _ => .ite (.pure trivial) (.get_bind fun _ _ => .ite (.pure trivial) lays_reportHere)

/-- A node stops where the last token did, or where it starts if that is later. -/
theorem lays_finish (hstart : At start) (hbelow : ∀ c ∈ (k.map Ident.toNode id).children, c.Lies At) :
    Lays At (finish start k) (·.Lies At) := by
  intro s hs
  refine ⟨Node.lies_mk_iff.2 ⟨⟨Nat.le_max_right .., hstart, ?_⟩, hbelow⟩, hs⟩
  show At (max s.lastEnd start)
  rcases Nat.le_total s.lastEnd start with h | h
  · rwa [Nat.max_eq_right h]
  · rw [Nat.max_eq_left h]
    exact hs.lastEnd

theorem lays_missingName : Lays At missingName (·.label.Sits At) :=
  lays_current.bind fun _ ht => .pure (Span.sits_point ht.start)

theorem lays_missingExpression : Lays At missingExpression (·.Lies At) :=
  lays_missingName.bind fun _ hi => .pure (Node.lies_toNode hi)

theorem lays_declaredName : Lays At (declaredName cause) (·.label.Sits At) :=
  lays_isAt.bind fun _ _ => .ite (lays_advance.bind fun _ ht => .pure ht)
    (lays_reportHere.bind fun _ _ => lays_missingName)

theorem lays_memberName : Lays At memberName (·.label.Sits At) :=
  lays_current.bind fun _ ht => .ite (lays_advance.bind fun _ _ => .pure ht)
    (lays_reportHere.bind fun _ _ => lays_missingName)

theorem lays_items {item : NodeParse} (hitem : Lays At item (·.Lies At)) (r : Nat) :
    Lays At (items item close r) fun as => ∀ a ∈ as, a.Lies At := by
  induction r with
  | zero => exact .pure (by simp)
  | succ r ih =>
    refine lays_isAt.bind fun _ _ => lays_isAt.bind fun _ _ => .ite (.pure (by simp)) ?_
    refine hitem.bind fun a ha => lays_eat.bind fun _ _ => .ite ?_ (.pure (by simpa using ha))
    exact ih.bind fun as has => .pure (List.forall_mem_cons.2 ⟨ha, has⟩)

/-- What is below the node of a declaration or of a parameter. -/
theorem lies_declaration {i : Ident Span} {t? e? : Option (Node Span)} (hi : i.label.Sits At)
    (ht : ∀ t ∈ t?, t.Lies At) (he : ∀ e ∈ e?, e.Lies At) :
    ∀ c ∈ i.toNode :: ((t?.map id).toList ++ (e?.map id).toList), c.Lies At := by
  simpa [or_imp, forall_and] using ⟨Node.lies_toNode hi, ht, he⟩

/-! ### Types -/

theorem lays_brackets (hstart : At start) (r : Nat) {t : Node Span} (ht : t.Lies At) :
    Lays At (brackets start r t) (·.Lies At) := by
  induction r generalizing t with
  | zero => exact .pure ht
  | succ r ih =>
    refine lays_isAt.bind fun _ _ => .get_bind fun _ _ => .ite ?_ (.pure ht)
    refine lays_advance.bind fun _ _ => lays_advance.bind fun _ _ => ?_
    exact (lays_finish (k := .arrayType t) hstart (List.forall_mem_singleton.2 ht)).bind
      fun t' ht' => ih ht'

theorem lays_primaryType {type : NodeParse} (htype : Lays At type (·.Lies At)) :
    Lays At (primaryType type) (·.Lies At) := by
  refine lays_current.bind fun token htoken => ?_
  have hleaf : ∀ {k : Kind (Ident Span) (Node Span)}, (∀ c ∈ (k.map Ident.toNode id).children, c.Lies At) →
      (Node.mk token.span k).Lies At := fun hbelow => Node.lies_mk_iff.2 ⟨htoken, hbelow⟩
  split
  · refine lays_advance.bind fun _ _ => ?_
    split
    · exact .pure (hleaf (List.forall_mem_nil _))
    · exact .pure (hleaf (List.forall_mem_singleton.2 (Node.lies_toNode htoken)))
  · exact lays_advance.bind fun _ _ => .pure (hleaf (List.forall_mem_nil _))
  · exact lays_advance.bind fun _ _ => htype.bind fun t ht => lays_expect.bind fun _ _ => .pure ht
  · refine lays_reportHere.bind fun _ _ => lays_missingName.bind fun i hi => ?_
    exact .pure (Node.lies_mk_iff.2 ⟨hi, List.forall_mem_singleton.2 (Node.lies_toNode hi)⟩)

theorem lays_arrayType {type : NodeParse} (htype : Lays At type (·.Lies At)) :
    Lays At (arrayType type) (·.Lies At) :=
  lays_current.bind fun _ htoken => (lays_primaryType htype).bind fun _ ht =>
    lays_remaining.bind fun r _ => lays_brackets htoken.start r ht

theorem lays_moreMembers {member : NodeParse} (hmember : Lays At member (·.Lies At)) (r : Nat) :
    Lays At (moreMembers member r) fun ts => ∀ t ∈ ts, t.Lies At := by
  induction r with
  | zero => exact .pure (by simp)
  | succ r ih =>
    refine lays_eat.bind fun _ _ => .ite ?_ (.pure (by simp))
    exact hmember.bind fun t ht => ih.bind fun ts hts => .pure (List.forall_mem_cons.2 ⟨ht, hts⟩)

theorem lays_typeWithin (r : Nat) : Lays At (typeWithin r) (·.Lies At) := by
  induction r with
  | zero => exact lays_missingExpression
  | succ r ih =>
    refine lays_current.bind fun token htoken => (lays_arrayType ih).bind fun first hfirst => ?_
    refine lays_remaining.bind fun m _ => (lays_moreMembers (lays_arrayType ih) m).bind fun ts hts => ?_
    cases ts with
    | nil => exact .pure hfirst
    | cons second more =>
      have hmembers := List.forall_mem_cons.2 ⟨hfirst, hts⟩
      exact lays_finish htoken.start (by simpa [Kind.map, Kind.children] using hmembers)

theorem lays_type : Lays At type (·.Lies At) := lays_remaining.bind fun m _ => lays_typeWithin (m + 1)

theorem lays_typeAnnotation : Lays At typeAnnotation fun t? => ∀ t ∈ t?, t.Lies At :=
  lays_eat.bind fun _ _ => .ite (lays_type.bind fun _ ht => .pure fun _ hx => Option.some.inj hx ▸ ht)
    (.pure (by simp))

theorem lays_typeAlias : Lays At typeAlias (·.Lies At) := by
  refine lays_advance.bind fun token htoken => lays_declaredName.bind fun i hi => ?_
  refine lays_expect.bind fun _ _ => lays_type.bind fun t ht => lays_semicolon.bind fun _ _ => ?_
  exact lays_finish htoken.start (List.forall_mem_cons.2 ⟨Node.lies_toNode hi, List.forall_mem_singleton.2 ht⟩)

/-! ### Expressions -/

/-- An operator's operands stand where they should, and so does what they are the operands of. -/
theorem lays_binary {op : BinaryOperator} {left right : Node Span} (hleft : left.Lies At)
    (hright : right.Lies At) : Lays At (finish left.label.start (.binary op left right)) (·.Lies At) :=
  lays_finish hleft.label.start (List.forall_mem_cons.2 ⟨hleft, List.forall_mem_singleton.2 hright⟩)

section

variable {expr : NodeParse} (hexpr : Lays At expr (·.Lies At))

include hexpr

theorem lays_initializer : Lays At (initializer expr) fun e? => ∀ e ∈ e?, e.Lies At :=
  lays_eat.bind fun _ _ => .ite
    (hexpr.bind fun _ he => .pure fun _ hx => Option.some.inj hx ▸ he) (.pure (by simp))

theorem lays_parameter : Lays At (parameter expr) (·.Lies At) := by
  refine lays_current.bind fun token htoken => lays_declaredName.bind fun i hi => ?_
  refine lays_typeAnnotation.bind fun t? ht => (lays_initializer hexpr).bind fun e? he => ?_
  exact lays_finish htoken.start (lies_declaration hi ht he)

theorem lays_parameters : Lays At (parameters expr) fun ps => ∀ p ∈ ps, p.Lies At := by
  refine lays_expect.bind fun _ _ => .ite ?_ (.pure (by simp))
  refine lays_remaining.bind fun r _ => (lays_items (lays_parameter hexpr) (r + 1)).bind fun ps hps => ?_
  exact lays_expect.bind fun _ _ => .pure hps

theorem lays_arguments : Lays At (arguments expr) fun es => ∀ e ∈ es, e.Lies At := by
  refine lays_expect.bind fun _ _ => lays_remaining.bind fun r _ => ?_
  exact (lays_items hexpr (r + 1)).bind fun es hes => lays_expect.bind fun _ _ => .pure hes

theorem lays_primary : Lays At (primary expr) (·.Lies At) := by
  refine lays_current.bind fun token htoken => ?_
  have hleaf : ∀ k : Kind (Ident Span) (Node Span), (k.map Ident.toNode id).children = [] →
      Lays At (do let _ ← advance; pure (Node.mk token.span k)) (·.Lies At) :=
    fun k hk => lays_advance.bind fun _ _ => .pure (Node.lies_mk_iff.2 ⟨htoken,
      fun c hc => absurd (hk ▸ hc : c ∈ []) List.not_mem_nil⟩)
  split
  · exact hleaf _ rfl
  · exact hleaf _ rfl
  · exact hleaf _ rfl
  · exact hleaf _ rfl
  · exact hleaf _ rfl
  · exact hleaf _ rfl
  · refine lays_advance.bind fun _ _ => hexpr.bind fun e he => lays_expect.bind fun _ _ => ?_
    exact lays_finish htoken.start (List.forall_mem_singleton.2 he)
  · refine lays_advance.bind fun _ _ => lays_remaining.bind fun r _ => ?_
    refine (lays_items hexpr (r + 1)).bind fun es hes => lays_expect.bind fun _ _ => ?_
    exact lays_finish htoken.start (by simpa [Kind.map, Kind.children] using hes)
  · exact lays_reportHere.bind fun _ _ => lays_advance.bind fun _ _ => lays_missingExpression
  · exact lays_reportHere.bind fun _ _ => lays_missingExpression

theorem lays_suffixes (hstart : At start) (r : Nat) {e : Node Span} (he : e.Lies At) :
    Lays At (suffixes expr start r e) (·.Lies At) := by
  induction r generalizing e with
  | zero => exact .pure he
  | succ r ih =>
    refine lays_current.bind fun _ _ => ?_
    split
    · refine lays_advance.bind fun _ _ => lays_memberName.bind fun i hi => ?_
      have hbelow := List.forall_mem_cons.2 ⟨he, List.forall_mem_singleton.2 (Node.lies_toNode hi)⟩
      exact (lays_finish (k := .propertyAccess e i) hstart hbelow).bind fun e' he' => ih he'
    · refine (lays_arguments hexpr).bind fun as has => ?_
      have hbelow := List.forall_mem_cons.2 ⟨he, has⟩
      exact (lays_finish (k := .call e as) hstart
        (by simpa [Kind.map, Kind.children] using hbelow)).bind fun e' he' => ih he'
    · exact .pure he

theorem lays_operand : Lays At (operand expr) (·.Lies At) :=
  lays_current.bind fun _ htoken => (lays_primary hexpr).bind fun _ he =>
    lays_remaining.bind fun r _ => lays_suffixes hexpr htoken.start r he

theorem lays_unary (r : Nat) : Lays At (unary expr r) (·.Lies At) := by
  induction r with
  | zero => exact lays_operand hexpr
  | succ r ih =>
    refine lays_current.bind fun token htoken => ?_
    split
    · refine lays_advance.bind fun _ _ => ih.bind fun e he => ?_
      exact lays_finish htoken.start (List.forall_mem_singleton.2 he)
    · exact lays_operand hexpr

theorem lays_operators (r least : Nat) {left : Node Span} (hleft : left.Lies At) :
    Lays At (operators expr r least left) (·.Lies At) := by
  induction r generalizing least left with
  | zero => exact .pure hleft
  | succ r ih =>
    refine lays_current.bind fun token _ => ?_
    split
    · refine .ite (.pure hleft) (lays_advance.bind fun _ _ => lays_remaining.bind fun m _ => ?_)
      refine (lays_unary hexpr m).bind fun first hfirst => (ih _ hfirst).bind fun right hright => ?_
      exact (lays_binary hleft hright).bind fun e he => ih least he
    · exact .pure hleft

/-! ### Statements -/

theorem lays_variableDeclaration {keyword : VariableKind} :
    Lays At (variableDeclaration expr keyword) (·.Lies At) := by
  refine lays_current.bind fun token htoken => lays_declaredName.bind fun i hi => ?_
  refine lays_typeAnnotation.bind fun t? ht => (lays_initializer hexpr).bind fun e? he => ?_
  have hfinish : Lays At (finish token.span.start (.variableDeclaration i t? e?)) (·.Lies At) :=
    lays_finish htoken.start (lies_declaration hi ht he)
  exact .ite (lays_report.bind fun _ _ => hfinish) hfinish

theorem lays_variableDeclarations {keyword : VariableKind} (r : Nat) :
    Lays At (variableDeclarations (variableDeclaration expr keyword) r) fun ds => ∀ d ∈ ds, d.Lies At := by
  induction r with
  | zero => exact (lays_variableDeclaration hexpr).bind fun d hd => .pure (by simpa using hd)
  | succ r ih =>
    refine (lays_variableDeclaration hexpr).bind fun d hd => ?_
    refine lays_eat.bind fun _ _ => .ite ?_ (.pure (by simpa using hd))
    exact ih.bind fun ds hds => .pure (List.forall_mem_cons.2 ⟨hd, hds⟩)

theorem lays_variableStatement {keyword : VariableKind} :
    Lays At (variableStatement expr keyword) (·.Lies At) := by
  refine lays_advance.bind fun token htoken => lays_remaining.bind fun r _ => ?_
  refine (lays_variableDeclarations hexpr r).bind fun ds hds => lays_semicolon.bind fun _ _ => ?_
  exact lays_finish htoken.start (by simpa [Kind.map, Kind.children] using hds)

theorem lays_condition : Lays At (condition expr) (·.Lies At) :=
  lays_expect.bind fun _ _ => hexpr.bind fun _ he => lays_expect.bind fun _ _ => .pure he

theorem lays_returnStatement : Lays At (returnStatement expr) (·.Lies At) := by
  refine lays_advance.bind fun token htoken => .get_bind fun s _ => ?_
  have hfinish : ∀ e? : Option (Node Span), (∀ e ∈ e?, e.Lies At) → Lays At (do
      semicolon
      finish token.span.start (.returnStatement e?)) (·.Lies At) :=
    fun e? he => lays_semicolon.bind fun _ _ =>
      lays_finish htoken.start (by simpa [Kind.map, Kind.children] using he)
  exact .ite (hfinish none (by simp)) (hexpr.some.bind fun e? he => hfinish e? he)

theorem lays_expressionStatement : Lays At (expressionStatement expr) (·.Lies At) := by
  refine lays_current.bind fun token htoken => hexpr.bind fun e he => lays_semicolon.bind fun _ _ => ?_
  exact lays_finish htoken.start (List.forall_mem_singleton.2 he)

end

section

variable {statement : Parse (Option (Node Span))} (hstatement : Lays At statement fun a? => ∀ a ∈ a?, a.Lies At)

include hstatement

theorem lays_statements (r : Nat) : Lays At (statements statement close r) fun ss => ∀ s ∈ ss, s.Lies At := by
  induction r with
  | zero => exact .pure (by simp)
  | succ r ih =>
    refine lays_isAt.bind fun _ _ => lays_isAt.bind fun _ _ => .ite (.pure (by simp)) ?_
    refine lays_remaining.bind fun before _ => hstatement.bind fun s? hs => ?_
    have hmore : Lays At (do
        let more ← statements statement close r
        pure (s?.toList ++ more)) fun ss => ∀ s ∈ ss, s.Lies At :=
      ih.bind fun more hmore => .pure (List.forall_mem_append.2 ⟨by simpa using hs, hmore⟩)
    exact lays_remaining.bind fun _ _ => .ite (lays_advance.bind fun _ _ => hmore) hmore

theorem lays_block : Lays At (block statement) (·.Lies At) := by
  refine lays_current.bind fun token htoken => lays_expect.bind fun _ _ => lays_remaining.bind fun r _ => ?_
  refine (lays_statements hstatement (r + 1)).bind fun ss hss => lays_expect.bind fun _ _ => ?_
  exact lays_finish htoken.start (by simpa [Kind.map, Kind.children] using hss)

theorem lays_embedded : Lays At (embedded statement) (·.Lies At) := by
  refine hstatement.bind fun s? hs => ?_
  cases s? with
  | some s => exact .pure (hs s rfl)
  | none =>
    exact .get_bind fun s hs => .pure (Node.lies_mk_iff.2 ⟨Span.sits_point hs.lastEnd, List.forall_mem_nil _⟩)

variable {expr : NodeParse} (hexpr : Lays At expr (·.Lies At))

include hexpr

theorem lays_arrowFunction : Lays At (arrowFunction statement expr) (·.Lies At) := by
  refine lays_current.bind fun token htoken => ?_
  have hrest : ∀ ps : List (Node Span), (∀ p ∈ ps, p.Lies At) → Lays At (do
      let returnType? ← typeAnnotation
      let _ ← expect .arrow
      let body ← if ← isAt .leftBrace then block statement else expr
      finish token.span.start (.arrowFunction ps returnType? body)) (·.Lies At) := by
    intro ps hps
    refine lays_typeAnnotation.bind fun t? ht => lays_expect.bind fun _ _ => ?_
    have hfinish : ∀ b : Node Span, b.Lies At →
        Lays At (finish token.span.start (.arrowFunction ps t? b)) (·.Lies At) := by
      intro b hb
      refine lays_finish htoken.start ?_
      simpa [Kind.map, Kind.children, or_imp, forall_and] using ⟨hps, ht, hb⟩
    exact lays_isAt.bind fun _ _ => .ite ((lays_block hstatement).bind hfinish) (hexpr.bind hfinish)
  refine lays_isAt.bind fun _ _ => .ite ?_ ((lays_parameters hexpr).bind hrest)
  refine lays_declaredName.bind fun i hi => ?_
  have hparam : (Node.mk i.label (.parameter i none none)).Lies At :=
    Node.lies_mk_iff.2 ⟨hi, List.forall_mem_singleton.2 (Node.lies_toNode hi)⟩
  exact (Lays.pure (List.forall_mem_singleton.2 hparam)).bind hrest

theorem lays_assignment : Lays At (assignment statement expr) (·.Lies At) := by
  refine .get_bind fun _ _ => .ite (lays_arrowFunction hstatement hexpr) ?_
  refine lays_remaining.bind fun m _ => (lays_unary hexpr m).bind fun first hfirst => ?_
  refine lays_remaining.bind fun m _ => (lays_operators hexpr m 0 hfirst).bind fun left hleft => ?_
  refine lays_current.bind fun token _ => ?_
  split
  · rename_i op _
    have hright : Lays At (do
        let _ ← advance
        let right ← expr
        finish left.label.start (.binary op left right)) (·.Lies At) :=
      lays_advance.bind fun _ _ => hexpr.bind fun right hright => lays_binary hleft hright
    exact .ite (lays_report.bind fun _ _ => hright) hright
  · exact .pure hleft

theorem lays_functionDeclaration : Lays At (functionDeclaration statement expr) (·.Lies At) := by
  refine lays_advance.bind fun token htoken => lays_declaredName.bind fun i hi => ?_
  refine (lays_parameters hexpr).bind fun ps hps => lays_typeAnnotation.bind fun t? ht => ?_
  have hfinish : ∀ b : Node Span, b.Lies At →
      Lays At (finish token.span.start (.functionDeclaration i ps t? b)) (·.Lies At) := by
    intro b hb
    refine lays_finish htoken.start ?_
    simpa [Kind.map, Kind.children, or_imp, forall_and] using ⟨Node.lies_toNode hi, hps, ht, hb⟩
  refine lays_isAt.bind fun _ _ => .ite ((lays_block hstatement).bind hfinish) ?_
  refine lays_reportHere.bind fun _ _ => .get_bind fun s hs => hfinish _ ?_
  exact Node.lies_mk_iff.2 ⟨Span.sits_point hs.lastEnd, List.forall_mem_nil _⟩

theorem lays_ifStatement : Lays At (ifStatement statement expr) (·.Lies At) := by
  refine lays_advance.bind fun token htoken => (lays_condition hexpr).bind fun c hc => ?_
  refine (lays_embedded hstatement).bind fun a ha => ?_
  have hfinish : ∀ b? : Option (Node Span), (∀ b ∈ b?, b.Lies At) →
      Lays At (finish token.span.start (.ifStatement c a b?)) (·.Lies At) := by
    intro b? hb
    refine lays_finish htoken.start ?_
    simpa [Kind.map, Kind.children] using ⟨hc, ha, hb⟩
  refine lays_eat.bind fun _ _ => .ite ?_ (hfinish none (by simp))
  exact (lays_embedded hstatement).some.bind fun b? hb => hfinish b? hb

theorem lays_whileStatement : Lays At (whileStatement statement expr) (·.Lies At) := by
  refine lays_advance.bind fun token htoken => (lays_condition hexpr).bind fun c hc => ?_
  refine (lays_embedded hstatement).bind fun a ha => ?_
  exact lays_finish htoken.start (List.forall_mem_cons.2 ⟨hc, List.forall_mem_singleton.2 ha⟩)

theorem lays_anyStatement : Lays At (anyStatement statement expr) fun a? => ∀ a ∈ a?, a.Lies At := by
  refine .get_bind fun s _ => ?_
  split
  · exact (lays_block hstatement).some
  · exact (lays_variableStatement hexpr).some
  · exact (lays_variableStatement hexpr).some
  · exact (lays_variableStatement hexpr).some
  · exact (lays_functionDeclaration hstatement hexpr).some
  · exact (lays_ifStatement hstatement hexpr).some
  · exact (lays_whileStatement hstatement hexpr).some
  · exact (lays_returnStatement hexpr).some
  · exact lays_advance.bind fun token htoken => (lays_finish htoken.start (List.forall_mem_nil _)).some
  · exact lays_reportHere.bind fun _ _ => lays_advance.bind fun _ _ => .pure (by simp)
  · refine .ite lays_typeAlias.some (.ite (lays_expressionStatement hexpr).some ?_)
    exact lays_reportHere.bind fun _ _ => lays_advance.bind fun _ _ => .pure (by simp)

end

/-- Statements and expressions stand where they should at every depth. -/
theorem lays_nested (r : Nat) :
    Lays At (statement r) (fun a? => ∀ a ∈ a?, a.Lies At) ∧ Lays At (expression r) (·.Lies At) := by
  induction r with
  | zero => exact ⟨.pure (by simp), lays_missingExpression⟩
  | succ r ih =>
    obtain ⟨hstatement, hexpr⟩ := ih
    exact ⟨lays_anyStatement hstatement hexpr, lays_assignment hstatement hexpr⟩

theorem lays_sourceFile : Lays At sourceFile fun ss => ∀ s ∈ ss, s.Lies At :=
  lays_remaining.bind fun left _ => lays_statements (lays_nested _).1 (left + 1)

end Parser

/-! ### The tree of a text -/

theorem sits_of_mem_spans {cs : List Char} {s : Span} (h : s ∈ (TokenStream.ofChars cs).spans) :
    s.Sits (IsBoundary cs) := by
  obtain ⟨before, part, after, hcs, -, rfl⟩ := TokenStream.exists_part_of_mem_spans h
  exact ⟨Nat.le_add_right .., ⟨before, part ++ after, by rw [hcs, List.append_assoc], rfl⟩,
    ⟨before ++ part, after, hcs, byteLength_append ..⟩⟩

/-- **Every node stands between two offsets of the text** at which no character is cut. -/
theorem lies_ofChars (cs : List Char) : (parseTokens (.ofChars cs)).1.Lies (IsBoundary cs) := by
  have hstart : IsBoundary cs 0 := ⟨[], cs, rfl, rfl⟩
  have hending := TokenStream.span_ending_ofChars cs
  have hstop : IsBoundary cs (byteLength cs) := ⟨cs, [], (List.append_nil cs).symm, rfl⟩
  have hinitial : (Parser.State.initial (.ofChars cs)).Lies (IsBoundary cs) := by
    refine ⟨fun t ht => ?_, ?_, hstart⟩
    · exact sits_of_mem_spans (List.mem_append_left _ (List.mem_map_of_mem ht))
    · exact hending ▸ Span.sits_point hstop
  obtain ⟨hbody, -⟩ := Parser.lays_sourceFile _ hinitial
  rw [parseTokens_eq, hending]
  exact Node.lies_mk_iff.2 ⟨⟨Nat.zero_le _, hstart, hstop⟩, by simpa [Node.children, Node.shape,
    Kind.map, Kind.children] using hbody⟩

/-- Numbering leaves every node where it is. -/
theorem Tree.sits_span {fileName text : String} {n : Node Place}
    (h : n ∈ (Tree.parse fileName text).root.nodes) : n.span.Sits (IsBoundary text.toList) := by
  have hlabel : n.label ∈ (Tree.parse fileName text).root.labels := List.mem_map_of_mem h
  rw [Tree.root_parse, Node.labels_number] at hlabel
  obtain ⟨i, hi⟩ := List.getElem?_of_mem hlabel
  rw [getElem?_numbered] at hi
  obtain ⟨l, hl, hplace⟩ := Option.map_eq_some_iff.1 hi
  have hspan : n.span = l := by rw [Node.span, ← hplace]
  rw [hspan]
  exact lies_ofChars text.toList l (List.mem_of_getElem? hl)

end Syntax

end ScriptAnalysis

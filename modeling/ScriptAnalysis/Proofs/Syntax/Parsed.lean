import ScriptAnalysis.Proofs.Syntax.Grammar
import ScriptAnalysis.Proofs.Syntax.Nodes
import ScriptAnalysis.Proofs.Token.Places

/-!
# What a reader builds

Whatever a text says, the tree that is read from it is grammatical: a statement stands where a statement
has to, a type where a type has to, and so on (`formed_root_parse`). A name in it stands on characters of the
text unless it is missing (`placed_ofChars`). `Gives n p P` says that `p` returns something that `P`
holds of when at most `n` tokens are left; there is one lemma for each reader.

Only types need the bound: a type that is nested too deep would become the name of an expression, so it
matters that each parenthesis takes a token.
-/

namespace ScriptAnalysis.Syntax

/-- The tree is grammatical in a role. -/
abbrev Node.Formed {α : Type} (role : Role) (n : Node α) : Prop := n.Grammatical (fun _ => True) role

theorem Node.Formed.mk {α : Type} {role : Role} {l : α} {k : Kind (Ident α) (Node α)}
    (hfits : k.fits role = true) (hparts : ∀ part ∈ k.parts, part.2.Formed part.1) :
    (Node.mk l k).Formed role :=
  Grammatical.mk l hfits trivial hparts

theorem Node.Formed.parts {α : Type} {role : Role} {l : α} {k : Kind (Ident α) (Node α)}
    (h : (Node.mk l k).Formed role) : ∀ part ∈ k.parts, part.2.Formed part.1 :=
  fun _ hpart => h.of_mem_parts hpart

/-- The body of a function is a block or an expression. -/
theorem Node.Formed.isBlock_or_expression {α : Type} {n : Node α} (h : n.Formed .body) :
    n.kind.isBlock = true ∨ n.Formed .expression := by
  have hfits := h.fits_kind
  rw [Kind.fits, Bool.or_eq_true] at hfits
  exact hfits.imp_right fun hexpression => h.of_fits hexpression

theorem Node.formed_map_iff {α : Type} {role : Role} {ns : List (Node α)} :
    (∀ part ∈ ns.map (role, ·), part.2.Formed part.1) ↔ ∀ n ∈ ns, n.Formed role := by
  simp

theorem Node.formed_toList_iff {α : Type} {role : Role} {n? : Option (Node α)} :
    (∀ part ∈ n?.toList.map (role, ·), part.2.Formed part.1) ↔ ∀ n ∈ n?, n.Formed role := by
  simp

/-! ### Names on characters -/

/-- The names that are children of a node. -/
def Kind.names {ν β : Type} : Kind ν β → List ν
  | variableDeclaration name _ _ | functionDeclaration name _ _ _ | parameter name _ _ | typeAlias name _
  | propertyAccess _ name | typeReference name => [name]
  | _ => []

/-- The name stands on characters unless it is missing. -/
def Ident.Placed (i : Ident Span) : Prop := i.text ≠ "" → i.label.start < i.label.stop

/-- The tree is grammatical in a role, and the names in it stand on characters unless they are missing. -/
inductive Node.Placed : Role → Node Span → Prop where
  /-- A node that fits, with names and parts that are placed. -/
  | mk {role : Role} {l : Span} {k : Kind (Ident Span) (Node Span)} (fits : k.fits role = true)
      (self : ∀ text ∈ k.identifierText?, (Ident.mk l text).Placed) (names : ∀ i ∈ k.names, i.Placed)
      (parts : ∀ part ∈ k.parts, Placed part.1 part.2) : Placed role (.mk l k)

namespace Node.Placed

variable {role role' : Role} {n : Node Span}

theorem fits_kind (h : n.Placed role) : n.kind.fits role = true := by
  cases h with
  | mk fits => exact fits

theorem of_fits (h : n.Placed role) (hfits : n.kind.fits role' = true) : n.Placed role' := by
  cases h with
  | mk _ self names parts => exact .mk hfits self names parts

theorem formed (h : n.Placed role) : n.Formed role := by
  induction h with
  | mk fits _ _ _ ih => exact .mk fits ih

theorem toNode {i : Ident Span} (h : i.Placed) : i.toNode.Placed .expression :=
  .mk rfl (fun _ htext => Option.some.inj htext ▸ h) (List.forall_mem_nil _) (List.forall_mem_nil _)

end Node.Placed

theorem Node.placed_map_iff {role : Role} {ns : List (Node Span)} :
    (∀ part ∈ ns.map (role, ·), part.2.Placed part.1) ↔ ∀ n ∈ ns, n.Placed role := by
  simp

theorem Node.placed_toList_iff {role : Role} {n? : Option (Node Span)} :
    (∀ part ∈ n?.toList.map (role, ·), part.2.Placed part.1) ↔ ∀ n ∈ n?, n.Placed role := by
  simp

namespace Parser

/-! ### Readers -/

/-- The tokens that are left cover characters, and the end of the text comes behind them. -/
structure State.Fed (s : State) : Prop where
  tokens : ∀ t ∈ s.rest, t.span.start < t.span.stop
  ending : s.ending.kind = .endOfFile

/-- The reader returns something that `P` holds of and leaves the tokens from some place on. -/
def GivesAt {γ : Type} (s : State) (p : Parse γ) (P : γ → Prop) : Prop :=
  P (p.run s).1 ∧ (p.run s).2.rest <:+ s.rest ∧ (p.run s).2.ending = s.ending

/-- With at most `n` tokens left the reader returns something that `P` holds of and leaves the tokens from
some place on. -/
def Gives {γ : Type} (n : Nat) (p : Parse γ) (P : γ → Prop) : Prop :=
  ∀ s : State, s.rest.length ≤ n → s.Fed → GivesAt s p P

variable {γ δ : Type} {p : Parse γ} {P : γ → Prop} {Q : δ → Prop} {n : Nat}

namespace State.Fed

variable {s s' : State}

theorem of_suffix (h : s.Fed) (hrest : s'.rest <:+ s.rest) (hending : s'.ending = s.ending) : s'.Fed :=
  ⟨fun t ht => h.tokens t (hrest.subset ht), hending ▸ h.ending⟩

/-- The next token is the first of those that are left. -/
theorem rest_ne_nil (h : s.Fed) (hcurrent : s.current.kind ≠ .endOfFile) : s.rest ≠ [] := by
  intro hrest
  refine hcurrent ?_
  rw [State.current, State.peek, hrest]
  exact h.ending

theorem lt_current (h : s.Fed) (hcurrent : s.current.kind ≠ .endOfFile) :
    s.current.span.start < s.current.span.stop := by
  obtain ⟨t, ts, hrest⟩ := List.exists_cons_of_ne_nil (h.rest_ne_nil hcurrent)
  rw [State.current, State.peek, hrest]
  exact h.tokens t (hrest ▸ List.mem_cons_self)

end State.Fed

namespace Gives

theorem pure {x : γ} (h : P x) : Gives n (Pure.pure x) P :=
  fun _ _ _ => ⟨h, List.suffix_refl _, rfl⟩

theorem bind {f : γ → Parse δ} (hp : Gives n p P) (hf : ∀ x, P x → Gives n (f x) Q) :
    Gives n (p >>= f) Q := by
  intro s hs hfed
  obtain ⟨hx, hle, hend⟩ := hp s hs hfed
  obtain ⟨hy, hle', hend'⟩ := hf _ hx _ (Nat.le_trans hle.length_le hs) (hfed.of_suffix hle hend)
  exact ⟨hy, hle'.trans hle, hend'.trans hend⟩

theorem map {f : γ → δ} (hp : Gives n p P) (hf : ∀ x, P x → Q (f x)) : Gives n (f <$> p) Q := by
  intro s hs hfed
  obtain ⟨hx, hle, hend⟩ := hp s hs hfed
  exact ⟨hf _ hx, hle, hend⟩

theorem some (hp : Gives n p P) : Gives n (Option.some <$> p) (fun x? => ∀ x ∈ x?, P x) :=
  hp.map fun _ hx _ hy => Option.some.inj hy ▸ hx

/-- One of two readers. -/
theorem ite {p' : Parse γ} {c : Prop} [Decidable c] (hp : Gives n p P) (hp' : Gives n p' P) :
    Gives n (if c then p else p') P := by
  split
  · exact hp
  · exact hp'

/-- Looking at the state. -/
theorem get_bind {f : State → Parse δ} (h : ∀ s, Gives n (f s) Q) : Gives n (get >>= f) Q :=
  fun s hs hfed => h s s hs hfed

/-- Counting the tokens. -/
theorem remaining_bind {f : Nat → Parse δ} (h : ∀ m, m ≤ n → Gives m (f m) Q) :
    Gives n (remaining >>= f) Q :=
  fun s hs hfed => h s.rest.length hs s (Nat.le_refl _) hfed

end Gives

/-! ### Steps -/

variable {kind : TokenKind} {cause : ErrorCause} {start : Nat} {close : TokenKind}
  {k : Kind (Ident Span) (Node Span)} {role : Role}

theorem gives_current : Gives n current fun _ => True :=
  fun _ _ _ => ⟨trivial, List.suffix_refl _, rfl⟩

theorem GivesAt.current_bind {s : State} {f : Token → Parse δ} (h : GivesAt s (f s.current) Q) :
    GivesAt s (current >>= f) Q := h

theorem GivesAt.isAt_bind {s : State} {f : Bool → Parse δ} (h : GivesAt s (f (s.current.kind == kind)) Q) :
    GivesAt s (isAt kind >>= f) Q := h

theorem gives_isAt : Gives n (isAt kind) fun _ => True :=
  fun _ _ _ => ⟨trivial, List.suffix_refl _, rfl⟩

theorem gives_remaining : Gives n remaining fun _ => True :=
  fun _ _ _ => ⟨trivial, List.suffix_refl _, rfl⟩

theorem State.rest_advanced (s : State) : s.advanced.rest = s.rest.tail := by
  rw [State.advanced]
  split
  · rename_i hrest
    rw [hrest]
    rfl
  · rename_i hrest
    rw [hrest]
    rfl

@[simp] theorem State.ending_advanced (s : State) : s.advanced.ending = s.ending := by
  rw [State.advanced]
  split <;> rfl

theorem gives_advance : Gives n advance fun _ => True := by
  intro s _ _
  refine ⟨trivial, ?_, s.ending_advanced⟩
  show s.advanced.rest <:+ _
  rw [s.rest_advanced]
  exact List.tail_suffix _

/-- A token is consumed unless the text ends. -/
theorem GivesAt.advance_bind {s : State} {f : Token → Parse δ} (hs : s.rest.length ≤ n) (hfed : s.Fed)
    (hcurrent : s.current.kind ≠ .endOfFile) (h : ∀ m < n, Gives m (f s.current) Q) :
    GivesAt s (advance >>= f) Q := by
  have hpos := List.length_pos_iff.mpr (hfed.rest_ne_nil hcurrent)
  have hrest : s.advanced.rest <:+ s.rest := s.rest_advanced ▸ List.tail_suffix _
  have hlt : s.advanced.rest.length < n := by
    rw [s.rest_advanced, List.length_tail]
    omega
  obtain ⟨hx, hle, hend⟩ := h _ hlt s.advanced (Nat.le_refl _) (hfed.of_suffix hrest s.ending_advanced)
  exact ⟨hx, hle.trans hrest, hend.trans s.ending_advanced⟩

theorem gives_report {span : Span} : Gives n (report cause span) fun _ => True := by
  intro s _ _
  refine ⟨trivial, ?_, ?_⟩
  · show (s.reported cause span).rest <:+ _
    rw [State.reported]
    split
    · split <;> exact List.suffix_refl _
    · exact List.suffix_refl _
  · show (s.reported cause span).ending = _
    rw [State.reported]
    split
    · split <;> rfl
    · rfl

theorem gives_reportHere : Gives n (reportHere cause) fun _ => True :=
  gives_current.bind fun _ _ => gives_report

theorem gives_eat : Gives n (eat kind) fun _ => True :=
  gives_isAt.bind fun _ _ => .ite (gives_advance.bind fun _ _ => .pure trivial) (.pure trivial)

theorem gives_expect : Gives n (expect kind) fun _ => True :=
  gives_eat.bind fun _ _ => .ite (.pure trivial) (gives_reportHere.bind fun _ _ => .pure trivial)

theorem gives_semicolon : Gives n semicolon fun _ => True :=
  gives_eat.bind fun _ _ => .ite (.pure trivial)
    (.get_bind fun _ => .ite (.pure trivial) gives_reportHere)

theorem gives_finish (hfits : k.fits role = true) (hself : k.identifierText? = none)
    (hnames : ∀ i ∈ k.names, i.Placed) (hparts : ∀ part ∈ k.parts, part.2.Placed part.1) :
    Gives n (finish start k) (·.Placed role) :=
  fun _ _ _ => ⟨.mk hfits (by simp [hself]) hnames hparts, List.suffix_refl _, rfl⟩

theorem gives_missingName : Gives n missingName Ident.Placed :=
  gives_current.bind fun _ _ => .pure fun htext => absurd rfl htext

theorem gives_missingExpression : Gives n missingExpression (·.Placed .expression) :=
  gives_missingName.bind fun _ hi => .pure (.toNode hi)

theorem gives_declaredName : Gives n (declaredName cause) Ident.Placed := by
  intro s hs hfed
  refine .isAt_bind ?_
  split
  · rename_i hkind
    have hcurrent : s.current.kind ≠ .endOfFile := by simp [beq_iff_eq.mp hkind]
    exact .advance_bind hs hfed hcurrent fun _ _ => .pure fun _ => hfed.lt_current hcurrent
  · exact (gives_reportHere.bind fun _ _ => gives_missingName) s hs hfed

theorem gives_memberName : Gives n memberName Ident.Placed := by
  intro s hs hfed
  refine .current_bind ?_
  split
  · rename_i hkind
    have hcurrent : s.current.kind ≠ .endOfFile := by
      intro hend
      rw [hend] at hkind
      exact absurd hkind (by decide)
    exact .advance_bind hs hfed hcurrent fun _ _ => .pure fun _ => hfed.lt_current hcurrent
  · exact (gives_reportHere.bind fun _ _ => gives_missingName) s hs hfed

theorem gives_items {item : NodeParse} (hitem : ∀ n, Gives n item (·.Placed role)) (r : Nat) :
    Gives n (items item close r) fun as => ∀ a ∈ as, a.Placed role := by
  induction r with
  | zero => exact .pure (by simp)
  | succ r ih =>
    refine gives_isAt.bind fun _ _ => gives_isAt.bind fun _ _ => .ite (.pure (by simp)) ?_
    refine (hitem n).bind fun a ha => gives_eat.bind fun _ _ => .ite ?_ (.pure (by simpa using ha))
    exact ih.bind fun as has => .pure (List.forall_mem_cons.mpr ⟨ha, has⟩)

/-! ### Types -/

theorem gives_brackets (r : Nat) {t : Node Span} (ht : t.Placed .type) :
    Gives n (brackets start r t) (·.Placed .type) := by
  induction r generalizing t with
  | zero => exact .pure ht
  | succ r ih =>
    refine gives_isAt.bind fun _ _ => .get_bind fun _ => .ite ?_ (.pure ht)
    refine gives_advance.bind fun _ _ => gives_advance.bind fun _ _ => ?_
    exact (gives_finish rfl rfl (List.forall_mem_nil _)
      (by simpa [Kind.parts] using ht)).bind fun t' ht' => ih ht'

/-- A type in parentheses has fewer tokens. -/
theorem gives_primaryType {type : NodeParse} (htype : ∀ m < n, Gives m type (·.Placed .type)) :
    Gives n (primaryType type) (·.Placed .type) := by
  intro s hs hfed
  refine .current_bind ?_
  split
  · rename_i hkind
    have hplaced := hfed.lt_current (by simp [hkind])
    refine (gives_advance.bind fun _ _ => ?_) s hs hfed
    split
    · exact .pure (.mk rfl nofun (List.forall_mem_nil _) (List.forall_mem_nil _))
    · exact .pure (.mk rfl nofun (List.forall_mem_singleton.mpr fun _ => hplaced) (List.forall_mem_nil _))
  · refine (gives_advance.bind fun _ _ => ?_) s hs hfed
    exact .pure (.mk rfl nofun (List.forall_mem_nil _) (List.forall_mem_nil _))
  · rename_i hkind
    refine .advance_bind hs hfed (by simp [hkind]) fun m hm => ?_
    exact (htype m hm).bind fun t ht => gives_expect.bind fun _ _ => .pure ht
  · refine (gives_reportHere.bind fun _ _ => gives_missingName.bind fun i hi => ?_) s hs hfed
    exact .pure (.mk rfl nofun (List.forall_mem_singleton.mpr hi) (List.forall_mem_nil _))

theorem gives_arrayType {type : NodeParse} (htype : ∀ m < n, Gives m type (·.Placed .type)) :
    Gives n (arrayType type) (·.Placed .type) :=
  gives_current.bind fun _ _ => (gives_primaryType htype).bind fun _ ht =>
    gives_remaining.bind fun r _ => gives_brackets r ht

theorem gives_moreMembers {member : NodeParse} (hmember : Gives n member (·.Placed .type)) (r : Nat) :
    Gives n (moreMembers member r) fun ts => ∀ t ∈ ts, t.Placed .type := by
  induction r with
  | zero => exact .pure (by simp)
  | succ r ih =>
    refine gives_eat.bind fun _ _ => .ite ?_ (.pure (by simp))
    exact hmember.bind fun t ht => ih.bind fun ts hts => .pure (List.forall_mem_cons.mpr ⟨ht, hts⟩)

/-- There are not more parentheses around a type than tokens. -/
theorem gives_typeWithin (r : Nat) (h : n < r) : Gives n (typeWithin r) (·.Placed .type) := by
  induction r generalizing n with
  | zero => exact absurd h (Nat.not_lt_zero n)
  | succ r ih =>
    have harray : ∀ m ≤ n, Gives m (arrayType (typeWithin r)) (·.Placed .type) :=
      fun m hm => gives_arrayType fun m' hm' => ih (by omega)
    refine gives_current.bind fun _ _ => (harray n (Nat.le_refl n)).bind fun first hfirst => ?_
    refine .remaining_bind fun m hm => (gives_moreMembers (harray m hm) m).bind fun ts hts => ?_
    cases ts with
    | nil => exact .pure hfirst
    | cons second more =>
      refine gives_finish rfl rfl (List.forall_mem_nil _) ?_
      have hmembers := List.forall_mem_cons.mpr ⟨hfirst, hts⟩
      simpa [Kind.parts] using hmembers

theorem gives_type : Gives n type (·.Placed .type) :=
  .remaining_bind fun m _ => gives_typeWithin (m + 1) (Nat.lt_succ_self m)

theorem gives_typeAnnotation : Gives n typeAnnotation fun t? => ∀ t ∈ t?, t.Placed .type :=
  gives_eat.bind fun _ _ => .ite (gives_type.bind fun _ ht => .pure fun _ hx => Option.some.inj hx ▸ ht)
    (.pure (by simp))

theorem gives_typeAlias : Gives n typeAlias (·.Placed .statement) := by
  refine gives_advance.bind fun _ _ => gives_declaredName.bind fun i hi => ?_
  refine gives_expect.bind fun _ _ => gives_type.bind fun t ht => gives_semicolon.bind fun _ _ => ?_
  exact gives_finish rfl rfl (List.forall_mem_singleton.mpr hi) (by simpa [Kind.parts] using ht)

/-! ### Expressions -/

theorem placed_binary_parts {op : BinaryOperator} {left right : Node Span}
    (hleft : left.Placed .expression) (hright : right.Placed .expression) :
    ∀ part ∈ (Kind.binary op left right : Kind (Ident Span) (Node Span)).parts,
      part.2.Placed part.1 := by
  simp only [Kind.parts, List.forall_mem_cons]
  exact ⟨hleft, hright, by simp⟩

section

variable {expr : NodeParse} (hexpr : ∀ n, Gives n expr (·.Placed .expression))

include hexpr

theorem gives_initializer : Gives n (initializer expr) fun e? => ∀ e ∈ e?, e.Placed .expression :=
  gives_eat.bind fun _ _ => .ite
    ((hexpr n).bind fun _ he => .pure fun _ hx => Option.some.inj hx ▸ he) (.pure (by simp))

theorem gives_parameter : Gives n (parameter expr) (·.Placed .parameter) := by
  refine gives_current.bind fun _ _ => gives_declaredName.bind fun i hi => ?_
  refine gives_typeAnnotation.bind fun t? ht => (gives_initializer hexpr).bind fun e? he => ?_
  exact gives_finish rfl rfl (List.forall_mem_singleton.mpr hi)
    (List.forall_mem_append.mpr ⟨Node.placed_toList_iff.mpr ht, Node.placed_toList_iff.mpr he⟩)

theorem gives_parameters : Gives n (parameters expr) fun ps => ∀ p ∈ ps, p.Placed .parameter := by
  refine gives_expect.bind fun _ _ => .ite ?_ (.pure (by simp))
  refine gives_remaining.bind fun r _ => ?_
  refine (gives_items (fun _ => gives_parameter hexpr) (r + 1)).bind fun ps hps => ?_
  exact gives_expect.bind fun _ _ => .pure hps

theorem gives_arguments : Gives n (arguments expr) fun es => ∀ e ∈ es, e.Placed .expression := by
  refine gives_expect.bind fun _ _ => gives_remaining.bind fun r _ => ?_
  refine (gives_items hexpr (r + 1)).bind fun es hes => ?_
  exact gives_expect.bind fun _ _ => .pure hes

theorem gives_primary : Gives n (primary expr) (·.Placed .expression) := by
  intro s hs hfed
  have hleaf : ∀ k : Kind (Ident Span) (Node Span), k.fits .expression = true → k.names = [] →
      k.parts = [] → (∀ text ∈ k.identifierText?, (Ident.mk s.current.span text).Placed) →
      Gives n (do let _ ← advance; pure (Node.mk s.current.span k)) (·.Placed .expression) :=
    fun k hfits hnames hparts hself => gives_advance.bind fun _ _ =>
      .pure (.mk hfits hself (by simp [hnames]) (by simp [hparts]))
  refine .current_bind ?_
  split
  · rename_i hkind
    refine hleaf _ rfl rfl rfl (fun text htext _ => ?_) s hs hfed
    exact hfed.lt_current (by simp [hkind])
  · exact hleaf _ rfl rfl rfl (by simp [Kind.identifierText?]) s hs hfed
  · exact hleaf _ rfl rfl rfl (by simp [Kind.identifierText?]) s hs hfed
  · exact hleaf _ rfl rfl rfl (by simp [Kind.identifierText?]) s hs hfed
  · exact hleaf _ rfl rfl rfl (by simp [Kind.identifierText?]) s hs hfed
  · exact hleaf _ rfl rfl rfl (by simp [Kind.identifierText?]) s hs hfed
  · refine (gives_advance.bind fun _ _ => (hexpr n).bind fun e he => ?_) s hs hfed
    refine gives_expect.bind fun _ _ => ?_
    exact gives_finish rfl rfl (List.forall_mem_nil _) (by simpa [Kind.parts] using he)
  · refine (gives_advance.bind fun _ _ => gives_remaining.bind fun r _ => ?_) s hs hfed
    refine (gives_items hexpr (r + 1)).bind fun es hes => gives_expect.bind fun _ _ => ?_
    exact gives_finish rfl rfl (List.forall_mem_nil _) (Node.placed_map_iff.mpr hes)
  · exact (gives_reportHere.bind fun _ _ => gives_advance.bind fun _ _ => gives_missingExpression) s hs hfed
  · exact (gives_reportHere.bind fun _ _ => gives_missingExpression) s hs hfed

theorem gives_suffixes (r : Nat) {e : Node Span} (he : e.Placed .expression) :
    Gives n (suffixes expr start r e) (·.Placed .expression) := by
  induction r generalizing e with
  | zero => exact .pure he
  | succ r ih =>
    refine gives_current.bind fun _ _ => ?_
    split
    · refine gives_advance.bind fun _ _ => gives_memberName.bind fun i hi => ?_
      refine (gives_finish rfl rfl ?_ ?_).bind fun e' he' => ih he'
      · exact List.forall_mem_singleton.mpr hi
      · simpa [Kind.parts] using he
    · refine (gives_arguments hexpr).bind fun as has => ?_
      refine (gives_finish rfl rfl (List.forall_mem_nil _) ?_).bind fun e' he' => ih he'
      exact List.forall_mem_cons.mpr ⟨he, Node.placed_map_iff.mpr has⟩
    · exact .pure he

theorem gives_operand : Gives n (operand expr) (·.Placed .expression) :=
  gives_current.bind fun _ _ => (gives_primary hexpr).bind fun _ he =>
    gives_remaining.bind fun r _ => gives_suffixes hexpr r he

theorem gives_unary (r : Nat) : Gives n (unary expr r) (·.Placed .expression) := by
  induction r with
  | zero => exact gives_operand hexpr
  | succ r ih =>
    refine gives_current.bind fun token _ => ?_
    split
    · refine gives_advance.bind fun _ _ => ih.bind fun e he => ?_
      exact gives_finish rfl rfl (List.forall_mem_nil _) (by simpa [Kind.parts] using he)
    · exact gives_operand hexpr

theorem gives_operators (r least : Nat) {left : Node Span} (hleft : left.Placed .expression) :
    Gives n (operators expr r least left) (·.Placed .expression) := by
  induction r generalizing least left with
  | zero => exact .pure hleft
  | succ r ih =>
    refine gives_current.bind fun token _ => ?_
    split
    · refine .ite (.pure hleft) ?_
      refine gives_advance.bind fun _ _ => gives_remaining.bind fun m _ => ?_
      refine (gives_unary hexpr m).bind fun first hfirst => (ih _ hfirst).bind fun right hright => ?_
      refine (gives_finish rfl rfl (List.forall_mem_nil _) ?_).bind fun e he => ih least he
      exact placed_binary_parts hleft hright
    · exact .pure hleft

/-! ### Statements -/

theorem gives_variableDeclaration {keyword : VariableKind} :
    Gives n (variableDeclaration expr keyword) (·.Placed .declaration) := by
  refine gives_current.bind fun _ _ => gives_declaredName.bind fun i hi => ?_
  refine gives_typeAnnotation.bind fun t? ht => (gives_initializer hexpr).bind fun e? he => ?_
  have hfinish : ∀ start, Gives n (finish start (.variableDeclaration i t? e?)) (·.Placed .declaration) :=
    fun _ => gives_finish rfl rfl (List.forall_mem_singleton.mpr hi)
      (List.forall_mem_append.mpr ⟨Node.placed_toList_iff.mpr ht, Node.placed_toList_iff.mpr he⟩)
  exact .ite (gives_report.bind fun _ _ => hfinish _) (hfinish _)

theorem gives_variableDeclarations {keyword : VariableKind} (r : Nat) :
    Gives n (variableDeclarations (variableDeclaration expr keyword) r)
      fun ds => ∀ d ∈ ds, d.Placed .declaration := by
  induction r with
  | zero => exact (gives_variableDeclaration hexpr).bind fun d hd => .pure (by simpa using hd)
  | succ r ih =>
    refine (gives_variableDeclaration hexpr).bind fun d hd => ?_
    refine gives_eat.bind fun _ _ => .ite ?_ (.pure (by simpa using hd))
    exact ih.bind fun ds hds => .pure (List.forall_mem_cons.mpr ⟨hd, hds⟩)

theorem gives_variableStatement {keyword : VariableKind} :
    Gives n (variableStatement expr keyword) (·.Placed .statement) := by
  refine gives_advance.bind fun _ _ => gives_remaining.bind fun r _ => ?_
  refine (gives_variableDeclarations hexpr r).bind fun ds hds => gives_semicolon.bind fun _ _ => ?_
  exact gives_finish rfl rfl (List.forall_mem_nil _) (Node.placed_map_iff.mpr hds)

theorem gives_condition : Gives n (condition expr) (·.Placed .expression) :=
  gives_expect.bind fun _ _ => (hexpr n).bind fun _ he => gives_expect.bind fun _ _ => .pure he

theorem gives_returnStatement : Gives n (returnStatement expr) (·.Placed .statement) := by
  refine gives_advance.bind fun token _ => .get_bind fun s => ?_
  have hfinish : ∀ e? : Option (Node Span), (∀ e ∈ e?, e.Placed .expression) → Gives n (do
      semicolon
      finish token.span.start (.returnStatement e?)) (·.Placed .statement) :=
    fun e? he => gives_semicolon.bind fun _ _ =>
      gives_finish rfl rfl (List.forall_mem_nil _) (Node.placed_toList_iff.mpr he)
  refine .ite (hfinish none (by simp)) ?_
  exact (hexpr n).some.bind fun e? he => hfinish e? he

theorem gives_expressionStatement : Gives n (expressionStatement expr) (·.Placed .statement) := by
  refine gives_current.bind fun _ _ => (hexpr n).bind fun e he => gives_semicolon.bind fun _ _ => ?_
  exact gives_finish rfl rfl (List.forall_mem_nil _) (by simpa [Kind.parts] using he)

end

section

variable {statement : Parse (Option (Node Span))}
  (hstatement : ∀ n, Gives n statement fun a? => ∀ a ∈ a?, a.Placed .statement)

include hstatement

theorem gives_statements (r : Nat) :
    Gives n (statements statement close r) fun ss => ∀ s ∈ ss, s.Placed .statement := by
  induction r with
  | zero => exact .pure (by simp)
  | succ r ih =>
    refine gives_isAt.bind fun _ _ => gives_isAt.bind fun _ _ => .ite (.pure (by simp)) ?_
    refine gives_remaining.bind fun before _ => (hstatement n).bind fun s? hs => ?_
    have hmore : Gives n (do
        let more ← statements statement close r
        pure (s?.toList ++ more)) fun ss => ∀ s ∈ ss, s.Placed .statement :=
      ih.bind fun more hmore => .pure (List.forall_mem_append.mpr ⟨by simpa using hs, hmore⟩)
    exact gives_remaining.bind fun _ _ => .ite (gives_advance.bind fun _ _ => hmore) hmore

theorem gives_block {role : Role} (hrole : (Kind.block [] : Kind Unit Unit).fits role = true) :
    Gives n (block statement) (·.Placed role) := by
  refine gives_current.bind fun _ _ => gives_expect.bind fun _ _ => gives_remaining.bind fun r _ => ?_
  refine (gives_statements hstatement (r + 1)).bind fun ss hss => gives_expect.bind fun _ _ => ?_
  exact gives_finish hrole rfl (List.forall_mem_nil _) (Node.placed_map_iff.mpr hss)

theorem gives_embedded : Gives n (embedded statement) (·.Placed .statement) := by
  refine (hstatement n).bind fun s? hs => ?_
  cases s? with
  | some s => exact .pure (hs s rfl)
  | none =>
    exact .get_bind fun _ => .pure (.mk rfl nofun (List.forall_mem_nil _) (List.forall_mem_nil _))

variable {expr : NodeParse} (hexpr : ∀ n, Gives n expr (·.Placed .expression))

include hexpr

theorem gives_arrowFunction : Gives n (arrowFunction statement expr) (·.Placed .expression) := by
  refine gives_current.bind fun _ _ => ?_
  have hrest : ∀ start (ps : List (Node Span)), (∀ p ∈ ps, p.Placed .parameter) → Gives n (do
      let returnType? ← typeAnnotation
      let _ ← expect .arrow
      let body ← if ← isAt .leftBrace then block statement else expr
      finish start (.arrowFunction ps returnType? body)) (·.Placed .expression) := by
    intro start ps hps
    refine gives_typeAnnotation.bind fun t? ht => gives_expect.bind fun _ _ => ?_
    have hfinish : ∀ b : Node Span, b.Placed .body →
        Gives n (finish start (.arrowFunction ps t? b)) (·.Placed .expression) := by
      intro b hb
      refine gives_finish rfl rfl (List.forall_mem_nil _)
        (List.forall_mem_append.mpr ⟨Node.placed_map_iff.mpr hps, ?_⟩)
      exact List.forall_mem_append.mpr ⟨Node.placed_toList_iff.mpr ht, by simpa using hb⟩
    refine gives_isAt.bind fun _ _ => .ite ?_ ?_
    · exact (gives_block hstatement rfl).bind fun b hb => hfinish b hb
    · exact (hexpr n).bind fun b hb => hfinish b (hb.of_fits (Kind.fits_body_of_isExpression hb.fits_kind))
  refine gives_isAt.bind fun _ _ => .ite ?_ ?_
  · refine gives_declaredName.bind fun i hi => hrest _ _ ?_
    refine List.forall_mem_singleton.mpr ?_
    exact .mk rfl nofun (List.forall_mem_singleton.mpr hi) (List.forall_mem_nil _)
  · exact (gives_parameters hexpr).bind fun ps hps => hrest _ ps hps

theorem gives_assignment : Gives n (assignment statement expr) (·.Placed .expression) := by
  refine .get_bind fun _ => .ite (gives_arrowFunction hstatement hexpr) ?_
  refine gives_remaining.bind fun m _ => (gives_unary hexpr m).bind fun first hfirst => ?_
  refine gives_remaining.bind fun m _ => (gives_operators hexpr m 0 hfirst).bind fun left hleft => ?_
  refine gives_current.bind fun token _ => ?_
  split
  · rename_i op _
    have hright : Gives n (do
        let _ ← advance
        let right ← expr
        finish left.label.start (.binary op left right)) (·.Placed .expression) :=
      gives_advance.bind fun _ _ => (hexpr n).bind fun right hright =>
        gives_finish rfl rfl (List.forall_mem_nil _) (placed_binary_parts hleft hright)
    exact .ite (gives_report.bind fun _ _ => hright) hright
  · exact .pure hleft

theorem gives_functionDeclaration :
    Gives n (functionDeclaration statement expr) (·.Placed .statement) := by
  refine gives_advance.bind fun token _ => gives_declaredName.bind fun i hi => ?_
  refine (gives_parameters hexpr).bind fun ps hps => gives_typeAnnotation.bind fun t? ht => ?_
  have hfinish : ∀ b : Node Span, b.Placed .block →
      Gives n (finish token.span.start (.functionDeclaration i ps t? b)) (·.Placed .statement) := by
    intro b hb
    refine gives_finish rfl rfl (List.forall_mem_singleton.mpr hi)
      (List.forall_mem_append.mpr ⟨Node.placed_map_iff.mpr hps, ?_⟩)
    exact List.forall_mem_append.mpr ⟨Node.placed_toList_iff.mpr ht, by simpa using hb⟩
  refine gives_isAt.bind fun _ _ => .ite ?_ ?_
  · exact (gives_block hstatement rfl).bind fun b hb => hfinish b hb
  · refine gives_reportHere.bind fun _ _ => .get_bind fun _ => hfinish _ ?_
    exact .mk rfl nofun (List.forall_mem_nil _) (List.forall_mem_nil _)

theorem gives_ifStatement : Gives n (ifStatement statement expr) (·.Placed .statement) := by
  refine gives_advance.bind fun token _ => (gives_condition hexpr).bind fun c hc => ?_
  refine (gives_embedded hstatement).bind fun a ha => ?_
  have hfinish : ∀ b? : Option (Node Span), (∀ b ∈ b?, b.Placed .statement) →
      Gives n (finish token.span.start (.ifStatement c a b?)) (·.Placed .statement) := by
    intro b? hb
    refine gives_finish rfl rfl (List.forall_mem_nil _) ?_
    simp only [Kind.parts, List.forall_mem_cons]
    exact ⟨hc, ha, Node.placed_toList_iff.mpr hb⟩
  refine gives_eat.bind fun _ _ => .ite ?_ (hfinish none (by simp))
  exact (gives_embedded hstatement).some.bind fun b? hb => hfinish b? hb

theorem gives_whileStatement : Gives n (whileStatement statement expr) (·.Placed .statement) := by
  refine gives_advance.bind fun token _ => (gives_condition hexpr).bind fun c hc => ?_
  refine (gives_embedded hstatement).bind fun a ha => gives_finish rfl rfl (List.forall_mem_nil _) ?_
  simp only [Kind.parts, List.forall_mem_cons]
  exact ⟨hc, ha, by simp⟩

theorem gives_anyStatement :
    Gives n (anyStatement statement expr) fun a? => ∀ a ∈ a?, a.Placed .statement := by
  refine .get_bind fun s => ?_
  split
  · exact (gives_block hstatement rfl).some
  · exact (gives_variableStatement hexpr).some
  · exact (gives_variableStatement hexpr).some
  · exact (gives_variableStatement hexpr).some
  · exact (gives_functionDeclaration hstatement hexpr).some
  · exact (gives_ifStatement hstatement hexpr).some
  · exact (gives_whileStatement hstatement hexpr).some
  · exact (gives_returnStatement hexpr).some
  · refine gives_advance.bind fun _ _ => ?_
    exact (gives_finish rfl rfl (List.forall_mem_nil _) (List.forall_mem_nil _)).some
  · exact gives_reportHere.bind fun _ _ => gives_advance.bind fun _ _ => .pure (by simp)
  · refine .ite gives_typeAlias.some (.ite (gives_expressionStatement hexpr).some ?_)
    exact gives_reportHere.bind fun _ _ => gives_advance.bind fun _ _ => .pure (by simp)

end

/-- Statements and expressions are read as such at every depth. -/
theorem gives_nested (r : Nat) :
    (∀ n, Gives n (statement r) fun a? => ∀ a ∈ a?, a.Placed .statement) ∧
      ∀ n, Gives n (expression r) (·.Placed .expression) := by
  induction r with
  | zero => exact ⟨fun _ => .pure (by simp), fun _ => gives_missingExpression⟩
  | succ r ih =>
    obtain ⟨hstatement, hexpr⟩ := ih
    exact ⟨fun _ => gives_anyStatement hstatement hexpr, fun _ => gives_assignment hstatement hexpr⟩

theorem gives_sourceFile : Gives n sourceFile fun ss => ∀ s ∈ ss, s.Placed .statement :=
  gives_remaining.bind fun left _ => gives_statements (gives_nested _).1 (left + 1)

/-- Reading begins in front of the first token. -/
def State.initial (stream : TokenStream) : State := ⟨stream.tokens, stream.ending, 0, []⟩

end Parser

/-- The tree and the errors of the tokens are what reading them gives. -/
theorem parseTokens_eq (stream : TokenStream) :
    parseTokens stream =
      (.mk ⟨0, stream.ending.span.stop⟩ (.sourceFile (Parser.sourceFile.run (.initial stream)).1),
        (Parser.sourceFile.run (.initial stream)).2.errors.reverse) :=
  rfl

theorem Tree.errors_parse (fileName text : String) :
    (Tree.parse fileName text).errors =
      allErrors (parseTokens (.ofChars text.toList)).2 (TokenStream.ofChars text.toList).errors :=
  rfl

/-- An error of reading the tree is one of the errors of the file. -/
theorem Tree.mem_allErrors {e : Error} {treeErrors tokenErrors : List Error} (h : e ∈ treeErrors) :
    e ∈ Tree.allErrors treeErrors tokenErrors := by
  rw [Tree.allErrors.eq_def]
  split
  · exact h
  · exact List.mem_mergeSort.mpr (List.mem_append_left _ h)

/-! ### Numbering -/

section

variable {α β : Type}

/-- The parts of a node are among its children. -/
theorem Node.mem_children_of_mem_parts {l : α} {k : Kind (Ident α) (Node α)} {part : Role × Node α}
    (h : part ∈ k.parts) : part.2 ∈ (mk l k).children := by
  obtain ⟨role, n⟩ := part
  show n ∈ (k.map Ident.toNode fun n => n).children
  cases k <;> simp [Kind.parts] at h <;> simp [Kind.map, Kind.children] <;> grind

/-- The names of a node are among its children. -/
theorem Node.toNode_mem_children_of_mem_names {l : α} {k : Kind (Ident α) (Node α)} {i : Ident α}
    (h : i ∈ k.names) : i.toNode ∈ (mk l k).children := by
  show i.toNode ∈ (k.map Ident.toNode fun n => n).children
  cases k <;> simp [Kind.names] at h <;> simp [Kind.map, Kind.children, h]

/-- The roles of a node from those of its children. -/
def Kind.rolesOf (k : Kind (Role → Prop) (Role → Prop)) (role : Role) : Prop :=
  k.fits role = true ∧ ∀ part ∈ k.parts, part.2 part.1

/-- Labels do not matter for the roles of a tree. -/
theorem Node.formed_iff {role : Role} {n : Node α} :
    n.Formed role ↔ n.fold (fun _ => Kind.rolesOf) role := by
  induction n using induction_children generalizing role with
  | h n ih =>
    obtain ⟨l, k⟩ := n
    rw [fold_mk, Kind.rolesOf, Kind.fits_map, Kind.parts_map]
    simp only [List.forall_mem_map]
    constructor
    · intro h
      exact ⟨h.fits_kind, fun part hpart =>
        (ih _ (mem_children_of_mem_parts hpart)).mp (h.of_mem_parts hpart)⟩
    · rintro ⟨hfits, hparts⟩
      exact .mk hfits fun part hpart =>
        (ih _ (mem_children_of_mem_parts hpart)).mpr (hparts part hpart)

/-- Numbering keeps trees grammatical. -/
theorem Node.Formed.number {role : Role} {n : Node α} (h : n.Formed role) (f : Nat → α → β) :
    (n.number f).Formed role := by
  rw [formed_iff, fold_number]
  exact formed_iff.mp h

end

/-- **What is read is grammatical**, and its names stand on characters unless they are missing. -/
theorem placed_ofChars (cs : List Char) : (parseTokens (.ofChars cs)).1.Placed .file := by
  have hfed : (Parser.State.initial (.ofChars cs)).Fed :=
    ⟨fun t ht => (TokenStream.coversIn_ofChars cs t ht).lt, TokenStream.kind_ending_ofChars cs⟩
  obtain ⟨hbody, -⟩ := Parser.gives_sourceFile _ (Nat.le_refl _) hfed
  exact .mk rfl nofun (List.forall_mem_nil _) (Node.placed_map_iff.mpr hbody)

/-- The tree of every text is that of a file. -/
theorem Tree.formed_root_parse (fileName text : String) :
    (Tree.parse fileName text).root.Formed .file :=
  (placed_ofChars text.toList).formed.number Place.mk

/-- The root of a file has its statements. -/
theorem Tree.kind_root_parse (fileName text : String) :
    (Tree.parse fileName text).root.kind = .sourceFile (Tree.parse fileName text).statements := by
  have hfits := (Tree.formed_root_parse fileName text).fits_kind
  rw [Tree.statements]
  generalize (Tree.parse fileName text).root.kind = k at hfits ⊢
  cases k <;> first | rfl | cases hfits

theorem Tree.children_root_parse (fileName text : String) :
    (Tree.parse fileName text).root.children = (Tree.parse fileName text).statements := by
  rw [Node.children, Node.shape, kind_root_parse]
  exact List.map_id _

end ScriptAnalysis.Syntax

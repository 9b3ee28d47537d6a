import ScriptAnalysis.Proofs.Syntax.CleanNodes
import ScriptAnalysis.Proofs.Syntax.Lossless
import ScriptAnalysis.Proofs.Syntax.Spans

/-!
# What stands in the text

Where a token is missing, reading reports it and goes on as if it were there; where a name, a body or a
statement is missing it makes one up. A text without errors has none of that: what reading counts on has been
written (`isWritten_parse`). For each reader that ends without errors, the nodes it returns have their
brackets, names, semicolons, values and targets among the tokens of the text (`Node.Written`). Nothing is said
here about depth: a statement that is made up covers no character, and by `stands_ofChars` all nodes do.
-/

namespace ScriptAnalysis.Syntax

open Text

/-- Whether the node declares a variable with a value. -/
def Kind.isInitialized {ν β : Type} : Kind ν β → Bool
  | variableDeclaration _ _ init? => init?.isSome
  | _ => false

/-- The place ends with a token of the kind. -/
def Closes (source : List Char) (closing : TokenKind) (l : Span) : Prop :=
  ∃ t ∈ (TokenStream.ofChars source).tokens, t.kind = closing ∧ l.start ≤ t.span.start ∧ t.span.stop = l.stop

/-- The place starts with a token of one kind and ends with another one of the other kind. -/
def Encloses (source : List Char) (opening closing : TokenKind) (l : Span) : Prop :=
  ∃ t ∈ (TokenStream.ofChars source).tokens, t.kind = opening ∧ t.span.start = l.start ∧
    Closes source closing ⟨t.span.stop, l.stop⟩

/-- The tokens, values and targets that reading a node counts on are there. -/
def Kind.Written (source : List Char) (l : Span) : Kind (Ident Span) (Node Span) → Prop
  | .block _ => Encloses source .leftBrace .rightBrace l
  | .arrayLiteral _ => Encloses source .leftBracket .rightBracket l
  | .parenthesized _ => Encloses source .leftParen .rightParen l
  | .call _ _ => Closes source .rightParen l
  | .functionDeclaration name _ _ body =>
    (∃ t ∈ (TokenStream.ofChars source).tokens,
      t.kind = .identifier ∧ t.span = name.label ∧ t.text = name.text) ∧ body.kind.isBlock = true
  | .emptyStatement => l.start < l.stop →
    ∃ t ∈ (TokenStream.ofChars source).tokens, t.kind = .semicolon ∧ t.span = l
  | .numericLiteral _ => ∃ t ∈ (TokenStream.ofChars source).tokens, t.kind = .numericLiteral ∧ t.span = l
  | .stringLiteral _ => ∃ t ∈ (TokenStream.ofChars source).tokens, t.kind = .stringLiteral ∧ t.span = l
  | .variableStatement keyword declarations =>
    keyword = .const → ∀ d ∈ declarations, d.kind.isInitialized = true
  | .binary op left _ => op.isAssignment = true → Parser.isTarget left = true
  | _ => True

/-- What reading counts on is there at every node of the tree. -/
def Node.Written (source : List Char) (n : Node Span) : Prop := ∀ m ∈ n.nodes, m.kind.Written source m.label

variable {source : List Char}

namespace Node

theorem written_mk_iff {l : Span} {k : Kind (Ident Span) (Node Span)} :
    (mk l k).Written source ↔ k.Written source l ∧ ∀ c ∈ (mk l k).children, c.Written source := by
  constructor
  · intro h
    exact ⟨h _ (mk l k).mem_nodes_self, fun c hc m hm => h m (nodes_subset_of_mem_children hc hm)⟩
  · rintro ⟨hself, hbelow⟩ m hm
    rcases mem_nodes_iff.mp hm with hm | rfl
    · obtain ⟨c, hc, hm⟩ := mem_inner_iff.mp hm
      exact hbelow c hc m hm
    · exact hself

/-- A name counts on nothing. -/
@[simp] theorem written_toNode (i : Ident Span) : i.toNode.Written source :=
  written_mk_iff.mpr ⟨trivial, List.forall_mem_nil _⟩

theorem written_leaf {l : Span} {k : Kind (Ident Span) (Node Span)} (hself : k.Written source l)
    (hk : (mk l k).children = []) : (mk l k).Written source :=
  written_mk_iff.mpr ⟨hself, fun c hc => absurd (hk ▸ hc : c ∈ []) List.not_mem_nil⟩

end Node

namespace Parser

open Syntax.Node

variable {start : Nat} {close : TokenKind} {cause : ErrorCause}

theorem written_missingExpression : Clean source missingExpression fun _ e _ => e.Written source :=
  clean_missingName.bind fun i => .pure fun _ _ _ _ => written_toNode i

/-! ### Types -/

theorem written_brackets (r : Nat) (t : Node Span) : Clean source (brackets start r t) fun _ t' _ =>
    t.Written source → t'.Written source := by
  induction r generalizing t with
  | zero => exact .pure fun _ h => h
  | succ r ih =>
    refine .isAt_bind fun _ => .get_bind fun _ => .ite (fun _ => ?_) fun _ => .pure fun _ _ _ h => h
    refine clean_advance.bind fun _ => clean_advance.bind fun _ => ?_
    have hfinish : Clean source (finish start (.arrayType t)) fun _ t' _ =>
        t.Written source → t'.Written source :=
      clean_finish fun _ h => written_mk_iff.mpr ⟨trivial, List.forall_mem_singleton.mpr h⟩
    refine hfinish.bind fun t' => (ih t').imp ?_
    rintro _ _ _ - hmore _ - harray _ - - _ - - - - ht
    exact hmore (harray ht)

theorem written_primaryType {type : NodeParse} (htype : Clean source type fun _ t _ => t.Written source) :
    Clean source (primaryType type) fun _ t _ => t.Written source := by
  refine .current_bind fun token => ?_
  split
  · refine clean_advance.bind fun _ => ?_
    split
    · exact .pure fun _ _ _ _ _ => written_leaf trivial rfl
    · exact .pure fun _ _ _ _ _ => written_mk_iff.mpr ⟨trivial, List.forall_mem_singleton.mpr (written_toNode _)⟩
  · exact clean_advance.bind fun _ => .pure fun _ _ _ _ _ => written_leaf trivial rfl
  · refine clean_advance.bind fun _ => htype.bind fun t => (clean_expect (by decide)).bind fun _ => .pure ?_
    exact fun _ _ _ _ _ _ ht _ _ _ _ => ht
  · exact clean_reportHere.bind fun _ => clean_missingName.bind fun _ => .pure fun _ _ _ _ _ _ h => h.elim

theorem written_arrayType {type : NodeParse} (htype : Clean source type fun _ t _ => t.Written source) :
    Clean source (arrayType type) fun _ t _ => t.Written source := by
  refine .current_bind fun token => (written_primaryType htype).bind fun t => .remaining_bind fun r => ?_
  exact (written_brackets r t).imp fun _ _ _ _ hbrackets _ _ ht _ => hbrackets ht

theorem written_moreMembers {member : NodeParse} (hmember : Clean source member fun _ t _ => t.Written source)
    (r : Nat) : Clean source (moreMembers member r) fun _ ts _ => ∀ t ∈ ts, t.Written source := by
  induction r with
  | zero => exact .pure fun _ => List.forall_mem_nil _
  | succ r ih =>
    refine (clean_eat (by decide)).bind fun _ => .ite (fun _ => ?_) fun _ => .pure ?_
    · refine hmember.bind fun t => ih.bind fun ts => .pure ?_
      exact fun _ _ _ hts _ _ ht _ _ _ => List.forall_mem_cons.mpr ⟨ht, hts⟩
    · exact fun _ _ _ _ => List.forall_mem_nil _

theorem written_typeWithin (r : Nat) : Clean source (typeWithin r) fun _ t _ => t.Written source := by
  induction r with
  | zero => exact written_missingExpression
  | succ r ih =>
    refine .current_bind fun token => (written_arrayType ih).bind fun t => .remaining_bind fun m => ?_
    refine (written_moreMembers (written_arrayType ih) m).bind fun ts => ?_
    match ts with
    | [] => exact .pure fun _ _ _ _ _ _ ht _ => ht
    | t' :: ts =>
      refine clean_finish fun _ _ _ hts _ _ ht _ => written_mk_iff.mpr ⟨trivial, ?_⟩
      simpa [Kind.map, Kind.children] using And.intro ht hts

theorem written_type : Clean source type fun _ t _ => t.Written source :=
  .remaining_bind fun m => written_typeWithin (m + 1)

theorem written_typeAnnotation : Clean source typeAnnotation fun _ t? _ => ∀ t ∈ t?, t.Written source := by
  refine (clean_eat (by decide)).bind fun _ => .ite (fun _ => written_type.bind fun t => .pure ?_) fun _ => .pure ?_
  · rintro _ _ - ht _ - - t' ⟨rfl⟩
    exact ht
  · exact fun _ _ _ _ _ h => absurd h (Option.not_mem_none _)

theorem written_typeAlias : Clean source typeAlias fun _ a _ => a.Written source := by
  refine clean_advance.bind fun token => clean_declaredName.bind fun name => ?_
  refine (clean_expect (by decide)).bind fun _ => written_type.bind fun t => clean_semicolon.bind fun _ => ?_
  refine clean_finish ?_
  rintro _ _ - - _ - ht _ - - _ - - _ - -
  exact written_mk_iff.mpr ⟨trivial, List.forall_mem_cons.mpr
    ⟨written_toNode name, List.forall_mem_singleton.mpr ht⟩⟩

/-! ### Lists and names -/

theorem written_items {item : NodeParse} (hitem : Clean source item fun _ a _ => a.Written source) (r : Nat) :
    Clean source (items item close r) fun _ as _ => ∀ a ∈ as, a.Written source := by
  induction r with
  | zero => exact .pure fun _ => List.forall_mem_nil _
  | succ r ih =>
    refine .isAt_bind fun _ => .isAt_bind fun _ => .ite (fun _ => .pure ?_) fun _ => ?_
    · exact fun _ _ _ => List.forall_mem_nil _
    · refine hitem.bind fun a => (clean_eat (by decide)).bind fun _ => .ite (fun _ => ?_) fun _ => .pure ?_
      · refine ih.bind fun as => .pure ?_
        exact fun _ _ _ has _ _ _ _ _ ha _ _ => List.forall_mem_cons.mpr ⟨ha, has⟩
      · exact fun _ _ _ _ _ _ ha _ _ => List.forall_mem_singleton.mpr ha

/-- A declared name is a token that is a name. -/
theorem written_declaredName : Clean source (declaredName cause) fun _ i _ =>
    ∃ t ∈ (TokenStream.ofChars source).tokens, t.kind = .identifier ∧ t.span = i.label ∧ t.text = i.text := by
  refine .isAt_bind fun b => .ite (fun hb => ?_) fun _ => ?_
  · refine clean_advance.bind fun t => .pure ?_
    rintro s' s - ⟨rfl, hpasses⟩ hat
    have hcurrent : s.current.kind = .identifier := beq_iff_eq.mp (hat.symm.trans hb)
    exact ⟨s.current, (hpasses (by rw [hcurrent]; decide)).token, hcurrent, rfl, rfl⟩
  · exact clean_reportHere.bind fun _ => clean_missingName.imp fun _ _ _ _ _ _ _ h => h.elim

/-! ### Expressions -/

/-- The node of a declaration or a parameter. -/
theorem written_declaration {l : Span} {k : Kind (Ident Span) (Node Span)} (name : Ident Span)
    {t? e? : Option (Node Span)} (hself : k.Written source l)
    (hk : (Node.mk l k).children = name.toNode :: (t?.toList ++ e?.toList))
    (ht : ∀ t ∈ t?, t.Written source) (he : ∀ e ∈ e?, e.Written source) : (Node.mk l k).Written source := by
  refine written_mk_iff.mpr ⟨hself, ?_⟩
  rw [hk]
  simpa [or_imp, forall_and] using And.intro ht he

/-- What is between two tokens that are taken is enclosed by them. -/
theorem State.Passes.encloses {s s₁ s₂ s₃ : State} (h : s.Passes source s₁) (h' : s₂.Passes source s₃)
    (h₁₂ : s₁.Reaches s₂) :
    Encloses source s.current.kind s₂.current.kind ⟨s.offset, max s₃.lastEnd s.offset⟩ := by
  have hlt := h.lt
  have hlt' := h'.lt
  have hlast := h₁₂.lastEnd_le
  have hstop := h₁₂.stop_le
  refine ⟨s.current, h.token, rfl, rfl, s₂.current, h'.token, rfl, ?_, ?_⟩
  · show s.current.span.stop ≤ s₂.offset
    have hpassed := h.lastEnd
    omega
  · show s₂.current.span.stop = max s₃.lastEnd s.offset
    have hpassed := h'.lastEnd
    omega

section

variable {expr : NodeParse} (hexpr : Clean source expr fun _ e _ => e.Written source)

include hexpr

theorem written_initializer : Clean source (initializer expr) fun _ e? _ => ∀ e ∈ e?, e.Written source := by
  refine (clean_eat (by decide)).bind fun _ => .ite (fun _ => hexpr.bind fun e => .pure ?_) fun _ => .pure ?_
  · rintro _ _ - he _ - - e' ⟨rfl⟩
    exact he
  · exact fun _ _ _ _ _ h => absurd h (Option.not_mem_none _)

theorem written_parameter : Clean source (parameter expr) fun _ p _ => p.Written source := by
  refine .current_bind fun token => clean_declaredName.bind fun name => ?_
  refine written_typeAnnotation.bind fun t? => (written_initializer hexpr).bind fun e? => clean_finish ?_
  rintro _ _ - he _ - ht _ - - -
  exact written_declaration name trivial (by simp [Kind.map, Kind.children]) ht he

theorem written_parameters : Clean source (parameters expr) fun _ ps _ => ∀ p ∈ ps, p.Written source := by
  refine (clean_expect (by decide)).bind fun _ => .ite (fun _ => ?_) fun hb => .pure ?_
  · refine .remaining_bind fun r => (written_items (written_parameter hexpr) (r + 1)).bind fun ps => ?_
    exact (clean_expect (by decide)).bind fun _ => .pure fun _ _ _ _ _ _ hps _ _ _ => hps
  · exact fun _ _ _ h => absurd h.1 hb

/-- Arguments end with a parenthesis. -/
theorem written_arguments : Clean source (arguments expr) fun s as s' =>
    (∀ a ∈ as, a.Written source) ∧ ∀ start ≤ s.offset, Closes source .rightParen ⟨start, max s'.lastEnd start⟩ := by
  refine (clean_expect (by decide)).bind fun _ => .remaining_bind fun r => ?_
  refine (written_items hexpr (r + 1)).bind fun as => (clean_expect (by decide)).bind fun _ => .pure ?_
  rintro s₃ s₂ - ⟨-, hkind, hpasses⟩ s₁ h₁₂ has s h₀₁ -
  refine ⟨has, fun start hstart => ⟨s₂.current, hpasses.token, hkind, ?_, ?_⟩⟩
  · exact Nat.le_trans hstart (Nat.le_trans h₀₁.offset_le h₁₂.offset_le)
  · have hlt := hpasses.lt
    have hpassed := hpasses.lastEnd
    have hle := Nat.le_trans h₀₁.offset_le h₁₂.offset_le
    show s₂.current.span.stop = max s₃.lastEnd start
    omega

theorem written_primary : Clean source (primary expr) fun _ e _ => e.Written source := by
  refine .current_bind fun token => ?_
  have hleaf : ∀ k : Kind (Ident Span) (Node Span), k.Written source token.span →
      (Node.mk token.span k).children = [] →
      Clean source (do let _ ← advance; pure (Node.mk token.span k)) fun s e _ =>
        token = s.current → e.Written source :=
    fun k hself hk => clean_advance.bind fun _ => .pure fun _ _ _ _ _ => written_leaf hself hk
  -- a literal that is its token
  have hliteral : ∀ k : Kind (Ident Span) (Node Span), token.kind ≠ .endOfFile →
      ((∃ t ∈ (TokenStream.ofChars source).tokens, t.kind = token.kind ∧ t.span = token.span) →
        k.Written source token.span) → (Node.mk token.span k).children = [] →
      Clean source (do let _ ← advance; pure (Node.mk token.span k)) fun s e _ =>
        token = s.current → e.Written source := by
    refine fun k hne hself hk => clean_advance.bind fun _ => .pure ?_
    rintro _ s - ⟨-, hpasses⟩ rfl
    exact written_leaf (hself ⟨_, (hpasses hne).token, rfl, rfl⟩) hk
  split
  · exact hleaf _ trivial rfl
  · rename_i hkind
    exact hliteral _ (by rw [hkind]; decide) (by rw [hkind]; exact id) rfl
  · rename_i hkind
    exact hliteral _ (by rw [hkind]; decide) (by rw [hkind]; exact id) rfl
  · exact hleaf _ trivial rfl
  · exact hleaf _ trivial rfl
  · exact hleaf _ trivial rfl
  · rename_i hkind
    refine clean_advance.bind fun _ => hexpr.bind fun e => (clean_expect (by decide)).bind fun _ => ?_
    refine clean_finish ?_
    rintro s₃ s₂ - ⟨-, hclose, hpasses'⟩ s₁ h₁₂ he s - ⟨-, hpasses⟩ rfl
    have hencloses := (hpasses (by rw [hkind]; decide)).encloses hpasses' h₁₂
    rw [hkind, hclose] at hencloses
    exact written_mk_iff.mpr ⟨hencloses, List.forall_mem_singleton.mpr he⟩
  · rename_i hkind
    refine clean_advance.bind fun _ => .remaining_bind fun r => (written_items hexpr (r + 1)).bind fun es => ?_
    refine (clean_expect (by decide)).bind fun _ => clean_finish ?_
    rintro s₃ s₂ - ⟨-, hclose, hpasses'⟩ s₁ h₁₂ hes s - ⟨-, hpasses⟩ rfl
    have hencloses := (hpasses (by rw [hkind]; decide)).encloses hpasses' h₁₂
    rw [hkind, hclose] at hencloses
    exact written_mk_iff.mpr ⟨hencloses, by simpa [Kind.map, Kind.children] using hes⟩
  · refine clean_reportHere.bind fun _ => clean_advance.bind fun _ => clean_missingExpression.imp ?_
    exact fun _ _ _ _ _ _ _ _ _ _ h => h.elim
  · exact clean_reportHere.bind fun _ => clean_missingExpression.imp fun _ _ _ _ _ _ _ h => h.elim

/-- Whatever follows an expression, the place of the whole starts where the expression does. -/
theorem written_suffixes (r : Nat) (e : Node Span) : Clean source (suffixes expr start r e) fun s e' _ =>
    start ≤ s.offset → e.Written source → e'.Written source := by
  induction r generalizing e with
  | zero => exact .pure fun _ _ h => h
  | succ r ih =>
    refine .current_bind fun token => ?_
    split
    · refine clean_advance.bind fun _ => clean_memberName.bind fun name => ?_
      have hfinish : Clean source (finish start (.propertyAccess e name)) fun s e' s' =>
          s' = s ∧ (e.Written source → e'.Written source) :=
        clean_finish fun s => ⟨rfl, fun h => written_mk_iff.mpr ⟨trivial, List.forall_mem_cons.mpr
          ⟨h, List.forall_mem_singleton.mpr (written_toNode name)⟩⟩⟩
      refine hfinish.bind fun e' => (ih e').imp ?_
      rintro s₃ e'' s₄ - hmore s₂ - ⟨rfl, haccess⟩ s₁ h₁₂ - s h₀₁ - - hstart he
      exact hmore (Nat.le_trans hstart (Nat.le_trans h₀₁.offset_le h₁₂.offset_le)) (haccess he)
    · refine (written_arguments hexpr).bind fun as => ?_
      have hfinish : Clean source (finish start (.call e as)) fun s e' s' =>
          s' = s ∧ (Closes source .rightParen ⟨start, max s.lastEnd start⟩ → e.Written source →
            (∀ a ∈ as, a.Written source) → e'.Written source) :=
        clean_finish fun s => ⟨rfl, fun hcloses he has => written_mk_iff.mpr
          ⟨hcloses, by simpa [Kind.map, Kind.children] using And.intro he has⟩⟩
      refine hfinish.bind fun e' => (ih e').imp ?_
      rintro s₂ e'' s₃ - hmore s₁ - ⟨rfl, hcall⟩ s h₀₁ ⟨has, hcloses⟩ - hstart he
      exact hmore (Nat.le_trans hstart h₀₁.offset_le) (hcall (hcloses start hstart) he has)
    · exact .pure fun _ _ _ h => h

theorem written_operand : Clean source (operand expr) fun _ e _ => e.Written source := by
  refine .current_bind fun token => (written_primary hexpr).bind fun e => .remaining_bind fun r => ?_
  refine (written_suffixes hexpr r e).imp ?_
  rintro s₁ e' s₂ - hsuffixes s h₀₁ he rfl
  exact hsuffixes h₀₁.offset_le he

theorem written_unary (r : Nat) : Clean source (unary expr r) fun _ e _ => e.Written source := by
  induction r with
  | zero => exact written_operand hexpr
  | succ r ih =>
    refine .current_bind fun token => ?_
    split
    · refine clean_advance.bind fun _ => ih.bind fun e => clean_finish ?_
      exact fun _ _ _ he _ _ _ _ => written_mk_iff.mpr ⟨trivial, List.forall_mem_singleton.mpr he⟩
    · exact (written_operand hexpr).imp fun _ _ _ _ h _ => h

/-- Operators that are no assignments need no target. -/
theorem written_operators (r least : Nat) (left : Node Span) :
    Clean source (operators expr r least left) fun _ e _ => left.Written source → e.Written source := by
  induction r generalizing least left with
  | zero => exact .pure fun _ h => h
  | succ r ih =>
    refine .current_bind fun token => ?_
    split
    · rename_i op hop
      have hassignment : op.isAssignment = false := ((BinaryOperator.ofToken?_eq_some_iff _ _).mp hop).2
      refine .ite (fun _ => .pure fun _ _ h => h) fun _ => ?_
      refine clean_advance.bind fun _ => .remaining_bind fun m => (written_unary hexpr m).bind fun first => ?_
      refine (ih op.precedence first).bind fun right => ?_
      have hfinish : Clean source (finish left.label.start (.binary op left right)) fun _ e _ =>
          left.Written source → right.Written source → e.Written source :=
        clean_finish fun _ hleft hright => written_mk_iff.mpr
          ⟨fun h => absurd (h.symm.trans hassignment) (by decide), List.forall_mem_cons.mpr
            ⟨hleft, List.forall_mem_singleton.mpr hright⟩⟩
      refine hfinish.bind fun e => (ih least e).imp ?_
      exact fun _ _ _ _ hmore _ _ hbinary _ _ hright _ _ hfirst _ _ _ _ hleft => hmore (hbinary hleft (hright hfirst))
    · exact .pure fun _ _ h => h

/-! ### Statements -/

/-- A constant that is not reported has a value. -/
theorem written_variableDeclaration {keyword : VariableKind} :
    Clean source (variableDeclaration expr keyword) fun _ d _ =>
      d.Written source ∧ (keyword = .const → d.kind.isInitialized = true) := by
  refine .current_bind fun token => clean_declaredName.bind fun name => ?_
  refine written_typeAnnotation.bind fun t? => (written_initializer hexpr).bind fun e? => ?_
  refine .ite (fun _ => clean_report.bind fun _ => clean_finish fun _ _ _ h => h.elim) fun hvalue => ?_
  refine clean_finish ?_
  rintro _ _ - he _ - ht _ - - -
  refine ⟨written_declaration name trivial (by simp [Kind.map, Kind.children]) ht he, ?_⟩
  rintro rfl
  cases e? with
  | none => exact absurd rfl hvalue
  | some e => rfl

theorem written_variableDeclarations {keyword : VariableKind} (r : Nat) :
    Clean source (variableDeclarations (variableDeclaration expr keyword) r) fun _ ds _ =>
      ∀ d ∈ ds, d.Written source ∧ (keyword = .const → d.kind.isInitialized = true) := by
  induction r with
  | zero =>
    refine (written_variableDeclaration hexpr).bind fun d => .pure ?_
    exact fun _ _ _ hd => List.forall_mem_singleton.mpr hd
  | succ r ih =>
    refine (written_variableDeclaration hexpr).bind fun d => (clean_eat (by decide)).bind fun _ => ?_
    refine .ite (fun _ => ih.bind fun ds => .pure ?_) fun _ => .pure ?_
    · exact fun _ _ _ hds _ _ _ _ _ hd => List.forall_mem_cons.mpr ⟨hd, hds⟩
    · exact fun _ _ _ _ _ _ hd => List.forall_mem_singleton.mpr hd

theorem written_variableStatement {keyword : VariableKind} :
    Clean source (variableStatement expr keyword) fun _ v _ => v.Written source := by
  refine clean_advance.bind fun token => .remaining_bind fun r => ?_
  refine (written_variableDeclarations hexpr r).bind fun ds => clean_semicolon.bind fun _ => clean_finish ?_
  rintro _ _ - - _ - hds _ - -
  refine written_mk_iff.mpr ⟨fun hconst d hd => (hds d hd).2 hconst, ?_⟩
  simpa [Kind.map, Kind.children] using fun d hd => (hds d hd).1

theorem written_condition : Clean source (condition expr) fun _ c _ => c.Written source := by
  refine (clean_expect (by decide)).bind fun _ => hexpr.bind fun c => (clean_expect (by decide)).bind fun _ => ?_
  exact .pure fun _ _ _ _ _ _ hc _ _ _ => hc

theorem written_returnStatement : Clean source (returnStatement expr) fun _ v _ => v.Written source := by
  refine clean_advance.bind fun token => .get_bind fun s => ?_
  have hrest : ∀ e? : Option (Node Span), Clean source (do
      semicolon
      finish token.span.start (.returnStatement e?)) fun _ v _ => (∀ e ∈ e?, e.Written source) →
        v.Written source :=
    fun e? => clean_semicolon.bind fun _ => clean_finish fun _ _ _ _ he => written_mk_iff.mpr
      ⟨trivial, by simpa [Kind.map, Kind.children] using he⟩
  refine .ite (fun _ => (hrest none).imp ?_) fun _ => ?_
  · exact fun _ _ _ _ hrest _ _ _ _ => hrest fun _ h => absurd h (Option.not_mem_none _)
  · have hsome : Clean source (some <$> expr) fun _ e? _ => ∀ e ∈ e?, e.Written source :=
      hexpr.map fun _ _ _ _ he _ h => Option.some.inj h ▸ he
    exact hsome.bind fun e? => (hrest e?).imp fun _ _ _ _ hrest _ _ he _ _ _ _ => hrest he

theorem written_expressionStatement : Clean source (expressionStatement expr) fun _ v _ => v.Written source := by
  refine .current_bind fun token => hexpr.bind fun e => clean_semicolon.bind fun _ => clean_finish ?_
  exact fun _ _ _ _ _ _ he _ => written_mk_iff.mpr ⟨trivial, List.forall_mem_singleton.mpr he⟩

end

section

variable {statement : Parse (Option (Node Span))}
  (hstatement : Clean source statement fun _ a? _ => ∀ a ∈ a?, a.Written source)

include hstatement

theorem written_statements (r : Nat) :
    Clean source (statements statement close r) fun _ ss _ => ∀ s ∈ ss, s.Written source := by
  induction r with
  | zero => exact .pure fun _ => List.forall_mem_nil _
  | succ r ih =>
    refine .isAt_bind fun _ => .isAt_bind fun _ => .ite (fun _ => .pure ?_) fun _ => ?_
    · exact fun _ _ _ => List.forall_mem_nil _
    refine .remaining_bind fun before => hstatement.bind fun a? => .remaining_bind fun left => ?_
    have hmore : Clean source (do
        let more ← statements statement close r
        pure (a?.toList ++ more)) fun _ ss _ => (∀ a ∈ a?, a.Written source) → ∀ s ∈ ss, s.Written source :=
      ih.bind fun more => .pure fun _ _ _ hmore ha => List.forall_mem_append.mpr ⟨by simpa using ha, hmore⟩
    refine .ite (fun _ => clean_advance.bind fun _ => hmore.imp ?_) fun _ => hmore.imp ?_
    · exact fun _ _ _ _ hmore _ _ _ _ _ ha _ _ => hmore ha
    · exact fun _ _ _ _ hmore _ _ ha _ _ => hmore ha

/-- A block that is read stands between braces. -/
theorem written_block : Clean source (block statement) fun _ b _ =>
    b.Written source ∧ b.kind.isBlock = true := by
  refine .current_bind fun token => (clean_expect (by decide)).bind fun _ => .remaining_bind fun r => ?_
  refine (written_statements hstatement (r + 1)).bind fun ss => (clean_expect (by decide)).bind fun _ => ?_
  refine clean_finish ?_
  rintro s₃ s₂ - ⟨-, hclose, hpasses'⟩ s₁ h₁₂ hss s - ⟨-, hopen, hpasses⟩ rfl
  have hencloses := hpasses.encloses hpasses' h₁₂
  rw [hopen, hclose] at hencloses
  exact ⟨written_mk_iff.mpr ⟨hencloses, by simpa [Kind.map, Kind.children] using hss⟩, rfl⟩

/-- A statement that is made up covers no character. -/
theorem written_embedded : Clean source (embedded statement) fun _ a _ => a.Written source := by
  refine hstatement.bind fun a? => ?_
  cases a? with
  | some a => exact .pure fun _ _ _ ha => ha a rfl
  | none =>
    refine .get_bind fun s => .pure fun _ _ _ _ _ => written_leaf (fun hlt => ?_) rfl
    exact absurd hlt (Nat.lt_irrefl _)

variable {expr : NodeParse} (hexpr : Clean source expr fun _ e _ => e.Written source)

include hexpr

theorem written_arrowFunction : Clean source (arrowFunction statement expr) fun _ f _ => f.Written source := by
  refine .current_bind fun token => ?_
  have hrest : ∀ ps : List (Node Span), Clean source (do
      let returnType? ← typeAnnotation
      let _ ← expect .arrow
      let body ← if ← isAt .leftBrace then block statement else expr
      finish token.span.start (.arrowFunction ps returnType? body)) fun _ f _ =>
        (∀ p ∈ ps, p.Written source) → f.Written source := by
    intro ps
    refine written_typeAnnotation.bind fun t? => (clean_expect (by decide)).bind fun _ => .isAt_bind fun _ => ?_
    have hfinish : ∀ b : Node Span, Clean source (finish token.span.start (.arrowFunction ps t? b))
        fun _ f _ => (∀ p ∈ ps, p.Written source) → (∀ t ∈ t?, t.Written source) → b.Written source →
          f.Written source :=
      fun b => clean_finish fun _ hps ht hb => written_mk_iff.mpr
        ⟨trivial, by simpa [Kind.map, Kind.children, or_imp, forall_and] using ⟨hps, ht, hb⟩⟩
    refine .ite (fun _ => ?_) fun _ => ?_
    · refine (written_block hstatement).bind fun b => (hfinish b).imp ?_
      exact fun _ _ _ _ hfinish _ _ hb _ _ _ _ _ _ ht hps => hfinish hps ht hb.1
    · refine hexpr.bind fun b => (hfinish b).imp ?_
      exact fun _ _ _ _ hfinish _ _ hb _ _ _ _ _ _ ht hps => hfinish hps ht hb
  refine .isAt_bind fun _ => .ite (fun _ => ?_) fun _ => (written_parameters hexpr).bind fun ps => ?_
  · refine clean_declaredName.bind fun name => (hrest [.mk name.label (.parameter name none none)]).imp ?_
    rintro _ f _ - hrest _ - - - -
    refine hrest (List.forall_mem_singleton.mpr (written_mk_iff.mpr ⟨trivial, ?_⟩))
    exact List.forall_mem_singleton.mpr (written_toNode name)
  · exact (hrest ps).imp fun _ _ _ _ hrest _ _ hps _ _ => hrest hps

/-- What is no target is reported. -/
theorem written_assignment : Clean source (assignment statement expr) fun _ e _ => e.Written source := by
  refine .get_bind fun _ => .ite (fun _ => (written_arrowFunction hstatement hexpr).imp ?_) fun _ => ?_
  · exact fun _ _ _ _ h _ => h
  refine .remaining_bind fun m => (written_unary hexpr m).bind fun first => ?_
  refine .remaining_bind fun m => (written_operators hexpr m 0 first).bind fun left => .current_bind fun token => ?_
  split
  · rename_i op hop
    refine .ite (fun _ => clean_report.bind fun _ => ?_) fun htarget => ?_
    · refine clean_advance.bind fun _ => hexpr.bind fun right => clean_finish ?_
      exact fun _ _ _ _ _ _ _ _ _ h => h.elim
    · refine clean_advance.bind fun _ => hexpr.bind fun right => clean_finish ?_
      rintro _ _ - hright _ - - - _ - hleft _ - hfirst -
      refine written_mk_iff.mpr ⟨fun _ => by simpa using htarget, ?_⟩
      exact List.forall_mem_cons.mpr ⟨hleft hfirst, List.forall_mem_singleton.mpr hright⟩
  · exact .pure fun _ _ _ _ hleft _ _ hfirst _ => hleft hfirst

/-- A function that is read has its name and its body in the text. -/
theorem written_functionDeclaration :
    Clean source (functionDeclaration statement expr) fun _ f _ => f.Written source := by
  refine clean_advance.bind fun token => written_declaredName.bind fun name => ?_
  refine (written_parameters hexpr).bind fun ps => written_typeAnnotation.bind fun t? => .isAt_bind fun _ => ?_
  refine .ite (fun _ => (written_block hstatement).bind fun b => clean_finish ?_) fun _ => ?_
  · rintro _ _ - ⟨hb, hblock⟩ - _ - ht _ - hps _ - hname _ - -
    refine written_mk_iff.mpr ⟨⟨hname, hblock⟩, ?_⟩
    simpa [Kind.map, Kind.children, or_imp, forall_and] using ⟨hps, ht, hb⟩
  · refine clean_reportHere.bind fun _ => .get_bind fun _ => clean_finish ?_
    exact fun _ _ _ _ h => h.elim

theorem written_ifStatement : Clean source (ifStatement statement expr) fun _ a _ => a.Written source := by
  refine clean_advance.bind fun token => (written_condition hexpr).bind fun c => ?_
  refine (written_embedded hstatement).bind fun a => ?_
  have hfinish : ∀ b? : Option (Node Span),
      Clean source (finish token.span.start (.ifStatement c a b?)) fun _ f _ =>
        c.Written source → a.Written source → (∀ b ∈ b?, b.Written source) → f.Written source :=
    fun b? => clean_finish fun _ hc ha hb => written_mk_iff.mpr
      ⟨trivial, by simpa [Kind.map, Kind.children] using ⟨hc, ha, hb⟩⟩
  refine (clean_eat (by decide)).bind fun _ => .ite (fun _ => ?_) fun _ => (hfinish none).imp ?_
  · have hsome : Clean source (some <$> embedded statement) fun _ b? _ => ∀ b ∈ b?, b.Written source :=
      (written_embedded hstatement).map fun _ _ _ _ hb _ h => Option.some.inj h ▸ hb
    refine hsome.bind fun b? => (hfinish b?).imp ?_
    exact fun _ _ _ _ hif _ _ hb _ _ _ _ _ ha _ _ hc _ _ _ => hif hc ha hb
  · exact fun _ _ _ _ hif _ _ _ _ _ ha _ _ hc _ _ _ => hif hc ha fun _ h => absurd h (Option.not_mem_none _)

theorem written_whileStatement : Clean source (whileStatement statement expr) fun _ a _ => a.Written source := by
  refine clean_advance.bind fun token => (written_condition hexpr).bind fun c => ?_
  refine (written_embedded hstatement).bind fun a => clean_finish ?_
  exact fun _ _ _ ha _ _ hc _ _ _ => written_mk_iff.mpr
    ⟨trivial, List.forall_mem_cons.mpr ⟨hc, List.forall_mem_singleton.mpr ha⟩⟩

theorem written_anyStatement :
    Clean source (anyStatement statement expr) fun _ a? _ => ∀ a ∈ a?, a.Written source := by
  have hsome : ∀ {p : NodeParse} {R : State → Node Span → State → Prop}, Clean source p R →
      (∀ s a s', R s a s' → a.Written source) → ∀ t : State, Clean source (some <$> p) fun s a? _ =>
        s = t → ∀ a ∈ a?, a.Written source :=
    fun hp h _ => hp.map fun _ _ _ _ hR _ _ heq => Option.some.inj heq ▸ h _ _ _ hR
  refine .get_bind fun s => ?_
  split
  · exact hsome (written_block hstatement) (fun _ _ _ h => h.1) s
  · exact hsome (written_variableStatement hexpr) (fun _ _ _ h => h) s
  · exact hsome (written_variableStatement hexpr) (fun _ _ _ h => h) s
  · exact hsome (written_variableStatement hexpr) (fun _ _ _ h => h) s
  · exact hsome (written_functionDeclaration hstatement hexpr) (fun _ _ _ h => h) s
  · exact hsome (written_ifStatement hstatement hexpr) (fun _ _ _ h => h) s
  · exact hsome (written_whileStatement hstatement hexpr) (fun _ _ _ h => h) s
  · exact hsome (written_returnStatement hexpr) (fun _ _ _ h => h) s
  · rename_i hkind
    refine clean_advance.bind fun token => ?_
    have hfinish : Clean source (finish token.span.start .emptyStatement) fun s a s' =>
        a = .mk ⟨token.span.start, max s.lastEnd token.span.start⟩ .emptyStatement :=
      clean_finish fun s => rfl
    refine hfinish.map ?_
    rintro s₁ a s₂ - rfl s - ⟨rfl, hpasses⟩ rfl a ⟨rfl⟩
    have hpasses := hpasses (by rw [hkind]; decide)
    have hlt := hpasses.lt
    refine written_leaf (fun _ => ⟨s.current, hpasses.token, hkind, ?_⟩) rfl
    rw [hpasses.lastEnd, Nat.max_eq_left (Nat.le_of_lt (hpasses.lastEnd ▸ hlt))]
  · refine clean_reportHere.bind fun _ => clean_advance.bind fun _ => .pure ?_
    exact fun _ _ _ _ _ _ h => h.elim
  · refine .ite (fun _ => hsome written_typeAlias (fun _ _ _ h => h) s) fun _ => .ite (fun _ => ?_) fun _ => ?_
    · exact hsome (written_expressionStatement hexpr) (fun _ _ _ h => h) s
    · refine clean_reportHere.bind fun _ => clean_advance.bind fun _ => .pure ?_
      exact fun _ _ _ _ _ _ h => h.elim

end

/-- Statements and expressions are written at every depth. -/
theorem written_nested (source : List Char) (r : Nat) :
    (Clean source (statement r) fun _ a? _ => ∀ a ∈ a?, a.Written source) ∧
      Clean source (expression r) fun _ e _ => e.Written source := by
  induction r with
  | zero => exact ⟨.pure fun _ _ h => absurd h (Option.not_mem_none _), written_missingExpression⟩
  | succ r ih =>
    obtain ⟨hstatement, hexpr⟩ := ih
    exact ⟨written_anyStatement hstatement hexpr, written_assignment hstatement hexpr⟩

theorem written_sourceFile (source : List Char) :
    Clean source sourceFile fun _ ss _ => ∀ s ∈ ss, s.Written source :=
  .remaining_bind fun left => written_statements (written_nested source _).1 (left + 1)

end Parser

/-! ### The text of a node -/

/-- A token stands where its characters do. -/
theorem exists_place_of_mem_tokens {t : Token} (h : t ∈ (TokenStream.ofChars source).tokens) {text : String}
    (htext : t.kind.spelling? = some text) : ∃ before after, source = before ++ text.toList ++ after ∧
      t.span = ⟨byteLength before, byteLength before + byteLength text.toList⟩ := by
  have hcovers := TokenStream.coversIn_ofChars source t h
  obtain ⟨before, part, after, rfl, -, hplace⟩ :=
    TokenStream.exists_part_of_mem_spans (List.mem_append_left _ (List.mem_map_of_mem h))
  have hpart : text.toList = part := by
    rw [← hcovers.spelled text htext, ← hcovers.textIn, hplace, Span.textIn, slice_append_append]
    exact String.toList_ofList
  exact ⟨before, after, by rw [hpart], by rw [hpart, hplace]⟩

/-- What stands behind a place up to a closing token ends with the token. -/
theorem Closes.exists_middle {closing : TokenKind} {before after : List Char} {text : String} {stop : Nat}
    (h : Closes source closing ⟨byteLength before, stop⟩) (htext : closing.spelling? = some text)
    (hsource : source = before ++ after) : ∃ middle rest, after = middle ++ text.toList ++ rest ∧
      stop = byteLength before + byteLength (middle ++ text.toList) := by
  obtain ⟨t, ht, hkind, hstart, hstop⟩ := h
  obtain ⟨before', rest, hsource', hspan⟩ := exists_place_of_mem_tokens ht (hkind ▸ htext)
  rw [hspan] at hstart hstop
  have hboth : before ++ after = before' ++ (text.toList ++ rest) := by
    rw [← hsource, hsource', List.append_assoc]
  obtain ⟨middle, rfl⟩ := Text.exists_middle hboth hstart
  refine ⟨middle, rest, ?_, ?_⟩
  · simpa using hboth
  · have hstop : byteLength (before ++ middle) + byteLength text.toList = stop := hstop
    rw [byteLength_append] at hstop ⊢
    omega

/-- The text of a place that a token closes ends with the token. -/
theorem Closes.textIn {closing : TokenKind} {l : Span} {text : String} (h : Closes source closing l)
    (htext : closing.spelling? = some text) (hstart : IsBoundary source l.start) :
    ∃ front, l.textIn source = front ++ text := by
  obtain ⟨start, stop⟩ := l
  obtain ⟨before, after, rfl, rfl⟩ := hstart
  obtain ⟨middle, rest, rfl, rfl⟩ := h.exists_middle htext rfl
  refine ⟨String.ofList middle, ?_⟩
  rw [Span.textIn, ← List.append_assoc, slice_append_append]
  simp

/-- The text of a place between two tokens. -/
theorem Encloses.textIn {opening closing : TokenKind} {l : Span} {first last : String}
    (h : Encloses source opening closing l) (hfirst : opening.spelling? = some first)
    (hlast : closing.spelling? = some last) : ∃ inner, l.textIn source = first ++ inner ++ last := by
  obtain ⟨start, stop⟩ := l
  obtain ⟨t, ht, hkind, rfl, hcloses⟩ := h
  obtain ⟨before, after, hsource, hspan⟩ := exists_place_of_mem_tokens ht (hkind ▸ hfirst)
  rw [hspan, ← byteLength_append] at hcloses
  obtain ⟨middle, rest, rfl, rfl⟩ := hcloses.exists_middle hlast hsource
  refine ⟨String.ofList middle, ?_⟩
  have hplace : byteLength (before ++ first.toList) + byteLength (middle ++ last.toList) =
      byteLength before + byteLength (first.toList ++ (middle ++ last.toList)) := by
    rw [byteLength_append, byteLength_append first.toList, Nat.add_assoc]
  have hcut : source = before ++ (first.toList ++ (middle ++ last.toList)) ++ rest := by
    rw [hsource]
    simp only [List.append_assoc]
  rw [hspan, Span.textIn, hplace, hcut, slice_append_append]
  simp [String.append_assoc]

namespace Tree

variable {fileName text : String}

/-- What reading counts on is there at every node of a file without errors. -/
theorem written_of_mem_nodes (h : (parse fileName text).errors = []) {n : Node Place}
    (hn : n ∈ (parse fileName text).root.nodes) :
    (n.map Place.span).kind.Written text.toList n.span := by
  have hroot : (parseTokens (.ofChars text.toList)).1.Written text.toList := by
    have hread := errors_parseTokens_eq_nil h
    rw [parseTokens_eq] at hread ⊢
    obtain ⟨-, hwritten⟩ := Parser.written_sourceFile text.toList _ (List.reverse_eq_nil_iff.mp hread)
    obtain ⟨-, -, hbody⟩ := hwritten Parser.State.neat_initial
    exact Node.written_mk_iff.mpr ⟨trivial, by simpa [Kind.map, Kind.children] using hbody⟩
  have hmem : n.map Place.span ∈ ((parse fileName text).root.map Place.span).nodes := by
    rw [Node.nodes_map]
    exact List.mem_map_of_mem hn
  rw [map_span_root_parse] at hmem
  have hwritten := hroot _ hmem
  rwa [Node.label_map] at hwritten

/-- A node of a file without errors covers characters and is no empty name, unless it is the file. -/
theorem proper_of_mem_nodes (h : (parse fileName text).errors = []) {n : Node Place}
    (hn : n ∈ (parse fileName text).root.nodes) (hfile : n.kind.fits .file = false) :
    (n.map Place.span).Proper text.toList := by
  rcases Node.mem_nodes_iff.mp hn with hinner | rfl
  · obtain ⟨s, hs, hmem⟩ := Node.mem_inner_iff.mp hinner
    rw [children_root_parse] at hs
    refine (stands_statements h).tidy _ (List.mem_map_of_mem hs) _ ?_
    rw [Node.nodes_map]
    exact List.mem_map_of_mem hmem
  · rw [kind_root_parse] at hfile
    cases hfile

theorem written_of_kind_eq (h : (parse fileName text).errors = []) {n : Node Place}
    (hn : n ∈ (parse fileName text).root.nodes) {k : Kind (Ident Place) (Node Place)} (hk : n.kind = k) :
    (k.map (Ident.map Place.span) (Node.map Place.span)).Written text.toList n.span := by
  have hwritten := written_of_mem_nodes h hn
  rwa [Node.kind_map, hk] at hwritten

/-- Every character belongs to a token that is known. -/
theorem kind_ne_unknown (h : (parse fileName text).errors = []) {token : Token}
    (htoken : token ∈ (parse fileName text).stream.tokens) : token.kind ≠ .unknown := by
  intro hkind
  obtain ⟨-, hreported⟩ := takes_parseTokens (TokenStream.coversIn_ofChars text.toList)
    (TokenStream.kind_ending_ofChars _)
  obtain ⟨e, he, -⟩ := hreported token htoken hkind
  rw [errors_parseTokens_eq_nil h] at he
  cases he

/-- A block stands between braces. -/
theorem exists_textOf_block (h : (parse fileName text).errors = []) {n : Node Place}
    (hn : n ∈ (parse fileName text).root.nodes) {body : List (Node Place)} (hk : n.kind = .block body) :
    ∃ inner, (parse fileName text).textOf n = "\x7b" ++ inner ++ "\x7d" :=
  (written_of_kind_eq h hn hk).textIn rfl rfl

/-- The body of a function is a block of the tree. -/
theorem exists_textOf_body (h : (parse fileName text).errors = []) {n : Node Place}
    (hn : n ∈ (parse fileName text).root.nodes) {name : Ident Place} {params : List (Node Place)}
    {type? : Option (Node Place)} {body : Node Place} (hk : n.kind = .functionDeclaration name params type? body)
    (hbody : (body.map Place.span).kind.isBlock = true) :
    ∃ statements, body.kind = .block statements ∧
      ∃ inner, (parse fileName text).textOf body = "\x7b" ++ inner ++ "\x7d" := by
  have hmem : body ∈ (parse fileName text).root.nodes := by
    refine Node.nodes_subset_of_mem_nodes hn (Node.nodes_subset_of_mem_children ?_ body.mem_nodes_self)
    rw [Node.children, Node.shape, hk]
    simp [Kind.map, Kind.children]
  rw [Node.kind_map] at hbody
  cases hkind : body.kind with
  | block statements => exact ⟨statements, rfl, exists_textOf_block h hmem hkind⟩
  | _ =>
    rw [hkind] at hbody
    cases hbody

/-- An empty statement is a semicolon. -/
theorem textOf_emptyStatement (h : (parse fileName text).errors = []) {n : Node Place}
    (hn : n ∈ (parse fileName text).root.nodes) (hk : n.kind = .emptyStatement) :
    (parse fileName text).textOf n = ";" ∧
      ∃ token ∈ (parse fileName text).stream.tokens, token.kind = .semicolon ∧ token.span = n.span := by
  have hlt := (proper_of_mem_nodes h hn (by rw [hk]; rfl)).lt
  rw [Node.label_map] at hlt
  obtain ⟨token, htoken, hkind, hspan⟩ := written_of_kind_eq h hn hk hlt
  have hcovers := TokenStream.coversIn_ofChars text.toList token htoken
  refine ⟨?_, token, htoken, hkind, hspan⟩
  rw [← hcovers.spelled ";" (by rw [hkind]; rfl), ← hcovers.textIn, hspan]
  rfl

/-- Nothing in the tree has been made up, and nothing of the text has been skipped. -/
structure IsWritten (t : Tree) : Prop where
  /-- Every character belongs to a token that is known. -/
  known : ∀ token ∈ t.stream.tokens, token.kind ≠ .unknown
  /-- Every name is there. -/
  identifier : ∀ n ∈ t.root.nodes, ∀ name, n.kind = .identifier name → name ≠ ""
  /-- Blocks stand between braces. -/
  block : ∀ n ∈ t.root.nodes, ∀ body, n.kind = .block body → ∃ inner, t.textOf n = "\x7b" ++ inner ++ "\x7d"
  /-- Lists of values stand between brackets. -/
  arrayLiteral : ∀ n ∈ t.root.nodes, ∀ elements, n.kind = .arrayLiteral elements →
    ∃ inner, t.textOf n = "[" ++ inner ++ "]"
  /-- Expressions in parentheses stand between them. -/
  parenthesized : ∀ n ∈ t.root.nodes, ∀ expr, n.kind = .parenthesized expr →
    ∃ inner, t.textOf n = "(" ++ inner ++ ")"
  /-- Calls end with a parenthesis. -/
  call : ∀ n ∈ t.root.nodes, ∀ callee args, n.kind = .call callee args → ∃ front, t.textOf n = front ++ ")"
  /-- The name of a function is a token, and its body is a block of the tree. -/
  functionDeclaration : ∀ n ∈ t.root.nodes, ∀ name params type? body,
    n.kind = .functionDeclaration name params type? body →
      (∃ token ∈ t.stream.tokens, token.kind = .identifier ∧ token.span = name.span ∧ token.text = name.text) ∧
        ∃ statements, body.kind = .block statements ∧ ∃ inner, t.textOf body = "\x7b" ++ inner ++ "\x7d"
  /-- An empty statement is a semicolon. -/
  emptyStatement : ∀ n ∈ t.root.nodes, n.kind = .emptyStatement → t.textOf n = ";" ∧
    ∃ token ∈ t.stream.tokens, token.kind = .semicolon ∧ token.span = n.span
  /-- Constants have values. -/
  constant : ∀ n ∈ t.root.nodes, ∀ declarations, n.kind = .variableStatement .const declarations →
    ∀ d ∈ declarations, ∃ name type? init, d.kind = .variableDeclaration name type? (some init)
  /-- What is assigned to is a name or the member of a value. -/
  target : ∀ n ∈ t.root.nodes, ∀ op left right, n.kind = .binary op left right → op.isAssignment = true →
    (∃ name, left.kind = .identifier name) ∨ ∃ object name, left.kind = .propertyAccess object name

/-- **A text without errors has been read as it stands.** Reading is allowed to make up what is missing and to
skip what it cannot use, but then it reports an error. -/
theorem isWritten_parse (fileName text : String) (h : (parse fileName text).errors = []) :
    (parse fileName text).IsWritten where
  known token htoken := kind_ne_unknown h htoken
  identifier n hn name hk := by
    have hproper := (proper_of_mem_nodes h hn (by rw [hk]; rfl)).named
    rw [Node.kind_map, hk] at hproper
    rintro rfl
    exact hproper rfl
  block n hn body hk := exists_textOf_block h hn hk
  arrayLiteral n hn elements hk := (written_of_kind_eq h hn hk).textIn rfl rfl
  parenthesized n hn expr hk := (written_of_kind_eq h hn hk).textIn rfl rfl
  call n hn callee args hk := (written_of_kind_eq h hn hk).textIn rfl (sits_span hn).start
  functionDeclaration n hn name params type? body hk := by
    obtain ⟨hname, hbody⟩ := written_of_kind_eq h hn hk
    exact ⟨hname, exists_textOf_body h hn hk hbody⟩
  emptyStatement n hn hk := textOf_emptyStatement h hn hk
  constant n hn declarations hk d hd := by
    have hvalue := written_of_kind_eq h hn hk rfl _ (List.mem_map_of_mem hd)
    rw [Node.kind_map] at hvalue
    cases hkind : d.kind with
    | variableDeclaration name type? init? =>
      cases init? with
      | some init => exact ⟨name, type?, init, rfl⟩
      | none =>
        rw [hkind] at hvalue
        cases hvalue
    | _ =>
      rw [hkind] at hvalue
      cases hvalue
  target n hn op left right hk hassignment := by
    have htarget := written_of_kind_eq h hn hk hassignment
    rw [Parser.isTarget, Node.kind_map] at htarget
    cases hkind : left.kind with
    | identifier name => exact .inl ⟨name, rfl⟩
    | propertyAccess object name => exact .inr ⟨object, name, rfl⟩
    | _ =>
      rw [hkind] at htarget
      cases htarget

/-- Every kind of piece that reading might have made up. -/
theorem isWritten_parse_every_piece :
    let text := "const a = [1]; function f(b) \x7b ; b.c = (f)(a); \x7d"
    (parse "file.ts" text).errors = [] ∧ (parse "file.ts" text).IsWritten := by
  have herrors : (parse "file.ts" "const a = [1]; function f(b) \x7b ; b.c = (f)(a); \x7d").errors = [] := by
    decide +kernel
  exact ⟨herrors, isWritten_parse "file.ts" _ herrors⟩

end Tree

end ScriptAnalysis.Syntax

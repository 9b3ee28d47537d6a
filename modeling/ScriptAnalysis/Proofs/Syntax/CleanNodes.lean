import ScriptAnalysis.Proofs.Syntax.Clean

/-!
# The tree of a text without errors

Every reader that ends without errors returns nodes that are tidy and stand where it has read, by one lemma
for each. Nested readers do this as long as they are not nested too deep; since a token is taken in front of
every nested reader but the expression that is a statement, depth never runs out (`clean_nested`).
-/

namespace ScriptAnalysis.Syntax

namespace Parser

open Syntax.Node

variable {source : List Char} {n start : Nat} {close : TokenKind}

/-! ### Types -/

theorem clean_brackets (r : Nat) (t : Node Span) : Clean source (brackets start r t) fun s t' s' =>
    Stands source start [t] s.lastEnd → Stands source start [t'] s'.lastEnd := by
  induction r generalizing t with
  | zero => exact .pure fun _ h => h
  | succ r ih =>
    refine .isAt_bind fun _ => .get_bind fun _ => .ite (fun _ => ?_) fun _ => .pure fun _ _ _ h => h
    refine clean_advance.bind fun _ => clean_advance.bind fun _ => ?_
    have hfinish : Clean source (finish start (.arrayType t)) fun s t' s' =>
        Stands source start [t] s.lastEnd → Stands source start [t'] s'.lastEnd :=
      clean_finish fun s h => h.around h.lt rfl rfl rfl
    refine hfinish.bind fun t' => (ih t').imp ?_
    intro s₃ t'' s₄ _ hmore s₂ h₂₃ harray s₁ h₁₂ _ s h₀₁ _ _ _ ht
    exact hmore (harray (ht.of_le (Nat.le_refl _) (Nat.le_trans h₀₁.lastEnd_le h₁₂.lastEnd_le)))

section

variable {type : NodeParse} (htype : Clean source type fun s t s' =>
  s.rest.length < n → Stands source s.offset [t] s'.lastEnd)

include htype

theorem clean_primaryType : Clean source (primaryType type) fun s t s' =>
    s.rest.length ≤ n → Stands source s.offset [t] s'.lastEnd := by
  refine .current_bind fun token => ?_
  split
  · rename_i hkind
    refine clean_advance.bind fun _ => ?_
    split
    · refine .pure ?_
      rintro s' s - ⟨-, hpasses⟩ rfl -
      exact (hpasses (by rw [hkind]; decide)).stands_leaf rfl nofun
    · refine .pure ?_
      rintro s' s - ⟨-, hpasses⟩ rfl -
      exact (hpasses (by rw [hkind]; decide)).stands.around_name (fun h => h) rfl rfl
  · rename_i hkind
    refine clean_advance.bind fun _ => .pure ?_
    rintro s' s - ⟨-, hpasses⟩ rfl -
    exact (hpasses (by rw [hkind]; decide)).stands_leaf rfl nofun
  · rename_i hkind
    refine clean_advance.bind fun _ => htype.bind fun t => (clean_expect (by decide)).bind fun _ => .pure ?_
    rintro s₃ s₂ h₂₃ - s₁ - ht s h₀₁ ⟨-, hpasses⟩ rfl hn
    have hlength := h₀₁.length_lt (hpasses (by rw [hkind]; decide)).lt
    exact (ht (by omega)).of_le h₀₁.offset_le h₂₃.lastEnd_le
  · exact clean_reportHere.bind fun _ => clean_missingName.bind fun _ => .pure fun _ _ _ _ _ _ h => h.elim

theorem clean_arrayType : Clean source (arrayType type) fun s t s' =>
    s.rest.length ≤ n → Stands source s.offset [t] s'.lastEnd := by
  refine .current_bind fun token => (clean_primaryType htype).bind fun t => .remaining_bind fun r => ?_
  refine (clean_brackets r t).imp ?_
  rintro s₁ t' s₂ - hbrackets s - ht rfl hn
  exact hbrackets (ht hn)

end

theorem clean_moreMembers {member : NodeParse} (hmember : Clean source member fun s t s' =>
      s.rest.length ≤ n → Stands source s.offset [t] s'.lastEnd) (r : Nat) :
    Clean source (moreMembers member r) fun s ts s' =>
      s.rest.length ≤ n → Stands source s.lastEnd ts s'.lastEnd := by
  induction r with
  | zero => exact .pure fun s _ => stands_nil (Nat.le_refl _)
  | succ r ih =>
    refine (clean_eat (by decide)).bind fun _ => .ite (fun _ => ?_) fun _ => .pure ?_
    · refine hmember.bind fun t => ih.bind fun ts => .pure ?_
      intro s₃ s₂ h₂₃ hts s₁ h₁₂ ht s h₀₁ _ hn
      have hlength := h₀₁.length_le
      have hlength' := h₁₂.length_le
      have hlo : s.lastEnd ≤ s₁.offset := Nat.le_trans h₀₁.lastEnd_le h₁₂.start_le
      exact ((ht (by omega)).of_le hlo (Nat.le_refl _)).cons (hts (by omega))
    · exact fun _ _ h _ _ => stands_nil h.lastEnd_le

theorem clean_typeWithin (r : Nat) : Clean source (typeWithin r) fun s t s' =>
    s.rest.length < r → Stands source s.offset [t] s'.lastEnd := by
  induction r with
  | zero => exact clean_missingExpression.imp fun _ _ _ _ _ h => absurd h (Nat.not_lt_zero _)
  | succ r ih =>
    refine .current_bind fun token => (clean_arrayType ih).bind fun t => .remaining_bind fun m => ?_
    refine (clean_moreMembers (clean_arrayType ih) m).bind fun ts => ?_
    match ts with
    | [] =>
      refine .pure ?_
      rintro s₂ s₁ h₁₂ - s - ht - hn
      exact (ht (by omega)).of_le (Nat.le_refl _) h₁₂.lastEnd_le
    | t' :: ts =>
      refine clean_finish ?_
      rintro s₂ s₁ h₁₂ hts s h₀₁ ht rfl hn
      have hlength := h₀₁.length_le
      have hmembers := (ht (by omega)).cons (hts (by omega))
      exact hmembers.around hmembers.lt (by simp [Kind.map, Kind.children]) rfl rfl

theorem clean_type : Clean source type fun s t s' => Stands source s.offset [t] s'.lastEnd :=
  .count_bind fun m => (clean_typeWithin (m + 1)).imp fun _ _ _ _ ht hm => ht (by omega)

/-! ### How a type begins -/

/-- The node starts with the first token that is left, or with the first one behind opening parentheses. -/
def Opens (s : State) (t : Node Span) : Prop :=
  ∃ parens first after, s.rest = parens ++ first :: after ∧ (∀ p ∈ parens, p.kind = .leftParen) ∧
    first.span.start = t.label.start

/-- Where one type can begin another one can begin with the next token. -/
theorem Opens.self {s : State} {t u : Node Span} (h : Opens s t) (hu : u.label.start = s.offset) : Opens s u := by
  obtain ⟨parens, first, after, hrest, -⟩ := h
  obtain ⟨token, tokens, htokens⟩ := List.exists_cons_of_ne_nil (hrest ▸ by simp : s.rest ≠ [])
  refine ⟨[], token, tokens, htokens, nofun, ?_⟩
  rw [hu, State.offset, State.current, State.peek, htokens]
  rfl

theorem opens_leaf {s s' : State} {k : Kind (Ident Span) (Node Span)} (h : s.Passes source s') :
    Opens s (.mk s.current.span k) :=
  ⟨[], s.current, s'.rest, h.rest, nofun, rfl⟩

/-- Brackets leave a type as it is, or start where they are told to. -/
theorem opens_brackets (r : Nat) (t : Node Span) : Clean source (brackets start r t) fun _ t' _ =>
    t' = t ∨ t'.label.start = start := by
  induction r generalizing t with
  | zero => exact .pure fun _ => .inl rfl
  | succ r ih =>
    refine .isAt_bind fun _ => .get_bind fun _ => .ite (fun _ => ?_) fun _ => .pure fun _ _ _ => .inl rfl
    refine clean_advance.bind fun _ => clean_advance.bind fun _ => ?_
    have hfinish : Clean source (finish start (.arrayType t)) fun _ t' _ => t'.label.start = start :=
      clean_finish fun _ => rfl
    refine hfinish.bind fun t' => (ih t').imp ?_
    rintro _ t'' _ - hmore _ - hstart _ - - _ - - - -
    exact .inr (hmore.elim (fun h => h ▸ hstart) id)

section

variable {type : NodeParse} (htype : Clean source type fun s t _ => s.rest.length < n → Opens s t)

include htype

theorem opens_primaryType : Clean source (primaryType type) fun s t _ => s.rest.length ≤ n → Opens s t := by
  refine .current_bind fun token => ?_
  split
  · rename_i hkind
    refine clean_advance.bind fun _ => ?_
    split
    all_goals
      refine .pure ?_
      rintro s' s - ⟨-, hpasses⟩ rfl -
      exact opens_leaf (hpasses (by rw [hkind]; decide))
  · rename_i hkind
    refine clean_advance.bind fun _ => .pure ?_
    rintro s' s - ⟨-, hpasses⟩ rfl -
    exact opens_leaf (hpasses (by rw [hkind]; decide))
  · rename_i hkind
    refine clean_advance.bind fun _ => htype.bind fun t => (clean_expect (by decide)).bind fun _ => .pure ?_
    rintro s₃ s₂ - - s₁ - ht s h₀₁ ⟨-, hpasses⟩ rfl hn
    have hpasses := hpasses (by rw [hkind]; decide)
    have hlength := h₀₁.length_lt hpasses.lt
    obtain ⟨parens, first, after, hrest, hparens, hfirst⟩ := ht (by omega)
    refine ⟨s.current :: parens, first, after, ?_, List.forall_mem_cons.mpr ⟨hkind, hparens⟩, hfirst⟩
    rw [hpasses.rest, hrest, List.cons_append]
  · exact clean_reportHere.bind fun _ => clean_missingName.bind fun _ => .pure fun _ _ _ _ _ _ h => h.elim

theorem opens_arrayType : Clean source (arrayType type) fun s t _ => s.rest.length ≤ n → Opens s t := by
  refine .current_bind fun token => (opens_primaryType htype).bind fun t => .remaining_bind fun r => ?_
  refine (opens_brackets r t).imp ?_
  rintro _ t' _ - hbrackets s - ht rfl hn
  exact hbrackets.elim (fun h => h ▸ ht hn) (ht hn).self

end

theorem opens_typeWithin (r : Nat) : Clean source (typeWithin r) fun s t _ => s.rest.length < r → Opens s t := by
  induction r with
  | zero => exact clean_missingExpression.imp fun _ _ _ _ _ h => absurd h (Nat.not_lt_zero _)
  | succ r ih =>
    refine .current_bind fun token => (opens_arrayType ih).bind fun t => .remaining_bind fun m => ?_
    refine (clean_moreMembers (clean_arrayType (clean_typeWithin r)) m).bind fun ts => ?_
    match ts with
    | [] =>
      refine .pure ?_
      rintro _ _ - - s - ht - hn
      exact ht (by omega)
    | t' :: ts =>
      refine clean_finish ?_
      rintro _ _ - - s - ht rfl hn
      exact (ht (by omega)).self rfl

theorem opens_type : Clean source type fun s t _ => Opens s t :=
  .count_bind fun m => (opens_typeWithin (m + 1)).imp fun _ _ _ _ ht hm => ht (by omega)

/-- A type that is read behind a colon is introduced by it. -/
theorem State.Passes.introduced {s s' : State} {t : Node Span} (h : s.Passes source s')
    (hkind : s.current.kind = .colon) (ht : Opens s' t) {lo : Nat} (hlo : lo ≤ s.offset) :
    Introduced source lo t.label.start := by
  obtain ⟨parens, first, after, hrest, hparens, hfirst⟩ := ht
  obtain ⟨before, hbefore⟩ := h.isSuffix
  refine ⟨before, s.current, parens, first, after, ?_, hkind, hlo, hparens, hfirst⟩
  rw [← hbefore, h.rest, hrest]

theorem clean_typeAnnotation : Clean source typeAnnotation fun s t? s' =>
    StandsBehind source s.lastEnd t? s'.lastEnd := by
  refine (clean_eat (by decide)).bind fun _ => .ite (fun hb => ?_) fun _ => .pure ?_
  · refine (clean_type.and opens_type).bind fun t => .pure ?_
    rintro s₂ s₁ h₁₂ ⟨ht, hopens⟩ s h₀₁ hcolon
    obtain ⟨hkind, hpasses⟩ := hcolon hb
    have hlo : s.lastEnd ≤ s₁.offset := Nat.le_trans h₀₁.lastEnd_le h₁₂.start_le
    refine ⟨⟨(ht.of_le hlo (Nat.le_refl _)).row, ?_⟩, ?_⟩
    · rintro t' ⟨rfl⟩
      exact hpasses.introduced hkind hopens h₀₁.start_le
    · rintro t' ⟨rfl⟩
      exact ht.tidy t List.mem_cons_self
  · exact fun _ _ h _ => ⟨⟨h.lastEnd_le, nofun⟩, nofun⟩

/-! ### Names for types -/

theorem clean_typeAlias : Clean source typeAlias fun s a s' =>
    s.current.kind ≠ .endOfFile → Stands source s.offset [a] s'.lastEnd := by
  refine clean_advance.bind fun token => clean_declaredName.bind fun name => ?_
  refine (clean_expect (by decide)).bind fun _ => clean_type.bind fun t => clean_semicolon.bind fun _ => ?_
  refine clean_finish ?_
  rintro s₅ s₄ h₄₅ - s₃ h₃₄ ht s₂ h₂₃ - s₁ h₁₂ hname s h₀₁ ⟨rfl, hpasses⟩ hkind
  have hlo : s₂.lastEnd ≤ s₃.offset := Nat.le_trans h₂₃.lastEnd_le h₃₄.start_le
  have hparts := (hname.of_le h₀₁.offset_le (Nat.le_refl _)).cons (ht.of_le hlo h₄₅.lastEnd_le)
  exact hparts.around hparts.lt rfl rfl rfl

/-! ### Lists -/

theorem clean_items {item : NodeParse} (hitem : Clean source item fun s a s' =>
      s.rest.length < n → Stands source s.offset [a] s'.lastEnd) (r : Nat) :
    Clean source (items item close r) fun s as s' =>
      s.rest.length < n → Stands source s.lastEnd as s'.lastEnd := by
  induction r with
  | zero => exact .pure fun s _ => stands_nil (Nat.le_refl _)
  | succ r ih =>
    refine .isAt_bind fun _ => .isAt_bind fun _ => .ite (fun _ => .pure ?_) fun _ => ?_
    · exact fun _ _ _ _ => stands_nil (Nat.le_refl _)
    · refine hitem.bind fun a => (clean_eat (by decide)).bind fun _ => .ite (fun _ => ?_) fun _ => .pure ?_
      · refine ih.bind fun as => .pure ?_
        intro s₃ s₂ _ has s₁ h₁₂ _ s h₀₁ ha _ _ hn
        have hlength := h₀₁.length_le
        have hlength' := h₁₂.length_le
        exact ((ha hn).of_le h₀₁.start_le h₁₂.lastEnd_le).cons (has (by omega))
      · intro s₂ s₁ h₁₂ _ s h₀₁ ha _ _ hn
        exact (ha hn).of_le h₀₁.start_le h₁₂.lastEnd_le

/-! ### Expressions -/

/-- The node of a declaration or a parameter, from its name on. -/
theorem stands_declaration {lo a b lastEnd : Nat} {name : Ident Span} {t? e? : Option (Node Span)}
    {k : Kind (Ident Span) (Node Span)} (hname : Stands source lo [name.toNode] a)
    (ht : StandsBehind source a t? b) (he : Stands source b e?.toList lastEnd)
    (hk : k = .parameter name t? e? ∨ k = .variableDeclaration name t? e?) :
    Stands source lo [.mk ⟨lo, max lastEnd lo⟩ k] lastEnd := by
  have hparts := hname.cons (ht.stands.append he)
  rcases hk with rfl | rfl
  · refine stands_mk ⟨a, b, hname.row, ht.annotates, he.row⟩ hparts.lt rfl ?_
    simpa [Kind.map, Kind.children] using hparts.tidy
  · refine stands_mk ⟨a, b, hname.row, ht.annotates, he.row⟩ hparts.lt rfl ?_
    simpa [Kind.map, Kind.children] using hparts.tidy

section

variable {expr : NodeParse} (hexpr : Clean source expr fun s e s' =>
  s.rest.length < n → Stands source s.offset [e] s'.lastEnd)

include hexpr

theorem clean_initializer : Clean source (initializer expr) fun s e? s' =>
    s.rest.length ≤ n → Stands source s.lastEnd e?.toList s'.lastEnd := by
  refine (clean_eat (by decide)).bind fun _ => .ite (fun hb => ?_) fun _ => .pure ?_
  · refine hexpr.bind fun e => .pure ?_
    intro s₂ s₁ h₁₂ he s h₀₁ hequals hn
    have hlength := h₀₁.length_lt (hequals hb).2.lt
    exact (he (by omega)).of_le (Nat.le_trans h₀₁.lastEnd_le h₁₂.start_le) (Nat.le_refl _)
  · exact fun _ _ h _ _ => stands_nil h.lastEnd_le

theorem clean_parameter : Clean source (parameter expr) fun s p s' =>
    s.rest.length ≤ n → Stands source s.offset [p] s'.lastEnd := by
  refine .current_bind fun token => clean_declaredName.bind fun name => ?_
  refine clean_typeAnnotation.bind fun t? => (clean_initializer hexpr).bind fun e? => clean_finish ?_
  rintro s₃ s₂ - he s₁ h₁₂ ht s h₀₁ hname rfl hn
  have hlength := h₀₁.length_le
  have hlength' := h₁₂.length_le
  exact stands_declaration hname ht (he (by omega)) (.inl rfl)

theorem clean_parameters : Clean source (parameters expr) fun s ps s' =>
    s.rest.length ≤ n → Stands source s.offset ps s'.lastEnd ∧ s.offset < s'.lastEnd := by
  refine (clean_expect (by decide)).bind fun _ => .ite (fun _ => ?_) fun hb => .pure ?_
  · refine .remaining_bind fun r => ?_
    have hparam := (clean_parameter hexpr).imp (Q := fun s p s' => s.rest.length < n →
      Stands source s.offset [p] s'.lastEnd) fun _ _ _ _ h hn => h (Nat.le_of_lt hn)
    refine (clean_items hparam (r + 1)).bind fun ps => (clean_expect (by decide)).bind fun _ => .pure ?_
    rintro s₃ s₂ h₂₃ - s₁ h₁₂ hps s h₀₁ ⟨-, -, hpasses⟩ hn
    have hlt := hpasses.lt
    have hlength := h₀₁.length_lt hlt
    have hlast := h₁₂.lastEnd_le
    have hlast' := h₂₃.lastEnd_le
    exact ⟨(hps (by omega)).of_le (Nat.le_of_lt hlt) hlast', by omega⟩
  · exact fun _ _ _ h => absurd h.1 hb

theorem clean_arguments : Clean source (arguments expr) fun s as s' =>
    s.rest.length ≤ n → Stands source s.offset as s'.lastEnd := by
  refine (clean_expect (by decide)).bind fun _ => .remaining_bind fun r => ?_
  refine (clean_items hexpr (r + 1)).bind fun as => (clean_expect (by decide)).bind fun _ => .pure ?_
  rintro s₃ s₂ h₂₃ - s₁ - has s h₀₁ ⟨-, -, hpasses⟩ hn
  have hlength := h₀₁.length_lt hpasses.lt
  exact (has (by omega)).of_le (Nat.le_of_lt hpasses.lt) h₂₃.lastEnd_le

theorem clean_primary : Clean source (primary expr) fun s e s' =>
    s.rest.length ≤ n → Stands source s.offset [e] s'.lastEnd := by
  refine .current_bind fun token => ?_
  have hleaf : ∀ k : Kind (Ident Span) (Node Span), token.kind ≠ .endOfFile →
      (Node.mk token.span k).children = [] → (k.identifierText? = none ∨ k = .identifier token.text) →
      Clean source (do let _ ← advance; pure (Node.mk token.span k)) fun s e s' =>
        token = s.current → s.rest.length ≤ n → Stands source s.offset [e] s'.lastEnd := by
    intro k hkind hk hname
    refine clean_advance.bind fun _ => .pure ?_
    rintro s' s - ⟨-, hpasses⟩ rfl -
    have hpasses := hpasses hkind
    refine hpasses.stands_leaf hk ?_
    rcases hname with hname | rfl
    · rw [hname]
      exact nofun
    · exact fun heq => hpasses.text_ne (Option.some.inj heq)
  split
  · rename_i hkind
    exact hleaf _ (by rw [hkind]; decide) rfl (.inr rfl)
  · rename_i hkind
    exact hleaf _ (by rw [hkind]; decide) rfl (.inl rfl)
  · rename_i hkind
    exact hleaf _ (by rw [hkind]; decide) rfl (.inl rfl)
  · rename_i hkind
    exact hleaf _ (by rw [hkind]; decide) rfl (.inl rfl)
  · rename_i hkind
    exact hleaf _ (by rw [hkind]; decide) rfl (.inl rfl)
  · rename_i hkind
    exact hleaf _ (by rw [hkind]; decide) rfl (.inl rfl)
  · rename_i hkind
    refine clean_advance.bind fun _ => hexpr.bind fun e => (clean_expect (by decide)).bind fun _ => ?_
    refine clean_finish ?_
    rintro s₃ s₂ h₂₃ - s₁ - he s h₀₁ ⟨-, hpasses⟩ rfl hn
    have hlength := h₀₁.length_lt (hpasses (by rw [hkind]; decide)).lt
    have he := (he (by omega)).of_le h₀₁.offset_le h₂₃.lastEnd_le
    exact he.around he.lt rfl rfl rfl
  · rename_i hkind
    refine clean_advance.bind fun _ => .remaining_bind fun r => (clean_items hexpr (r + 1)).bind fun es => ?_
    refine (clean_expect (by decide)).bind fun _ => clean_finish ?_
    rintro s₃ s₂ h₂₃ - s₁ h₁₂ hes s h₀₁ ⟨-, hpasses⟩ rfl hn
    have hlt := (hpasses (by rw [hkind]; decide)).lt
    have hlength := h₀₁.length_lt hlt
    have hes := (hes (by omega)).of_le (Nat.le_of_lt hlt) h₂₃.lastEnd_le
    have hlast := h₁₂.lastEnd_le
    have hlast' := h₂₃.lastEnd_le
    have hlt' : s.offset < s₃.lastEnd := by omega
    exact hes.around hlt' (by simp [Kind.map, Kind.children]) rfl rfl
  · refine clean_reportHere.bind fun _ => clean_advance.bind fun _ => clean_missingExpression.imp ?_
    exact fun _ _ _ _ _ _ _ _ _ _ h => h.elim
  · exact clean_reportHere.bind fun _ => clean_missingExpression.imp fun _ _ _ _ _ _ _ h => h.elim

theorem clean_suffixes (r : Nat) (e : Node Span) : Clean source (suffixes expr start r e) fun s e' s' =>
    s.rest.length ≤ n → Stands source start [e] s.lastEnd → Stands source start [e'] s'.lastEnd := by
  induction r generalizing e with
  | zero => exact .pure fun _ _ h => h
  | succ r ih =>
    refine .current_bind fun token => ?_
    split
    · refine clean_advance.bind fun _ => clean_memberName.bind fun name => ?_
      have hfinish : Clean source (finish start (.propertyAccess e name)) fun s e' s' =>
          s' = s ∧ (Stands source start [e, name.toNode] s.lastEnd → Stands source start [e'] s'.lastEnd) :=
        clean_finish fun s => ⟨rfl, fun h => h.around h.lt rfl rfl rfl⟩
      refine hfinish.bind fun e' => (ih e').imp ?_
      rintro s₃ e'' s₄ - hmore s₂ - ⟨rfl, haccess⟩ s₁ h₁₂ hname s h₀₁ - - hn he
      have hlength := h₀₁.length_le
      have hlength' := h₁₂.length_le
      have hname := hname.of_le (Nat.le_trans h₀₁.lastEnd_le h₁₂.start_le) (Nat.le_refl _)
      exact hmore (by omega) (haccess (he.cons hname))
    · refine (clean_arguments hexpr).bind fun as => ?_
      have hfinish : Clean source (finish start (.call e as)) fun s e' s' =>
          s' = s ∧ (Stands source start (e :: as) s.lastEnd → Stands source start [e'] s'.lastEnd) :=
        clean_finish fun s => ⟨rfl, fun h => h.around h.lt (by simp [Kind.map, Kind.children]) rfl rfl⟩
      refine hfinish.bind fun e' => (ih e').imp ?_
      rintro s₂ e'' s₃ - hmore s₁ - ⟨rfl, hcall⟩ s h₀₁ has - hn he
      have hlength := h₀₁.length_le
      exact hmore (by omega) (hcall (he.cons ((has hn).of_le h₀₁.start_le (Nat.le_refl _))))
    · exact .pure fun _ _ _ h => h

theorem clean_operand : Clean source (operand expr) fun s e s' =>
    s.rest.length ≤ n → Stands source s.offset [e] s'.lastEnd := by
  refine .current_bind fun token => (clean_primary hexpr).bind fun e => .remaining_bind fun r => ?_
  refine (clean_suffixes hexpr r e).imp ?_
  rintro s₁ e' s₂ - hsuffixes s h₀₁ he rfl hn
  exact hsuffixes (Nat.le_trans h₀₁.length_le hn) (he hn)

theorem clean_unary (r : Nat) : Clean source (unary expr r) fun s e s' =>
    s.rest.length ≤ n → Stands source s.offset [e] s'.lastEnd := by
  induction r with
  | zero => exact clean_operand hexpr
  | succ r ih =>
    refine .current_bind fun token => ?_
    split
    · refine clean_advance.bind fun _ => ih.bind fun e => clean_finish ?_
      rintro s₂ s₁ h₁₂ he s h₀₁ - rfl hn
      have he := (he (Nat.le_trans h₀₁.length_le hn)).of_le h₀₁.offset_le (Nat.le_refl _)
      exact he.around he.lt rfl rfl rfl
    · exact (clean_operand hexpr).imp fun _ _ _ _ h _ => h

/-- The operators behind an operand give something that starts where the operand does. -/
theorem clean_operators (r least : Nat) (left : Node Span) :
    Clean source (operators expr r least left) fun s e s' => s.rest.length ≤ n →
      Stands source left.label.start [left] s.lastEnd → Stands source left.label.start [e] s'.lastEnd := by
  induction r generalizing least left with
  | zero => exact .pure fun _ _ h => h
  | succ r ih =>
    refine .current_bind fun token => ?_
    split
    · rename_i op _
      refine .ite (fun _ => .pure fun _ _ _ h => h) fun _ => ?_
      refine clean_advance.bind fun _ => .remaining_bind fun m => (clean_unary hexpr m).bind fun first => ?_
      refine (ih op.precedence first).bind fun right => ?_
      have hfinish : Clean source (finish left.label.start (.binary op left right)) fun s e s' =>
          s' = s ∧ e.label.start = left.label.start ∧
            (Stands source left.label.start [left, right] s.lastEnd →
              Stands source left.label.start [e] s'.lastEnd) :=
        clean_finish fun s => ⟨rfl, rfl, fun h => h.around h.lt rfl rfl rfl⟩
      refine hfinish.bind fun e => (ih least e).imp ?_
      rintro s₄ e' s₅ - hmore s₃ - ⟨rfl, hstart, hbinary⟩ s₂ h₂₃ hright s₁ h₁₂ hfirst s h₀₁ - - hn hleft
      have hlength := h₀₁.length_le
      have hlength' := h₁₂.length_le
      have hlength'' := h₂₃.length_le
      have hfirst := hfirst (by omega)
      have hright := hright (by omega) hfirst.from_start
      have hlo : s.lastEnd ≤ first.label.start :=
        Nat.le_trans (Nat.le_trans h₀₁.lastEnd_le h₁₂.start_le) hfirst.start_le
      have he := hbinary (hleft.cons (hright.of_le hlo (Nat.le_refl _)))
      rw [hstart] at hmore
      exact hmore (by omega) he
    · exact .pure fun _ _ _ h => h

/-! ### Statements -/

theorem clean_variableDeclaration {keyword : VariableKind} :
    Clean source (variableDeclaration expr keyword) fun s d s' =>
      s.rest.length ≤ n → Stands source s.offset [d] s'.lastEnd := by
  refine .current_bind fun token => clean_declaredName.bind fun name => ?_
  refine clean_typeAnnotation.bind fun t? => (clean_initializer hexpr).bind fun e? => ?_
  refine .ite (fun _ => clean_report.bind fun _ => clean_finish fun _ _ _ h => h.elim) fun _ => ?_
  refine clean_finish ?_
  rintro s₃ s₂ - he s₁ h₁₂ ht s h₀₁ hname rfl hn
  have hlength := h₀₁.length_le
  have hlength' := h₁₂.length_le
  exact stands_declaration hname ht (he (by omega)) (.inr rfl)

theorem clean_variableDeclarations {keyword : VariableKind} (r : Nat) :
    Clean source (variableDeclarations (variableDeclaration expr keyword) r) fun s ds s' =>
      s.rest.length ≤ n → Stands source s.offset ds s'.lastEnd ∧ s.offset < s'.lastEnd := by
  induction r with
  | zero =>
    refine (clean_variableDeclaration hexpr).bind fun d => .pure ?_
    exact fun s₁ s _ hd hn => ⟨hd hn, (hd hn).lt⟩
  | succ r ih =>
    refine (clean_variableDeclaration hexpr).bind fun d => (clean_eat (by decide)).bind fun _ => ?_
    refine .ite (fun _ => ih.bind fun ds => .pure ?_) fun _ => .pure ?_
    · intro s₃ s₂ h₂₃ hds s₁ h₁₂ _ s h₀₁ hd hn
      have hlength := h₀₁.length_le
      have hlength' := h₁₂.length_le
      have hlo : s₁.lastEnd ≤ s₂.offset := Nat.le_trans h₁₂.lastEnd_le h₂₃.start_le
      have hall := (hd hn).cons ((hds (by omega)).1.of_le hlo (Nat.le_refl _))
      exact ⟨hall, hall.lt⟩
    · intro s₂ s₁ h₁₂ _ s _ hd hn
      have hone := (hd hn).of_le (Nat.le_refl _) h₁₂.lastEnd_le
      exact ⟨hone, hone.lt⟩

theorem clean_variableStatement {keyword : VariableKind} :
    Clean source (variableStatement expr keyword) fun s v s' =>
      s.rest.length ≤ n → Stands source s.offset [v] s'.lastEnd := by
  refine clean_advance.bind fun token => .remaining_bind fun r => ?_
  refine (clean_variableDeclarations hexpr r).bind fun ds => clean_semicolon.bind fun _ => clean_finish ?_
  rintro s₃ s₂ h₂₃ - s₁ - hds s h₀₁ ⟨rfl, -⟩ hn
  obtain ⟨hds, hlt⟩ := hds (Nat.le_trans h₀₁.length_le hn)
  have hoffset := h₀₁.offset_le
  have hlast := h₂₃.lastEnd_le
  have hlt' : s.offset < s₃.lastEnd := by omega
  exact (hds.of_le hoffset hlast).around hlt' (by simp [Kind.map, Kind.children]) rfl rfl

theorem clean_condition : Clean source (condition expr) fun s c s' =>
    s.rest.length ≤ n → Stands source s.offset [c] s'.lastEnd := by
  refine (clean_expect (by decide)).bind fun _ => hexpr.bind fun c => (clean_expect (by decide)).bind fun _ => ?_
  refine .pure ?_
  rintro s₃ s₂ h₂₃ - s₁ - hc s h₀₁ ⟨-, -, hpasses⟩ hn
  have hlength := h₀₁.length_lt hpasses.lt
  exact (hc (by omega)).of_le h₀₁.offset_le h₂₃.lastEnd_le

theorem clean_returnStatement : Clean source (returnStatement expr) fun s v s' =>
    s.current.kind ≠ .endOfFile → s.rest.length ≤ n → Stands source s.offset [v] s'.lastEnd := by
  refine clean_advance.bind fun token => .get_bind fun s => ?_
  have hrest : ∀ e? : Option (Node Span), Clean source (do
      semicolon
      finish token.span.start (.returnStatement e?)) fun s v s' => token.span.start < s.lastEnd →
        Stands source token.span.start e?.toList s.lastEnd → Stands source token.span.start [v] s'.lastEnd := by
    intro e?
    refine clean_semicolon.bind fun _ => clean_finish ?_
    intro s₁ s h₀₁ _ hlt he
    have hlt' := Nat.lt_of_lt_of_le hlt h₀₁.lastEnd_le
    exact (he.of_le (Nat.le_refl _) h₀₁.lastEnd_le).around hlt' (by simp [Kind.map, Kind.children]) rfl rfl
  refine .ite (fun _ => (hrest none).imp ?_) fun _ => ?_
  · rintro s₁ v s₂ - hrest - s - ⟨rfl, hpasses⟩ hkind -
    have hlt := (hpasses hkind).lt
    exact hrest hlt (stands_nil (Nat.le_of_lt hlt))
  · have hsome : Clean source (some <$> expr) fun s e? s' => s.rest.length < n →
        Stands source s.offset e?.toList s'.lastEnd := hexpr.map fun _ _ _ _ he => he
    refine hsome.bind fun e? => (hrest e?).imp ?_
    rintro s₂ v s₃ - hrest s₁ h₁₂ he - s h₀₁ ⟨rfl, hpasses⟩ hkind hn
    have hlt := (hpasses hkind).lt
    have hlength := h₀₁.length_lt hlt
    exact hrest (Nat.lt_of_lt_of_le hlt h₁₂.lastEnd_le) ((he (by omega)).of_le h₀₁.offset_le (Nat.le_refl _))

theorem clean_expressionStatement : Clean source (expressionStatement expr) fun s v s' =>
    s.rest.length < n → Stands source s.offset [v] s'.lastEnd := by
  refine .current_bind fun token => hexpr.bind fun e => clean_semicolon.bind fun _ => clean_finish ?_
  rintro s₂ s₁ h₁₂ - s - he rfl hn
  have he := (he hn).of_le (Nat.le_refl _) h₁₂.lastEnd_le
  exact he.around he.lt rfl rfl rfl

end

section

variable {statement : Parse (Option (Node Span))} (hstatement : Clean source statement fun s a? s' =>
  s.rest.length < n → ∃ a, a? = some a ∧ Stands source s.offset [a] s'.lastEnd)

include hstatement

theorem clean_statements (r : Nat) : Clean source (statements statement close r) fun s ss s' =>
    s.rest.length < n → ss = [] ∨ Stands source s.offset ss s'.lastEnd := by
  induction r with
  | zero => exact .pure fun _ _ => .inl rfl
  | succ r ih =>
    refine .isAt_bind fun _ => .isAt_bind fun _ => .ite (fun _ => .pure fun _ _ _ _ => .inl rfl) fun _ => ?_
    refine .remaining_bind fun before => hstatement.bind fun a? => .remaining_bind fun left => ?_
    have hmore : Clean source (do
        let more ← statements statement close r
        pure (a?.toList ++ more)) fun s ss s' => s.rest.length < n → ∀ lo hi a, a? = some a →
          Stands source lo [a] hi → hi ≤ s.lastEnd → Stands source lo ss s'.lastEnd := by
      refine ih.bind fun more => .pure ?_
      rintro s₁ s h₀₁ hmore hn lo hi a rfl ha hhi
      have hlast := h₀₁.lastEnd_le
      rcases hmore hn with rfl | hmore
      · exact ha.of_le (Nat.le_refl _) (by omega)
      · exact ha.append (hmore.of_le (Nat.le_trans hhi h₀₁.start_le) (Nat.le_refl _))
    refine .ite (fun _ => clean_advance.bind fun _ => hmore.imp ?_) fun _ => hmore.imp ?_
    · intro s₂ ss s₃ _ hmore s₁ h₁₂ _ s h₀₁ ha _ _ hn
      obtain ⟨a, ha, hstands⟩ := ha hn
      have hlength := h₀₁.length_le
      have hlength' := h₁₂.length_le
      exact .inr (hmore (by omega) _ _ a ha hstands h₁₂.lastEnd_le)
    · intro s₁ ss s₂ _ hmore s h₀₁ ha _ _ hn
      obtain ⟨a, ha, hstands⟩ := ha hn
      have hlength := h₀₁.length_le
      exact .inr (hmore (by omega) _ _ a ha hstands (Nat.le_refl _))

theorem clean_block : Clean source (block statement) fun s b s' =>
    s.rest.length ≤ n → Stands source s.offset [b] s'.lastEnd := by
  refine .current_bind fun token => (clean_expect (by decide)).bind fun _ => .remaining_bind fun r => ?_
  refine (clean_statements hstatement (r + 1)).bind fun ss => (clean_expect (by decide)).bind fun _ => ?_
  refine clean_finish ?_
  rintro s₃ s₂ h₂₃ - s₁ h₁₂ hss s h₀₁ ⟨-, -, hpasses⟩ rfl hn
  have hlength := h₀₁.length_lt hpasses.lt
  have hlast := h₁₂.lastEnd_le
  have hlast' := h₂₃.lastEnd_le
  have hpassed := hpasses.lt
  have hlt : s.offset < s₃.lastEnd := by omega
  have hss : Stands source s.offset ss s₃.lastEnd := by
    rcases hss (by omega) with rfl | hss
    · exact stands_nil (Nat.le_of_lt hlt)
    · exact hss.of_le h₀₁.offset_le hlast'
  exact hss.around hlt (by simp [Kind.map, Kind.children]) rfl rfl

theorem clean_embedded : Clean source (embedded statement) fun s a s' =>
    s.rest.length < n → Stands source s.offset [a] s'.lastEnd := by
  refine hstatement.bind fun a? => ?_
  cases a? with
  | some a =>
    refine .pure fun s₁ s _ ha hn => ?_
    obtain ⟨a', heq, ha⟩ := ha hn
    exact Option.some.inj heq ▸ ha
  | none =>
    refine .get_bind fun _ => .pure fun s₁ _ s _ ha hn => ?_
    obtain ⟨a, heq, -⟩ := ha hn
    cases heq

end

/-- The body of a function, and the function around what stands in front of its type, the type and the body. -/
theorem clean_function {front : List (Node Span)} {t? : Option (Node Span)}
    {kind : Node Span → Kind (Ident Span) (Node Span)} {body : NodeParse}
    (hchildren : ∀ b, (Node.mk (.point start) (kind b)).children = front ++ (t?.toList ++ [b]))
    (harranged : ∀ b hi, (∃ m m', Row start front m ∧ Annotates source m t? m' ∧ Row m' [b] hi) →
      (kind b).Arranged source start hi)
    (hname : ∀ b, (kind b).identifierText? = none)
    (hbody : Clean source body fun s b s' => s.rest.length < n → Stands source s.offset [b] s'.lastEnd) :
    Clean source (body >>= fun b => finish start (kind b)) fun s f s' =>
      s.rest.length < n → ∀ m m', m' ≤ s.offset → Stands source start front m →
        StandsBehind source m t? m' → Stands source start [f] s'.lastEnd := by
  refine hbody.bind fun body => clean_finish ?_
  intro s₁ s _ hbody hn m m' hm hfront ht
  have hbody := (hbody hn).of_le hm (Nat.le_refl _)
  have hparts := hfront.append (ht.stands.append hbody)
  have hlt := Nat.lt_of_le_of_lt (Nat.le_trans hfront.le ht.stands.le) hbody.lt
  refine stands_mk (harranged body _ ⟨m, m', hfront.row, ht.annotates, hbody.row⟩) hlt (hname body) ?_
  exact fun c hc => hparts.tidy c (hchildren body ▸ hc)

section

variable {statement : Parse (Option (Node Span))} {expr : NodeParse}
  (hstatement : Clean source statement fun s a? s' =>
    s.rest.length < n → ∃ a, a? = some a ∧ Stands source s.offset [a] s'.lastEnd)
  (hexpr : Clean source expr fun s e s' => s.rest.length < n → Stands source s.offset [e] s'.lastEnd)

include hstatement hexpr

theorem clean_arrowFunction : Clean source (arrowFunction statement expr) fun s f s' =>
    s.rest.length ≤ n → Stands source s.offset [f] s'.lastEnd := by
  refine .current_bind fun token => ?_
  have hrest : ∀ ps : List (Node Span), Clean source (do
      let returnType? ← typeAnnotation
      let _ ← expect .arrow
      let body ← if ← isAt .leftBrace then block statement else expr
      finish token.span.start (.arrowFunction ps returnType? body)) fun s f s' => s.rest.length < n →
        Stands source token.span.start ps s.lastEnd → Stands source token.span.start [f] s'.lastEnd := by
    intro ps
    refine clean_typeAnnotation.bind fun t? => (clean_expect (by decide)).bind fun _ => .isAt_bind fun _ => ?_
    have hchildren : ∀ b, (Node.mk (.point token.span.start) (.arrowFunction ps t? b)).children =
        ps ++ (t?.toList ++ [b]) := fun b => by simp [Kind.map, Kind.children]
    refine Clean.imp (R := fun s f s' => s.rest.length < n → ∀ m m', m' ≤ s.offset →
      Stands source token.span.start ps m → StandsBehind source m t? m' →
        Stands source token.span.start [f] s'.lastEnd) (.ite (fun _ => ?_) fun _ => ?_) ?_
    · have hblock := (clean_block hstatement).imp (Q := fun s b s' => s.rest.length < n →
        Stands source s.offset [b] s'.lastEnd) fun _ _ _ _ h hn => h (Nat.le_of_lt hn)
      exact clean_function hchildren (fun _ _ h => h) (fun _ => rfl) hblock
    · exact clean_function hchildren (fun _ _ h => h) (fun _ => rfl) hexpr
    · rintro s₂ f s₃ - hfunction - s₁ h₁₂ - s h₀₁ ht hn hps
      have hlength := h₀₁.length_le
      have hlength' := h₁₂.length_le
      exact hfunction (by omega) _ _ (Nat.le_trans h₁₂.lastEnd_le h₁₂.stop_le) hps ht
  refine .isAt_bind fun _ => .ite (fun _ => ?_) fun _ => (clean_parameters hexpr).bind fun ps => ?_
  · refine clean_declaredName.bind fun name => (hrest [.mk name.label (.parameter name none none)]).imp ?_
    rintro s₁ f s₂ - hrest s h₀₁ hname - rfl hn
    have hparam := hname.around_name (k := .parameter name none none)
      (fun hrow => ⟨_, _, hrow, ⟨Nat.le_refl _, nofun⟩, Nat.le_refl _⟩) rfl rfl
    have hlength := h₀₁.length_lt hname.lt
    exact hrest (by omega) hparam
  · refine (hrest ps).imp ?_
    rintro s₁ f s₂ - hrest s h₀₁ hps - rfl hn
    obtain ⟨hps, hlt⟩ := hps hn
    have hlength := h₀₁.length_lt hlt
    exact hrest (by omega) hps

theorem clean_functionDeclaration : Clean source (functionDeclaration statement expr) fun s f s' =>
    s.rest.length ≤ n → Stands source s.offset [f] s'.lastEnd := by
  refine clean_advance.bind fun token => clean_declaredName.bind fun name => ?_
  refine (clean_parameters hexpr).bind fun ps => clean_typeAnnotation.bind fun t? => .isAt_bind fun _ => ?_
  have hchildren : ∀ b, (Node.mk (.point token.span.start) (.functionDeclaration name ps t? b)).children =
      name.toNode :: ps ++ (t?.toList ++ [b]) := fun b => by simp [Kind.map, Kind.children]
  refine .ite (fun _ => ?_) fun _ => ?_
  · have hblock := (clean_block hstatement).imp (Q := fun s b s' => s.rest.length < n →
      Stands source s.offset [b] s'.lastEnd) fun _ _ _ _ h hn => h (Nat.le_of_lt hn)
    refine (clean_function hchildren (fun _ _ h => h) (fun _ => rfl) hblock).imp ?_
    rintro s₄ f s₅ - hfunction - s₃ h₃₄ ht s₂ h₂₃ hps s₁ h₁₂ hname s h₀₁ ⟨rfl, -⟩ hn
    have hlength₁ := h₀₁.length_le
    have hlength₂ := h₁₂.length_lt hname.lt
    have hlength₃ := h₂₃.length_le
    have hlength₄ := h₃₄.length_le
    have hps := (hps (by omega)).1.of_le h₁₂.stop_le (Nat.le_refl _)
    have hfront := (hname.of_le h₀₁.offset_le (Nat.le_refl _)).cons hps
    exact hfunction (by omega) _ _ h₃₄.stop_le hfront ht
  · refine clean_reportHere.bind fun _ => .get_bind fun _ => clean_finish ?_
    exact fun _ _ _ _ h => h.elim

theorem clean_ifStatement : Clean source (ifStatement statement expr) fun s a s' =>
    s.current.kind ≠ .endOfFile → s.rest.length ≤ n → Stands source s.offset [a] s'.lastEnd := by
  refine clean_advance.bind fun token => (clean_condition hexpr).bind fun c => ?_
  refine (clean_embedded hstatement).bind fun a => ?_
  have hfinish : ∀ b? : Option (Node Span),
      Clean source (finish token.span.start (.ifStatement c a b?)) fun s f s' =>
        Stands source token.span.start (c :: a :: b?.toList) s.lastEnd →
          Stands source token.span.start [f] s'.lastEnd :=
    fun b? => clean_finish fun s h => h.around h.lt (by simp [Kind.map, Kind.children]) rfl rfl
  refine (clean_eat (by decide)).bind fun _ => .ite (fun _ => ?_) fun _ => (hfinish none).imp ?_
  · have hsome : Clean source (some <$> embedded statement) fun s b? s' => s.rest.length < n →
        Stands source s.offset b?.toList s'.lastEnd := (clean_embedded hstatement).map fun _ _ _ _ hb => hb
    refine hsome.bind fun b? => (hfinish b?).imp ?_
    rintro s₅ f s₆ - hif s₄ h₄₅ hb s₃ h₃₄ - s₂ h₂₃ ha s₁ h₁₂ hc s h₀₁ ⟨rfl, hpasses⟩ hkind hn
    have hlength₁ := h₀₁.length_lt (hpasses hkind).lt
    have hlength₂ := h₁₂.length_le
    have hlength₃ := h₂₃.length_le
    have hlength₄ := h₃₄.length_le
    have hb := (hb (by omega)).of_le (Nat.le_trans h₃₄.lastEnd_le h₄₅.start_le) (Nat.le_refl _)
    have ha := (ha (by omega)).of_le h₂₃.start_le (Nat.le_refl _)
    exact hif (((hc (by omega)).of_le h₀₁.offset_le (Nat.le_refl _)).cons (ha.cons hb))
  · rintro s₄ f s₅ - hif s₃ h₃₄ - s₂ h₂₃ ha s₁ h₁₂ hc s h₀₁ ⟨rfl, hpasses⟩ hkind hn
    have hlength₁ := h₀₁.length_lt (hpasses hkind).lt
    have hlength₂ := h₁₂.length_le
    have ha := (ha (by omega)).of_le h₂₃.start_le h₃₄.lastEnd_le
    exact hif (((hc (by omega)).of_le h₀₁.offset_le (Nat.le_refl _)).cons ha)

theorem clean_whileStatement : Clean source (whileStatement statement expr) fun s a s' =>
    s.current.kind ≠ .endOfFile → s.rest.length ≤ n → Stands source s.offset [a] s'.lastEnd := by
  refine clean_advance.bind fun token => (clean_condition hexpr).bind fun c => ?_
  refine (clean_embedded hstatement).bind fun a => clean_finish ?_
  rintro s₃ s₂ h₂₃ ha s₁ h₁₂ hc s h₀₁ ⟨rfl, hpasses⟩ hkind hn
  have hlength₁ := h₀₁.length_lt (hpasses hkind).lt
  have hlength₂ := h₁₂.length_le
  have ha := (ha (by omega)).of_le h₂₃.start_le (Nat.le_refl _)
  have hparts := ((hc (by omega)).of_le h₀₁.offset_le (Nat.le_refl _)).cons ha
  exact hparts.around hparts.lt rfl rfl rfl

theorem clean_assignment : Clean source (assignment statement expr) fun s e s' =>
    s.rest.length ≤ n → Stands source s.offset [e] s'.lastEnd := by
  refine .get_bind fun _ => .ite (fun _ => ?_) fun _ => ?_
  · exact (clean_arrowFunction hstatement hexpr).imp fun _ _ _ _ h _ => h
  refine .remaining_bind fun m => (clean_unary hexpr m).bind fun first => ?_
  refine .remaining_bind fun m => (clean_operators hexpr m 0 first).bind fun left => .current_bind fun token => ?_
  split
  · rename_i op hop
    refine .ite (fun _ => clean_report.bind fun _ => ?_) fun _ => ?_
    · refine clean_advance.bind fun _ => hexpr.bind fun right => clean_finish ?_
      exact fun _ _ _ _ _ _ _ _ _ h => h.elim
    · refine clean_advance.bind fun _ => hexpr.bind fun right => clean_finish ?_
      rintro s₄ s₃ h₃₄ hright s₂ h₂₃ ⟨-, hpasses⟩ rfl s₁ h₁₂ hleft s h₀₁ hfirst - hn
      have hkind : s₂.current.kind ≠ .endOfFile := by
        intro hend
        rw [hend] at hop
        cases hop
      have hlength₁ := h₀₁.length_le
      have hlength₂ := h₁₂.length_le
      have hlength₃ := h₂₃.length_lt (hpasses hkind).lt
      have hfirst := hfirst hn
      have hleft := hleft (by omega) hfirst.from_start
      have hright := (hright (by omega)).of_le (Nat.le_trans h₂₃.lastEnd_le h₃₄.start_le) (Nat.le_refl _)
      have hparts := hleft.from_start.cons hright
      exact (hparts.around hparts.lt rfl rfl rfl).of_le (Nat.le_trans hfirst.start_le hleft.start_le) (Nat.le_refl _)
  · refine .pure ?_
    rintro s₂ - s₁ - hleft s h₀₁ hfirst - hn
    have hfirst := hfirst hn
    exact (hleft (Nat.le_trans h₀₁.length_le hn) hfirst.from_start).of_le hfirst.start_le (Nat.le_refl _)

end

/-- A statement that ends without errors is there; an expression that is one has as many tokens left. -/
theorem clean_anyStatement {statement : Parse (Option (Node Span))} {expr : NodeParse}
    (hstatement : Clean source statement fun s a? s' =>
      s.rest.length + 1 < n → ∃ a, a? = some a ∧ Stands source s.offset [a] s'.lastEnd)
    (hexpr : Clean source expr fun s e s' => s.rest.length < n → Stands source s.offset [e] s'.lastEnd) :
    Clean source (anyStatement statement expr) fun s a? s' =>
      s.rest.length < n → ∃ a, a? = some a ∧ Stands source s.offset [a] s'.lastEnd := by
  have hstatement := hstatement.imp (Q := fun s a? s' => s.rest.length < n - 1 →
    ∃ a, a? = some a ∧ Stands source s.offset [a] s'.lastEnd) fun _ _ _ _ h hn => h (by omega)
  have hbelow := hexpr.imp (Q := fun s e s' => s.rest.length < n - 1 →
    Stands source s.offset [e] s'.lastEnd) fun _ _ _ _ h hn => h (by omega)
  refine .get_bind fun s => ?_
  split
  · refine (clean_block hstatement).map ?_
    exact fun _ a _ _ ha _ hn => ⟨a, rfl, ha (by omega)⟩
  · refine (clean_variableStatement hbelow).map ?_
    exact fun _ a _ _ ha _ hn => ⟨a, rfl, ha (by omega)⟩
  · refine (clean_variableStatement hbelow).map ?_
    exact fun _ a _ _ ha _ hn => ⟨a, rfl, ha (by omega)⟩
  · refine (clean_variableStatement hbelow).map ?_
    exact fun _ a _ _ ha _ hn => ⟨a, rfl, ha (by omega)⟩
  · refine (clean_functionDeclaration hstatement hbelow).map ?_
    exact fun _ a _ _ ha _ hn => ⟨a, rfl, ha (by omega)⟩
  · rename_i hkind
    refine (clean_ifStatement hstatement hbelow).map ?_
    rintro _ a _ - ha rfl hn
    exact ⟨a, rfl, ha (by rw [hkind]; decide) (by omega)⟩
  · rename_i hkind
    refine (clean_whileStatement hstatement hbelow).map ?_
    rintro _ a _ - ha rfl hn
    exact ⟨a, rfl, ha (by rw [hkind]; decide) (by omega)⟩
  · rename_i hkind
    refine (clean_returnStatement hbelow).map ?_
    rintro _ a _ - ha rfl hn
    exact ⟨a, rfl, ha (by rw [hkind]; decide) (by omega)⟩
  · rename_i hkind
    refine clean_advance.bind fun token => ?_
    have hfinish : Clean source (finish token.span.start .emptyStatement) fun s a s' =>
        token.span.start < s.lastEnd → Stands source token.span.start [a] s'.lastEnd :=
      clean_finish fun s h => (stands_nil (Nat.le_of_lt h)).around h rfl rfl rfl
    refine hfinish.map ?_
    rintro s₁ a s₂ - ha s - ⟨rfl, hpasses⟩ rfl -
    exact ⟨a, rfl, ha (hpasses (by rw [hkind]; decide)).lt⟩
  · refine clean_reportHere.bind fun _ => clean_advance.bind fun _ => .pure ?_
    exact fun _ _ _ _ _ _ h => h.elim
  · refine .ite (fun halias => ?_) fun _ => .ite (fun _ => ?_) fun _ => ?_
    · refine clean_typeAlias.map ?_
      rintro s a _ - ha rfl -
      have hkind : s.current.kind = .identifier := by
        simp only [State.startsTypeAlias, Bool.and_eq_true, beq_iff_eq] at halias
        exact halias.1.1.1
      exact ⟨a, rfl, ha (by rw [hkind]; decide)⟩
    · refine (clean_expressionStatement hexpr).map ?_
      exact fun _ a _ _ ha _ hn => ⟨a, rfl, ha hn⟩
    · refine clean_reportHere.bind fun _ => clean_advance.bind fun _ => .pure ?_
      exact fun _ _ _ _ _ _ h => h.elim

/-- Depth is enough for statements and expressions when it is twice the number of tokens that are left. -/
theorem clean_nested (source : List Char) (r : Nat) :
    (Clean source (statement r) fun s a? s' => 2 * s.rest.length + 2 ≤ r →
      ∃ a, a? = some a ∧ Stands source s.offset [a] s'.lastEnd) ∧
    (Clean source (expression r) fun s e s' => 2 * s.rest.length + 1 ≤ r →
      Stands source s.offset [e] s'.lastEnd) := by
  induction r with
  | zero =>
    refine ⟨.pure fun _ h => absurd h (by omega), clean_missingExpression.imp ?_⟩
    exact fun _ _ _ _ _ h => absurd h (by omega)
  | succ r ih =>
    obtain ⟨hstatement, hexpr⟩ := ih
    refine ⟨?_, ?_⟩
    · refine (clean_anyStatement (n := (r + 1) / 2) (hstatement.imp ?_) (hexpr.imp ?_)).imp ?_
      · exact fun _ _ _ _ h hn => h (by omega)
      · exact fun _ _ _ _ h hn => h (by omega)
      · exact fun _ _ _ _ h hn => h (by omega)
    · refine (clean_assignment (n := r / 2) (hstatement.imp ?_) (hexpr.imp ?_)).imp ?_
      · exact fun _ _ _ _ h hn => h (by omega)
      · exact fun _ _ _ _ h hn => h (by omega)
      · exact fun _ _ _ _ h hn => h (by omega)

theorem clean_sourceFile (source : List Char) : Clean source sourceFile fun s ss s' =>
    ss = [] ∨ Stands source s.offset ss s'.lastEnd := by
  refine .count_bind fun left => ?_
  have hstatement := (clean_nested source (2 * left + 2)).1.imp (Q := fun s a? s' =>
    s.rest.length < left + 1 → ∃ a, a? = some a ∧ Stands source s.offset [a] s'.lastEnd)
    fun _ _ _ _ h hn => h (by omega)
  exact (clean_statements hstatement (left + 1)).imp fun _ _ _ _ h hleft => h (by omega)

/-- The next token starts in the text. -/
theorem State.Neat.offset_le {s : State} (h : s.Neat source) : s.offset ≤ Text.byteLength source := by
  have hending : s.ending.span = .point (Text.byteLength source) := by
    rw [h.ending]
    exact TokenStream.span_ending_ofChars source
  obtain ⟨rest, ending, lastEnd, errors⟩ := s
  cases rest with
  | nil => exact Nat.le_of_eq (congrArg Span.start hending)
  | cons t ts =>
    have hle : t.span.stop ≤ ending.span.start :=
      (List.pairwise_cons.mp h.ordered).1 ending (List.mem_append_right _ List.mem_cons_self)
    have hlt := (TokenStream.coversIn_ofChars source t (h.tokens t List.mem_cons_self)).lt
    have hstart : ending.span.start = Text.byteLength source := congrArg Span.start hending
    show t.span.start ≤ _
    omega

theorem State.neat_initial : (State.initial (.ofChars source)).Neat source where
  isSuffix := List.suffix_rfl
  ending := rfl
  ordered := TokenStream.pairwise_all_ofChars source
  lastEnd := Nat.zero_le _

end Parser

/-! ### The tree of a text -/

/-- The statements of a text without errors follow one another from its first token on. -/
theorem stands_ofChars {source : List Char} {ss : List (Node Span)}
    (herrors : (parseTokens (.ofChars source)).2 = [])
    (hbody : (parseTokens (.ofChars source)).1.kind = .sourceFile ss) :
    Node.Stands source (Parser.State.initial (.ofChars source)).offset ss (Text.byteLength source) := by
  rw [parseTokens_eq] at herrors hbody
  obtain rfl := Kind.sourceFile.inj hbody
  obtain ⟨-, hread⟩ := Parser.clean_sourceFile source _ (List.reverse_eq_nil_iff.mp herrors)
  obtain ⟨hneat, -, hstands⟩ := hread Parser.State.neat_initial
  rcases hstands with hnil | hstands
  · rw [hnil]
    exact Node.stands_nil Parser.State.neat_initial.offset_le
  · exact hstands.of_le (Nat.le_refl _) (Nat.le_trans hneat.lastEnd hneat.offset_le)

namespace Tree

variable {fileName text : String}

/-- Without its numbers the tree is the one that was read. -/
theorem map_span_root_parse (fileName text : String) :
    (parse fileName text).root.map Place.span = (parseTokens (.ofChars text.toList)).1 := by
  rw [root_parse, Node.map_number Place.mk Place.span (fun span => span) fun _ _ => rfl, Node.map_id]

theorem errors_parseTokens_eq_nil (h : (parse fileName text).errors = []) :
    (parseTokens (.ofChars text.toList)).2 = [] := by
  refine List.eq_nil_iff_forall_not_mem.mpr fun e he => ?_
  have hmem : e ∈ (parse fileName text).errors := mem_allErrors he
  rw [h] at hmem
  cases hmem

/-- The statements of a file without errors follow one another from its first token on. -/
theorem stands_statements (h : (parse fileName text).errors = []) :
    Node.Stands text.toList (Parser.State.initial (.ofChars text.toList)).offset
      ((parse fileName text).statements.map (Node.map Place.span)) (Text.byteLength text.toList) := by
  refine stands_ofChars (errors_parseTokens_eq_nil h) ?_
  rw [← map_span_root_parse fileName text, Node.kind_map, kind_root_parse]
  rfl

end Tree

end ScriptAnalysis.Syntax

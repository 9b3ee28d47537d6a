import ScriptAnalysis.Proofs.Syntax.ReadingExpressions

/-!
# Written statements are read back

Functions without a name hold statements, so expressions and statements are read back by one induction.
Before it there is a lemma for each reader of a statement, of parameters and of a function's body, from
what is read of the parts.
-/

namespace ScriptAnalysis.Syntax.Parser

open Word

variable {α : Type} {n : Node α} {ws : List Word}

/-! ### What is read of each part -/

/-- The parameter is read back among others. -/
def ReadsParameter (p : Node α) : Prop :=
  ∀ (k : Nat) (ws : List Word), 2 * p.words.length ≤ k → first ws = .comma ∨ first ws = .rightParen →
    Reads (parameter (expression k)) (p.words ++ ws) (Copies p) ws

/-- The declared variable is read back among others, as a constant only when it has a value. -/
def ReadsDeclaration (d : Node α) : Prop :=
  ∀ (keyword : VariableKind) (k : Nat) (ws : List Word),
    (keyword = .const → d.kind.hasValue = true) → 2 * d.words.length ≤ k →
    first ws = .comma ∨ first ws = .semicolon →
    Reads (variableDeclaration (expression k) keyword) (d.words ++ ws) (Copies d) ws

/-- The statement is read back. An `else` behind it would be read along unless it is a block. -/
def ReadsStatement (s : Node α) : Prop :=
  ∀ (k : Nat) (ws : List Word), 2 * s.words.length ≤ k →
    s.kind.isBlock = true ∨ first ws ≠ .elseWord →
    Reads (statement k) (s.words ++ ws) (fun a? => ∃ a, a? = some a ∧ Copies s a) ws

/-- The block is read back. -/
def ReadsBlock (b : Node α) : Prop :=
  ∀ (k : Nat) (ws : List Word), 2 * b.words.length ≤ k + 1 →
    Reads (block (statement k)) (b.words ++ ws) (Copies b) ws

/-- What a function without a name has for its body is read back: a block or an expression. -/
def ReadsBody (b : Node α) : Prop :=
  (b.kind.isBlock = true ∧ ReadsBlock b) ∨ (b.Printable .expression ∧ ReadsExpression b)

/-! ### Names with a type and a value -/

theorem reads_typeOption {t? : Option (Node α)} (ht : ∀ t, t? = some t → ReadsType t)
    (hcolon : first ws ≠ .colon) (hbar : first ws ≠ .bar) (hbracket : first ws ≠ .leftBracket) :
    Reads typeAnnotation (Printed.led .colon (t?.map Node.printed) ++ ws)
      (fun a? => a?.map Node.bare = t?.map Node.bare) ws := by
  cases t? with
  | none =>
    refine (reads_eat_of_ne hcolon).bind ?_
    rintro _ rfl
    exact .pure rfl
  | some t =>
    refine reads_eat.bind ?_
    rintro _ rfl
    exact ((ht t rfl).reads hbar hbracket).bind fun a ha => .pure (by simp [ha])

theorem reads_initializer {init? : Option (Node α)} {k : Nat}
    (hinit : ∀ e, init? = some e → ReadsExpression e ∧ 2 * e.words.length ≤ k) (hws : Ends ws) :
    Reads (initializer (expression k)) (Printed.led .equals (init?.map Node.printed) ++ ws)
      (fun a? => a?.map Node.bare = init?.map Node.bare) ws := by
  cases init? with
  | none =>
    refine (reads_eat_of_ne (hws.ne (by decide))).bind ?_
    rintro _ rfl
    exact .pure rfl
  | some e =>
    obtain ⟨he, hk⟩ := hinit e rfl
    refine reads_eat.bind ?_
    rintro _ rfl
    exact (he k ws hk hws).bind fun a ha => .pure (by simp [ha.bare])

/-- A word that leads something is the first word of it, or what follows is. -/
theorem first_led_ne {kind kind' : TokenKind} {p? : Option Printed} (hkind : kind ≠ kind')
    (hws : first ws ≠ kind') : first (Printed.led kind p? ++ ws) ≠ kind' := by
  cases p? with
  | none => exact hws
  | some p => exact hkind

/-- A name, a type and a value as they are read for parameters and variables. -/
theorem reads_nameTypeValue {γ : Type} {Q : γ → Prop} {out : List Word} {cause : ErrorCause}
    {i : Ident α} {t? init? : Option (Node α)} {k : Nat}
    {next : Ident Span → Option (Node Span) → Option (Node Span) → Parse γ} (hi : IsIdentifier i.text)
    (ht : ∀ t, t? = some t → ReadsType t)
    (hinit : ∀ e, init? = some e → ReadsExpression e ∧ 2 * e.words.length ≤ k) (hws : Ends ws)
    (hnext : ∀ (j : Ident Span) a? b?, j.bare = i.bare → a?.map Node.bare = t?.map Node.bare →
      b?.map Node.bare = init?.map Node.bare → Reads (next j a? b?) ws Q out) :
    Reads (do
        let name ← declaredName cause
        let type? ← typeAnnotation
        let init? ← initializer (expression k)
        next name type? init?)
      (ofName i.text :: (Printed.led .colon (t?.map Node.printed) ++
        Printed.led .equals (init?.map Node.printed)) ++ ws) Q out := by
  rw [List.cons_append, List.append_assoc]
  refine (reads_declaredName hi).bind fun j hj => ?_
  refine (reads_typeOption ht ?_ ?_ ?_).bind fun a? ha => ?_
  · exact first_led_ne (by decide) (hws.ne (by decide))
  · exact first_led_ne (by decide) (hws.ne (by decide))
  · exact first_led_ne (by decide) (hws.ne (by decide))
  · exact (reads_initializer hinit hws).bind fun b? hb => hnext j a? b? hj ha hb

theorem ends_of_comma {close : TokenKind} (hclose : close = .rightParen ∨ close = .semicolon)
    (hws : first ws = .comma ∨ first ws = close) : Ends ws := by
  rcases hws with hws | hws <;> rcases hclose with rfl | rfl <;> simp [Ends, hws]

theorem length_led {kind : TokenKind} {e? : Option (Node α)} {e : Node α} (h : e? = some e) :
    (Printed.led kind (e?.map Node.printed)).length = e.words.length + 1 := by
  subst h
  rfl

theorem readsParameter_parameter {l : α} {i : Ident α} {t? init? : Option (Node α)}
    (hi : IsIdentifier i.text) (ht : ∀ t, t? = some t → ReadsType t)
    (hinit : ∀ e, init? = some e → ReadsExpression e) :
    ReadsParameter (.mk l (.parameter i t? init?)) := by
  intro k ws hk hws
  have hwords : (Node.mk l (.parameter i t? init?)).words =
      ofName i.text :: (Printed.led .colon (t?.map Node.printed) ++
        Printed.led .equals (init?.map Node.printed)) := by
    rw [Node.words, Node.printed_mk]
    rfl
  rw [hwords] at hk ⊢
  rw [List.length_cons, List.length_append] at hk
  refine reads_current_any.bind fun _ _ => ?_
  refine reads_nameTypeValue hi ht (fun e he => ⟨hinit e he, ?_⟩) (ends_of_comma (.inl rfl) hws) ?_
  · rw [length_led he] at hk
    omega
  · intro j a? b? hj ha hb
    refine reads_finish.mono fun c hc => ?_
    rw [Copies, ← Node.mk_label_kind c, hc, Node.bare_mk, Node.bare_mk]
    simp only [Kind.map, hj, ha, hb]

theorem readsDeclaration_variableDeclaration {l : α} {i : Ident α} {t? init? : Option (Node α)}
    (hi : IsIdentifier i.text) (ht : ∀ t, t? = some t → ReadsType t)
    (hinit : ∀ e, init? = some e → ReadsExpression e) :
    ReadsDeclaration (.mk l (.variableDeclaration i t? init?)) := by
  intro keyword k ws hconst hk hws
  have hwords : (Node.mk l (.variableDeclaration i t? init?)).words =
      ofName i.text :: (Printed.led .colon (t?.map Node.printed) ++
        Printed.led .equals (init?.map Node.printed)) := by
    rw [Node.words, Node.printed_mk]
    rfl
  rw [hwords] at hk ⊢
  rw [List.length_cons, List.length_append] at hk
  refine reads_current_any.bind fun _ _ => ?_
  refine reads_nameTypeValue hi ht (fun e he => ⟨hinit e he, ?_⟩) (ends_of_comma (.inr rfl) hws) ?_
  · rw [length_led he] at hk
    omega
  · intro j a? b? hj ha hb
    have hvalue : (keyword == .const && b?.isNone) = false := by
      cases keyword with
      | var => rfl
      | letKind => rfl
      | const =>
        have hsome : init?.isSome = true := hconst rfl
        have : (b?.map Node.bare).isSome = true := by rw [hb, Option.isSome_map, hsome]
        rw [Option.isSome_map] at this
        simp [Option.isNone_eq_false_iff, this]
    simp only [hvalue, Bool.false_eq_true, if_false]
    refine reads_finish.mono fun c hc => ?_
    rw [Copies, ← Node.mk_label_kind c, hc, Node.bare_mk, Node.bare_mk]
    simp only [Kind.map, hj, ha, hb]

/-! ### Parameters and bodies -/

theorem ReadsParameter.readsItem {p : Node α} (h : ReadsParameter p) (hp : p.Printable .parameter)
    {k : Nat} (hk : 2 * p.words.length ≤ k) :
    ReadsItem (parameter (expression k)) .rightParen p := by
  refine ⟨fun ws hws => h k ws hk hws, fun ws => ?_⟩
  obtain ⟨l, kind⟩ := p
  have hfits := hp.fits_kind
  have hok := hp.ok_kind
  cases kind <;> simp only [Node.kind_mk, Kind.fits, Bool.false_eq_true] at hfits
  rw [Node.words, Node.printed_mk]
  show (ofName _).kind ≠ _ ∧ (ofName _).kind ≠ _
  rw [kind_ofName hok]
  decide

theorem reads_parameters {ps : List (Node α)} {k : Nat}
    (hps : ∀ p ∈ ps, ReadsItem (parameter (expression k)) .rightParen p) :
    Reads (parameters (expression k)) (inParens (Node.listed ps) ++ ws)
      (fun as => as.map Node.bare = ps.map Node.bare) ws := by
  rw [inParens_append]
  refine reads_expect.bind ?_
  rintro _ rfl
  refine reads_remaining.bind ?_
  rintro _ rfl
  refine (reads_items (by decide) ps hps ?_).bind fun as has => ?_
  · have := length_le_listed ps
    simp only [List.length_append, List.length_cons]
    omega
  exact reads_expect.bind fun _ _ => .pure has

theorem first_block {b : Node α} (h : b.kind.isBlock = true) (ws : List Word) :
    first (b.words ++ ws) = .leftBrace := by
  obtain ⟨l, k⟩ := b
  cases k <;> simp only [Node.kind_mk, Kind.isBlock, Bool.false_eq_true] at h
  rw [Node.words, Node.printed_mk]
  rfl

theorem first_expression_ne {e : Node α} (h : e.Printable .expression) {kind : TokenKind}
    (hkind : startsExpression kind = false) (ws : List Word) : first (e.words ++ ws) ≠ kind := by
  rintro rfl
  have hstarts := startsExpression_first h 0 ws
  rw [Node.wordsAt_zero, hkind] at hstarts
  exact Bool.false_ne_true hstarts

/-- A function without a name is told by the arrow or the colon behind its parameters. -/
theorem readsExpression_arrowFunction {l : α} {ps : List (Node α)} {t? : Option (Node α)} {b : Node α}
    (hn : (Node.mk l (.arrowFunction ps t? b)).Printable .expression)
    (hps : ∀ p ∈ ps, ReadsParameter p) (ht : ∀ t, t? = some t → ReadsType t) (hb : ReadsBody b) :
    ReadsExpression (.mk l (.arrowFunction ps t? b)) := by
  intro k ws hk hws
  rw [Node.words_arrowFunction] at hk ⊢
  simp only [List.length_append, List.length_cons, length_inParens] at hk
  rw [List.append_assoc, List.append_assoc, List.cons_append]
  obtain ⟨k, rfl⟩ : ∃ m, k = m + 1 := ⟨k - 1, by omega⟩
  have hprintable : ∀ p ∈ ps, p.Printable .parameter := fun p hp =>
    Node.Grammatical.of_mem_parts hn (p := (.parameter, p)) (by simp [Kind.parts, hp])
  have hbalanced : Balanced (Node.listed ps) :=
    closed_balanced.separated rfl (by
      simp only [List.mem_map]
      rintro _ ⟨p, hp, rfl⟩
      exact closed_balanced.words (hprintable p hp))
  refine .get_bind fun s hs => ?_
  have harrow : s.startsArrowFunction = true := by
    rw [startsArrowFunction_parens hs hbalanced]
    cases t? <;> rfl
  rw [if_pos harrow]
  refine reads_current_any.bind fun _ _ => ?_
  refine reads_isAt.bind ?_
  rintro _ rfl
  have hitems : ∀ p ∈ ps, ReadsItem (parameter (expression k)) .rightParen p := fun p hp =>
    (hps p hp).readsItem (hprintable p hp) (by have := length_listed hp; omega)
  refine (reads_parameters hitems).bind fun as has => ?_
  refine (reads_typeOption ht (by simp) (by simp) (by simp)).bind fun a? ha => ?_
  refine reads_expect.bind fun _ _ => ?_
  have hfinish : ∀ start c, c.bare = b.bare →
      Reads (finish start (.arrowFunction as a? c)) ws
        (CopiesExpression (.mk l (.arrowFunction ps t? b))) ws := by
    refine fun start c hc => reads_finish.mono fun d hd => ⟨?_, by simp [Kind.isTarget]⟩
    rw [← Node.mk_label_kind d, hd, Node.bare_mk, Node.bare_mk]
    simp only [Kind.map, has, ha, hc]
  refine reads_isAt.bind ?_
  rintro _ rfl
  rcases hb with ⟨hblock, hb⟩ | ⟨hprintable, hb⟩
  · rw [first_block hblock, if_pos (beq_self_eq_true _)]
    exact (hb k ws (by omega)).bind fun c hc => hfinish _ c hc
  · rw [if_neg (by simpa using first_expression_ne hprintable rfl ws)]
    exact (hb k ws (by omega) hws).bind fun c hc => hfinish _ c hc.bare

/-! ### Lists of statements -/

/-- A statement opens with nothing that ends statements and with no `else`. -/
theorem first_statement {s : Node α} (h : s.Printable .statement) (ws : List Word) :
    first (s.words ++ ws) ∉ [TokenKind.rightBrace, .endOfFile, .elseWord] := by
  have hfits := h.fits_kind
  obtain ⟨l, k⟩ := s
  cases k <;> simp only [Node.kind_mk, Kind.fits, Kind.isStatement, Bool.false_eq_true] at hfits
  case expressionStatement e =>
    have he : e.Printable .expression :=
      Node.Grammatical.of_mem_parts h (p := (.expression, e)) (by simp [Kind.parts])
    have hwords : (Node.mk l (.expressionStatement e)).words = e.words ++ [ofKind .semicolon] := by
      rw [Node.words, Node.printed_mk]
      rfl
    rw [hwords, List.append_assoc]
    simp only [List.mem_cons, List.not_mem_nil, or_false, not_or]
    exact ⟨first_expression_ne he rfl _, first_expression_ne he rfl _, first_expression_ne he rfl _⟩
  all_goals
    rw [Node.words, Node.printed_mk]
    simp only [Kind.map, Printed.ofKind, List.cons_append, first_cons, kind_ofKind]
  case variableStatement keyword _ => cases keyword <;> decide
  all_goals decide

theorem reads_statements {k : Nat} {close : TokenKind}
    (hclose : close = .rightBrace ∨ close = .endOfFile) (hws : first ws = close) (ss : List (Node α))
    (hss : ∀ s ∈ ss, s.Printable .statement ∧ ReadsStatement s ∧ 2 * s.words.length ≤ k) {r : Nat}
    (hr : ss.length < r) :
    Reads (statements (statement k) close r) (ss.flatMap Node.words ++ ws)
      (fun as => as.map Node.bare = ss.map Node.bare) ws := by
  induction ss generalizing r with
  | nil =>
    obtain ⟨r, rfl⟩ : ∃ m, r = m + 1 := ⟨r - 1, by omega⟩
    refine reads_isAt.bind ?_
    rintro _ rfl
    refine reads_isAt.bind fun b _ => ?_
    rw [if_pos (by simp [hws])]
    exact .pure rfl
  | cons s ss ih =>
    obtain ⟨r, rfl⟩ : ∃ m, r = m + 1 := ⟨r - 1, by omega⟩
    obtain ⟨hprintable, hs, hk⟩ := hss s (List.mem_cons_self ..)
    have hrest := ih (r := r) (fun s' hs' => hss s' (List.mem_cons_of_mem s hs'))
      (by simp at hr; omega)
    rw [List.flatMap_cons, List.append_assoc]
    have hfirst := first_statement hprintable (ss.flatMap Node.words ++ ws)
    simp only [List.mem_cons, List.not_mem_nil, or_false, not_or] at hfirst
    refine reads_isAt.bind ?_
    rintro _ rfl
    refine reads_isAt.bind ?_
    rintro _ rfl
    rw [if_neg (by rcases hclose with rfl | rfl <;> simp [hfirst])]
    have helse : first (ss.flatMap Node.words ++ ws) ≠ .elseWord := by
      cases ss with
      | nil => rcases hclose with rfl | rfl <;> simp [hws]
      | cons s' ss =>
        have := first_statement (hss s' (by simp)).1 (ss.flatMap Node.words ++ ws)
        rw [List.flatMap_cons, List.append_assoc]
        exact fun hf => this (by simp [hf])
    refine reads_remaining.bind ?_
    rintro _ rfl
    refine (hs k _ hk (.inr helse)).bind ?_
    rintro _ ⟨a, rfl, ha⟩
    refine reads_remaining.bind ?_
    rintro _ rfl
    have hpos := List.length_pos_iff.2 (Node.words_ne_nil hprintable (by decide))
    rw [if_neg (by simp only [List.length_append, beq_iff_eq]; omega)]
    exact hrest.bind fun as has => .pure (by simpa [has] using ha)

theorem length_statements {s : Node α} {ss : List (Node α)} (h : s ∈ ss) :
    s.words.length ≤ (ss.flatMap Node.words).length := by
  obtain ⟨before, after, rfl⟩ := List.append_of_mem h
  simp only [List.flatMap_append, List.flatMap_cons, List.length_append]
  omega

theorem length_le_statements {ss : List (Node α)} (h : ∀ s ∈ ss, s.Printable .statement) :
    ss.length ≤ (ss.flatMap Node.words).length := by
  induction ss with
  | nil => simp
  | cons s ss ih =>
    have hpos := List.length_pos_iff.2 (Node.words_ne_nil (h s (List.mem_cons_self ..)) (by decide))
    have := ih fun s' hs' => h s' (List.mem_cons_of_mem s hs')
    rw [List.flatMap_cons, List.length_append, List.length_cons]
    omega

theorem words_block (l : α) (ss : List (Node α)) :
    (Node.mk l (.block ss)).words =
      ofKind .leftBrace :: (ss.flatMap Node.words ++ [ofKind .rightBrace]) := by
  rw [Node.words, Node.printed_mk]
  simp only [Kind.map, Printed.ofKind, List.flatMap_map]
  rfl

theorem readsBlock_block {l : α} {ss : List (Node α)}
    (hss : ∀ s ∈ ss, s.Printable .statement ∧ ReadsStatement s) : ReadsBlock (.mk l (.block ss)) := by
  intro k ws hk
  rw [words_block] at hk ⊢
  simp only [List.length_cons, List.length_append, List.length_nil] at hk
  rw [List.cons_append, List.append_assoc]
  refine reads_current_any.bind fun _ _ => reads_expect.bind fun _ _ => reads_remaining.bind ?_
  rintro _ rfl
  refine (reads_statements (.inl rfl) rfl ss (fun s hs => ?_) ?_).bind fun as has => ?_
  · have := length_statements hs
    exact ⟨(hss s hs).1, (hss s hs).2, by omega⟩
  · have := length_le_statements fun s hs => (hss s hs).1
    rw [List.length_append]
    omega
  refine reads_expect.bind fun _ _ => reads_finish.mono fun c hc => ?_
  rw [Copies, ← Node.mk_label_kind c, hc, Node.bare_mk, Node.bare_mk]
  simp only [Kind.map, has]

/-! ### Statements -/

theorem ReadsBlock.readsStatement {b : Node α} (h : ReadsBlock b) (hb : b.kind.isBlock = true) :
    ReadsStatement b := by
  intro k ws hk _
  have hfirst := first_block hb ws
  have hne : b.words ≠ [] := fun hnil => by
    have := first_block hb []
    simp [hnil] at this
  have hpos := List.length_pos_iff.2 hne
  obtain ⟨k, rfl⟩ : ∃ m, k = m + 1 := ⟨k - 1, by omega⟩
  refine .get_bind fun s hs => ?_
  have hkind : s.current.kind = .leftBrace := hs.kind_current.trans hfirst
  simp only [hkind]
  exact (h k ws (by omega)).some

theorem reads_variableDeclarations {keyword : VariableKind} {k : Nat} (ds : List (Node α))
    (hne : ds ≠ [])
    (hds : ∀ d ∈ ds, ∀ ws, first ws = .comma ∨ first ws = .semicolon →
      Reads (variableDeclaration (expression k) keyword) (d.words ++ ws) (Copies d) ws) {r : Nat}
    (hr : ds.length ≤ r + 1) :
    Reads (variableDeclarations (variableDeclaration (expression k) keyword) r)
      (Node.listed ds ++ ofKind .semicolon :: ws) (fun as => as.map Node.bare = ds.map Node.bare)
      (ofKind .semicolon :: ws) := by
  induction ds generalizing r with
  | nil => exact absurd rfl hne
  | cons d ds ih =>
    have hd := hds d (List.mem_cons_self ..)
    rw [listed_cons, List.append_assoc]
    cases r with
    | zero =>
      obtain rfl : ds = [] := by simpa using hr
      exact (hd _ (.inr rfl)).bind fun a ha => .pure (by simp [ha])
    | succ r =>
      cases ds with
      | nil =>
        refine (hd _ (.inr rfl)).bind fun a ha => (reads_eat_of_ne (by simp)).bind ?_
        rintro _ rfl
        exact .pure (by simp [ha])
      | cons d' ds =>
        have hrest := ih (r := r) (by simp) (fun d'' hd'' => hds d'' (List.mem_cons_of_mem d hd''))
          (by simp at hr ⊢; omega)
        rw [listed_cons, List.append_assoc] at hrest
        rw [List.flatMap_cons, List.append_assoc, List.cons_append]
        refine (hd _ (.inl rfl)).bind fun a ha => reads_eat.bind ?_
        rintro _ rfl
        exact hrest.bind fun as has => .pure (by simp [ha, has])

theorem readsStatement_variableStatement {l : α} {keyword : VariableKind} {ds : List (Node α)}
    (hok : (Kind.variableStatement keyword ds : Kind (Ident α) (Node α)).IsPrintable)
    (hds : ∀ d ∈ ds, ReadsDeclaration d) :
    ReadsStatement (.mk l (.variableStatement keyword ds)) := by
  intro k ws hk _
  have hwords : (Node.mk l (.variableStatement keyword ds)).words =
      ofKind keyword.token :: (Node.listed ds ++ [ofKind .semicolon]) := by
    rw [Node.words, Node.printed_mk, ← Node.separated_map_printed]
    rfl
  rw [hwords] at hk ⊢
  simp only [List.length_cons, List.length_append, List.length_nil] at hk
  rw [List.cons_append, List.append_assoc]
  obtain ⟨k, rfl⟩ : ∃ m, k = m + 1 := ⟨k - 1, by omega⟩
  have hread : Reads (variableStatement (expression k) keyword)
      (ofKind keyword.token :: (Node.listed ds ++ ofKind .semicolon :: ws))
      (Copies (.mk l (.variableStatement keyword ds))) ws := by
    refine reads_advance.bind fun _ _ => reads_remaining.bind ?_
    rintro _ rfl
    refine (reads_variableDeclarations ds hok.1 (fun d hd ws hws => ?_) ?_).bind fun as has => ?_
    · have := length_listed hd
      exact hds d hd keyword k ws (fun hconst => hok.2 hconst d hd) (by omega) hws
    · have := length_le_listed ds
      rw [List.length_append, List.length_cons]
      omega
    refine reads_semicolon.bind fun _ _ => reads_finish.mono fun c hc => ?_
    rw [Copies, ← Node.mk_label_kind c, hc, Node.bare_mk, Node.bare_mk]
    simp only [Kind.map, has]
  refine .get_bind fun s hs => ?_
  have hkind : s.current.kind = keyword.token := hs.kind_current
  cases keyword <;> simp only [hkind, VariableKind.token] <;>
    exact hread.some

theorem readsStatement_functionDeclaration {l : α} {i : Ident α} {ps : List (Node α)}
    {t? : Option (Node α)} {b : Node α} (hi : IsIdentifier i.text)
    (hps : ∀ p ∈ ps, p.Printable .parameter ∧ ReadsParameter p)
    (ht : ∀ t, t? = some t → ReadsType t) (hblock : b.kind.isBlock = true) (hb : ReadsBlock b) :
    ReadsStatement (.mk l (.functionDeclaration i ps t? b)) := by
  intro k ws hk _
  have hwords : (Node.mk l (.functionDeclaration i ps t? b)).words =
      ofKind .functionWord :: ofName i.text :: (inParens (Node.listed ps) ++
        (Printed.led .colon (t?.map Node.printed) ++ b.words)) := by
    rw [Node.words, Node.printed_mk, ← Node.separated_map_printed]
    rfl
  rw [hwords] at hk ⊢
  simp only [List.length_cons, List.length_append, length_inParens] at hk
  rw [List.cons_append, List.cons_append, List.append_assoc, List.append_assoc]
  obtain ⟨k, rfl⟩ : ∃ m, k = m + 1 := ⟨k - 1, by omega⟩
  refine .get_bind fun s hs => ?_
  have hkind : s.current.kind = .functionWord := hs.kind_current
  simp only [hkind]
  refine Reads.some ?_
  refine reads_advance.bind fun _ _ => (reads_declaredName hi).bind
    fun j (hj : j.bare = i.bare) => ?_
  have hitems : ∀ p ∈ ps, ReadsItem (parameter (expression k)) .rightParen p := fun p hp =>
    (hps p hp).2.readsItem (hps p hp).1 (by have := length_listed hp; omega)
  refine (reads_parameters hitems).bind fun as has => ?_
  have hfirst := first_block hblock ws
  refine (reads_typeOption ht (by simp [hfirst]) (by simp [hfirst]) (by simp [hfirst])).bind
    fun a? ha => reads_isAt.bind ?_
  rintro _ rfl
  rw [hfirst, if_pos (beq_self_eq_true _)]
  refine (hb k ws (by omega)).bind fun c hc => reads_finish.mono fun d hd => ?_
  rw [Copies, ← Node.mk_label_kind d, hd, Node.bare_mk, Node.bare_mk]
  simp only [Kind.map, hj, has, ha]
  rw [hc]

theorem readsStatement_typeAlias {l : α} {i : Ident α} {t : Node α} (hi : IsIdentifier i.text)
    (ht : ReadsType t) : ReadsStatement (.mk l (.typeAlias i t)) := by
  intro k ws hk _
  have hwords : (Node.mk l (.typeAlias i t)).words =
      ofName "type" :: ofName i.text :: ofKind .equals :: (t.words ++ [ofKind .semicolon]) := by
    rw [Node.words, Node.printed_mk]
    rfl
  rw [hwords] at hk ⊢
  simp only [List.length_cons] at hk
  simp only [List.cons_append, List.append_assoc, List.nil_append]
  obtain ⟨k, rfl⟩ : ∃ m, k = m + 1 := ⟨k - 1, by omega⟩
  refine .get_bind fun s hs => ?_
  have htype : (ofName "type").kind = .identifier := by decide
  have hkind : s.current.kind = .identifier := hs.kind_current.trans htype
  have halias : s.startsTypeAlias = true := by
    have htext : s.current.text = "type" := hs.text_current
    have hnext : (s.peek 1).kind = .identifier := hs.kind_peek_one.trans (kind_ofName hi)
    simp [State.startsTypeAlias, hkind, htext, hnext, hs.afterLineBreak_peek_one]
  simp only [hkind, halias, if_true]
  refine Reads.some ?_
  refine reads_advance.bind fun _ _ => (reads_declaredName hi).bind
    fun j (hj : j.bare = i.bare) => ?_
  refine reads_expect.bind fun _ _ => (ht.reads (by simp) (by simp)).bind fun a ha => ?_
  refine reads_semicolon.bind fun _ _ => reads_finish.mono fun c hc => ?_
  rw [Copies, ← Node.mk_label_kind c, hc, Node.bare_mk, Node.bare_mk]
  simp only [Kind.map, hj]
  rw [ha]

/-- No expression is taken for a name for a type. -/
theorem startsTypeAlias_expression {s : State} {e : Node α} (h : e.Printable .expression)
    (hs : s.Shows (e.words ++ ws)) (hws : Follows ws) : s.startsTypeAlias = false := by
  cases harrow : e.kind.isArrowFunction with
  | false => exact startsTypeAlias_of_opens hs (opens_words h harrow hws)
  | true =>
    obtain ⟨l, k⟩ := e
    cases k <;> simp only [Node.kind_mk, Kind.isArrowFunction, Bool.false_eq_true] at harrow
    rw [Node.words_arrowFunction, List.append_assoc] at hs
    have hkind : s.current.kind = .leftParen := hs.kind_current
    simp [State.startsTypeAlias, hkind]

theorem readsStatement_expressionStatement {l : α} {e : Node α} (h : e.Printable .expression)
    (he : ReadsExpression e) : ReadsStatement (.mk l (.expressionStatement e)) := by
  intro k ws hk _
  have hwords : (Node.mk l (.expressionStatement e)).words = e.words ++ [ofKind .semicolon] := by
    rw [Node.words, Node.printed_mk]
    rfl
  rw [hwords] at hk ⊢
  simp only [List.length_append, List.length_cons, List.length_nil] at hk
  rw [List.append_assoc]
  obtain ⟨k, rfl⟩ : ∃ m, k = m + 1 := ⟨k - 1, by omega⟩
  have hread : Reads (expressionStatement (expression k)) (e.words ++ ofKind .semicolon :: ws)
      (Copies (.mk l (.expressionStatement e))) ws := by
    refine reads_current_any.bind fun _ _ => (he k _ (by omega) (by simp [Ends])).bind fun a ha => ?_
    refine reads_semicolon.bind fun _ _ => reads_finish.mono fun c hc => ?_
    rw [Copies, ← Node.mk_label_kind c, hc, Node.bare_mk, Node.bare_mk]
    simp only [Kind.map, ha.bare]
  refine .get_bind fun s hs => ?_
  have halias := startsTypeAlias_expression h hs (follows_ofKind (by decide))
  have hstarts : startsExpression s.current.kind = true := by
    have hfirst := startsExpression_first h 0 (ofKind .semicolon :: ws)
    rw [Node.wordsAt_zero] at hfirst
    rw [hs.kind_current]
    exact hfirst
  -- No other statement begins with a word that an expression begins with.
  split
  all_goals first
    | (rename_i hkind; rw [hkind] at hstarts; contradiction)
    | skip
  rw [if_neg (by simp [halias]), if_pos hstarts]
  exact hread.some

theorem readsStatement_returnStatement {l : α} {e? : Option (Node α)}
    (he : ∀ e, e? = some e → e.Printable .expression ∧ ReadsExpression e) :
    ReadsStatement (.mk l (.returnStatement e?)) := by
  intro k ws hk _
  have hwords : (Node.mk l (.returnStatement e?)).words =
      ofKind .returnWord :: ((e?.elim [] Node.words) ++ [ofKind .semicolon]) := by
    rw [Node.words, Node.printed_mk]
    cases e? <;> rfl
  rw [hwords] at hk ⊢
  simp only [List.length_cons, List.length_append, List.length_nil] at hk
  rw [List.cons_append, List.append_assoc]
  obtain ⟨k, rfl⟩ : ∃ m, k = m + 1 := ⟨k - 1, by omega⟩
  refine .get_bind fun s hs => ?_
  have hkind : s.current.kind = .returnWord := hs.kind_current
  simp only [hkind]
  refine Reads.some ?_
  have hfinish : ∀ start a?, a?.map Node.bare = e?.map Node.bare →
      Reads (do semicolon; finish start (.returnStatement a?)) (ofKind .semicolon :: ws)
        (Copies (.mk l (.returnStatement e?))) ws := by
    intro start a? ha
    refine reads_semicolon.bind fun _ _ => reads_finish.mono fun c hc => ?_
    rw [Copies, ← Node.mk_label_kind c, hc, Node.bare_mk, Node.bare_mk]
    simp only [Kind.map, ha]
  refine reads_advance.bind fun _ _ => .get_bind fun s' hs' => ?_
  cases e? with
  | none =>
    have hkind' : s'.current.kind = .semicolon := hs'.kind_current
    rw [if_pos (by simp [hkind'])]
    exact hfinish _ none rfl
  | some e =>
    obtain ⟨hprintable, hread⟩ := he e rfl
    have hcurrent := hs'.kind_current
    have hbreak : s'.current.afterLineBreak = false := by
      obtain ⟨w, rest, hrest⟩ := List.exists_cons_of_ne_nil (Node.words_ne_nil hprintable (by decide))
      simp only [Option.elim_some, hrest, List.cons_append] at hs'
      exact hs'.afterLineBreak_current
    have hne : ∀ kind, startsExpression kind = false → s'.current.kind ≠ kind := by
      intro kind hk
      rw [hcurrent]
      exact first_expression_ne hprintable hk _
    rw [if_neg (by
      simp [State.endsStatement, hbreak, hne .semicolon rfl, hne .rightBrace rfl, hne .endOfFile rfl])]
    have hends : Ends (ofKind .semicolon :: ws) := by simp [Ends]
    refine (hread k _ (by simp at hk; omega) hends).some.bind ?_
    rintro _ ⟨a, rfl, ha⟩
    exact hfinish _ (some a) (by simp [ha.bare])

/-- Statements inside others are there. -/
theorem ReadsStatement.embedded {b : Node α} (h : ReadsStatement b) {k : Nat}
    (hk : 2 * b.words.length ≤ k) (hws : b.kind.isBlock = true ∨ first ws ≠ .elseWord) :
    Reads (embedded (statement k)) (b.words ++ ws) (Copies b) ws := by
  refine (h k ws hk hws).bind ?_
  rintro _ ⟨a, rfl, ha⟩
  exact .pure ha

theorem ReadsExpression.condition {c : Node α} (h : ReadsExpression c) {k : Nat}
    (hk : 2 * c.words.length ≤ k) :
    Reads (condition (expression k)) (inParens c.words ++ ws) (Copies c) ws := by
  rw [inParens_append]
  refine reads_expect.bind fun _ _ => (h k _ hk (by simp [Ends])).bind fun a ha => ?_
  exact reads_expect.bind fun _ _ => .pure ha.bare

theorem readsStatement_ifStatement {l : α} {c t : Node α} {e? : Option (Node α)}
    (hblock : e?.isSome = true → t.kind.isBlock = true) (hc : ReadsExpression c)
    (ht : ReadsStatement t) (he : ∀ e, e? = some e → ReadsStatement e) :
    ReadsStatement (.mk l (.ifStatement c t e?)) := by
  intro k ws hk hws
  have hwords : (Node.mk l (.ifStatement c t e?)).words = ofKind .ifWord ::
      (inParens c.words ++ (t.words ++ Printed.led .elseWord (e?.map Node.printed))) := by
    rw [Node.words, Node.printed_mk]
    rfl
  have helse : first ws ≠ .elseWord := by
    rcases hws with hws | hws
    · exact absurd hws (by simp [Kind.isBlock])
    · exact hws
  rw [hwords] at hk ⊢
  simp only [List.length_cons, List.length_append, length_inParens] at hk
  rw [List.cons_append, List.append_assoc, List.append_assoc]
  obtain ⟨k, rfl⟩ : ∃ m, k = m + 1 := ⟨k - 1, by omega⟩
  refine .get_bind fun s hs => ?_
  have hkind : s.current.kind = .ifWord := hs.kind_current
  simp only [hkind]
  refine Reads.some ?_
  refine reads_advance.bind fun _ _ => (hc.condition (by omega)).bind fun a ha => ?_
  have hthen : t.kind.isBlock = true ∨
      first (Printed.led .elseWord (e?.map Node.printed) ++ ws) ≠ .elseWord := by
    cases e? with
    | none => exact .inr helse
    | some e => exact .inl (hblock rfl)
  refine (ht.embedded (by omega) hthen).bind fun b hb => ?_
  have hfinish : ∀ start d?, d?.map Node.bare = e?.map Node.bare →
      Reads (finish start (.ifStatement a b d?)) ws (Copies (.mk l (.ifStatement c t e?))) ws := by
    intro start d? hd
    refine reads_finish.mono fun f hf => ?_
    rw [Copies, ← Node.mk_label_kind f, hf, Node.bare_mk, Node.bare_mk]
    simp only [Kind.map, hd]
    rw [ha, hb]
  cases e? with
  | none =>
    refine (reads_eat_of_ne helse).bind ?_
    rintro _ rfl
    exact hfinish _ none rfl
  | some e =>
    rw [length_led rfl] at hk
    refine reads_eat.bind ?_
    rintro _ rfl
    refine ((he e rfl).embedded (by omega) (.inr helse)).some.bind ?_
    rintro _ ⟨d, rfl, hd⟩
    exact hfinish _ (some d) (by simp [hd])

theorem readsStatement_whileStatement {l : α} {c b : Node α} (hc : ReadsExpression c)
    (hb : ReadsStatement b) : ReadsStatement (.mk l (.whileStatement c b)) := by
  intro k ws hk hws
  have hwords : (Node.mk l (.whileStatement c b)).words =
      ofKind .whileWord :: (inParens c.words ++ b.words) := by
    rw [Node.words, Node.printed_mk]
    rfl
  have helse : first ws ≠ .elseWord := by
    rcases hws with hws | hws
    · exact absurd hws (by simp [Kind.isBlock])
    · exact hws
  rw [hwords] at hk ⊢
  simp only [List.length_cons, List.length_append, length_inParens] at hk
  rw [List.cons_append, List.append_assoc]
  obtain ⟨k, rfl⟩ : ∃ m, k = m + 1 := ⟨k - 1, by omega⟩
  refine .get_bind fun s hs => ?_
  have hkind : s.current.kind = .whileWord := hs.kind_current
  simp only [hkind]
  refine Reads.some ?_
  refine reads_advance.bind fun _ _ => (hc.condition (by omega)).bind fun a ha => ?_
  refine (hb.embedded (by omega) (.inr helse)).bind fun d hd => reads_finish.mono fun f hf => ?_
  rw [Copies, ← Node.mk_label_kind f, hf, Node.bare_mk, Node.bare_mk]
  simp only [Kind.map]
  rw [ha, hd]

theorem readsStatement_emptyStatement {l : α} : ReadsStatement (.mk l (.emptyStatement)) := by
  intro k ws hk _
  have hwords : (Node.mk l .emptyStatement).words = [ofKind .semicolon] := rfl
  rw [hwords] at hk ⊢
  obtain ⟨k, rfl⟩ : ∃ m, k = m + 1 := ⟨k - 1, by simp at hk; omega⟩
  refine .get_bind fun s hs => ?_
  have hkind : s.current.kind = .semicolon := hs.kind_current
  simp only [hkind]
  refine reads_advance.bind fun _ _ => reads_finish.map fun c hc => ⟨c, rfl, ?_⟩
  rw [Copies, ← Node.mk_label_kind c, hc, Node.bare_mk, Node.bare_mk]
  rfl

end ScriptAnalysis.Syntax.Parser

import ScriptAnalysis.Proofs.Syntax.Opening
import ScriptAnalysis.Proofs.Syntax.ReadingTypes

/-!
# Written expressions are read back

Suffixes and operators are read by loops that go on where the first operand ends, so that what is read at
first is only the leftmost part of an expression. `ReadsOperand` and `ReadsOperators` say of an expression
that the loop goes on behind it as if it had just been read; both are proved along the leftmost parts. The
bound on nested readers counts twice the words that are left.
-/

namespace ScriptAnalysis.Syntax.Parser

open Word

variable {α γ : Type} {n : Node α} {ws : List Word}

/-- Something is read that is bare the same tree, and a value can be assigned to it as before. -/
structure CopiesExpression (n : Node α) (a : Node Span) : Prop where
  bare : a.bare = n.bare
  target : n.kind.isTarget = true → isTarget a = true

/-- What stands behind an expression that is not part of an expression with operators. -/
def Ends (ws : List Word) : Prop :=
  first ws ∈ [TokenKind.rightParen, .rightBracket, .comma, .semicolon]

/-- What stands behind an operand goes on with no member and no arguments. -/
structure EndsOperand (ws : List Word) : Prop where
  dot : first ws ≠ .dot
  leftParen : first ws ≠ .leftParen

theorem endsOperand_token (op : BinaryOperator) (ws : List Word) :
    EndsOperand (ofKind op.token :: ws) := by
  constructor <;> rw [first_cons, kind_ofKind] <;> cases op <;> decide

theorem Ends.ne (h : Ends ws) {kind : TokenKind}
    (hkind : kind ∉ [TokenKind.rightParen, .rightBracket, .comma, .semicolon]) : first ws ≠ kind := by
  rintro rfl
  exact hkind h

theorem Ends.endsOperand (h : Ends ws) : EndsOperand ws := by
  constructor <;> exact h.ne (by decide)

theorem Ends.follows (h : Ends ws) : Follows ws := by
  constructor <;> exact h.ne (by decide)

theorem Ends.ofToken? (h : Ends ws) : BinaryOperator.ofToken? (first ws) = none := by
  simp only [Ends, List.mem_cons, List.not_mem_nil, or_false] at h
  rcases h with h | h | h | h <;> rw [h] <;> rfl

theorem Ends.assignmentOfToken? (h : Ends ws) :
    BinaryOperator.assignmentOfToken? (first ws) = none := by
  simp only [Ends, List.mem_cons, List.not_mem_nil, or_false] at h
  rcases h with h | h | h | h <;> rw [h] <;> rfl

/-! ### What is read of an expression -/

/-- The expression is read back with room for twice its words. -/
def ReadsExpression (n : Node α) : Prop :=
  ∀ (k : Nat) (ws : List Word), 2 * n.words.length ≤ k → Ends ws →
    Reads (expression k) (n.words ++ ws) (CopiesExpression n) ws

/-- Behind the expression as an operand, the loop over suffixes goes on. -/
def ReadsOperand (n : Node α) : Prop :=
  ∀ (k start : Nat) (ws out : List Word) (Q : Node Span → Prop),
    2 * (n.wordsAt 8).length ≤ k + 1 →
    (∀ r a, ws.length ≤ r → CopiesExpression n a →
      Reads (suffixes (expression k) start r a) ws Q out) →
    Reads (do let first ← primary (expression k); suffixes (expression k) start (← remaining) first)
      (n.wordsAt 8 ++ ws) Q out

/-- The expression is read back where only operators in front are read. -/
def ReadsUnary (n : Node α) : Prop :=
  ∀ (k r : Nat) (ws : List Word), 2 * (n.wordsAt 7).length ≤ k + 1 → (n.wordsAt 7).length ≤ r →
    EndsOperand ws → Reads (unary (expression k) r) (n.wordsAt 7 ++ ws) (CopiesExpression n) ws

/-- Behind the expression as the left side of operators, the loop over operators goes on. Whatever comes
after the first operand, `next` has to enter that loop with a bound of at least the words left. -/
def ReadsOperators (level : Nat) (n : Node α) : Prop :=
  ∀ (γ : Type) (k least : Nat) (ws out out' : List Word) (Q : Node Span → Prop) (Q' : γ → Prop)
    (next : Node Span → Parse γ), 2 * (n.wordsAt level).length ≤ k + 1 → least < level →
    EndsOperand ws →
    (∀ op, BinaryOperator.ofToken? (first ws) = some op → op.precedence ≤ level) →
    (∀ a mid, mid.length ≤ (n.wordsAt level ++ ws).length →
      (∀ r, mid.length ≤ r → Reads (operators (expression k) r least a) mid Q out) →
      Reads (next a) mid Q' out') →
    (∀ r a, ws.length ≤ r → CopiesExpression n a →
      Reads (operators (expression k) r least a) ws Q out) →
    Reads (do let first ← unary (expression k) (← remaining); next first) (n.wordsAt level ++ ws) Q' out'

/-! ### From one to another -/

theorem length_inParens (ws : List Word) : (inParens ws).length = ws.length + 2 := by
  simp [inParens]

theorem reads_parenthesized {k : Nat} (h : ReadsExpression n) (hk : 2 * n.words.length ≤ k) :
    Reads (primary (expression k)) (inParens n.words ++ ws)
      (fun a => ∃ b, CopiesExpression n b ∧ a.kind = .parenthesized b) ws := by
  rw [inParens_append]
  refine reads_current.bind fun token htoken => ?_
  have hkind : token.kind = .leftParen := congrArg Word.kind htoken
  simp only [hkind]
  refine reads_advance.bind fun _ _ => (h k _ hk (by simp [Ends])).bind fun b hb => ?_
  exact reads_expect.bind fun _ _ => reads_finish.mono fun a ha => ⟨b, hb, ha⟩

/-- Parentheses around an expression that is not an operand by itself. -/
theorem ReadsExpression.readsOperand (h : ReadsExpression n) (hlevel : n.printed.level < 8)
    (htarget : n.kind.isTarget = false) : ReadsOperand n := by
  intro k start ws out Q hk hloop
  rw [Node.wordsAt_of_lt hlevel] at hk ⊢
  rw [length_inParens] at hk
  refine (reads_parenthesized h (by omega)).bind fun a ha => ?_
  obtain ⟨b, hb, ha⟩ := ha
  refine reads_remaining.bind ?_
  rintro _ rfl
  refine hloop _ a (Nat.le_refl _) ⟨?_, by simp [htarget]⟩
  rw [← Node.mk_label_kind a, ha, Node.bare_mk]
  exact hb.bare

theorem reads_suffixes_stop {expr : NodeParse} {start r : Nat} {a : Node Span} (h : EndsOperand ws) :
    Reads (suffixes expr start r a) ws (· = a) ws := by
  cases r with
  | zero => exact .pure rfl
  | succ r =>
    refine reads_current_any.bind fun token htoken => ?_
    have hdot := htoken ▸ h.dot
    have hparen := htoken ▸ h.leftParen
    split
    · contradiction
    · contradiction
    · exact .pure rfl

theorem ReadsOperand.reads_operand (h : ReadsOperand n) {k : Nat}
    (hk : 2 * (n.wordsAt 8).length ≤ k + 1) (hws : EndsOperand ws) :
    Reads (operand (expression k)) (n.wordsAt 8 ++ ws) (CopiesExpression n) ws := by
  refine reads_current_any.bind fun _ _ => h k _ ws ws _ hk fun r a _ ha => ?_
  exact (reads_suffixes_stop hws).mono fun b hb => hb ▸ ha

theorem ReadsOperand.readsUnary (h : ReadsOperand n) (hn : n.Printable .expression)
    (hwords : n.wordsAt 7 = n.wordsAt 8) : ReadsUnary n := by
  intro k r ws hk _ hws
  rw [hwords] at hk ⊢
  cases r with
  | zero => exact h.reads_operand hk hws
  | succ r =>
    refine reads_current_any.bind fun token htoken => ?_
    have hprefix := prefixOperator_first hn rfl ws
    simp only [htoken, hprefix]
    exact h.reads_operand hk hws

theorem ReadsUnary.readsOperators (h : ReadsUnary n) {level : Nat}
    (hwords : n.wordsAt level = n.wordsAt 7) : ReadsOperators level n := by
  intro γ k least ws out out' Q Q' next hk _ hws _ hnext hloop
  rw [hwords] at hk hnext ⊢
  refine reads_remaining.bind ?_
  rintro _ rfl
  refine (h k _ ws hk (by simp) hws).bind fun a ha => ?_
  exact hnext a ws (by simp) fun r hr => hloop r a hr ha

theorem reads_operators_stop {expr : NodeParse} {least r : Nat} {a : Node Span}
    (h : ∀ op, BinaryOperator.ofToken? (first ws) = some op → op.precedence ≤ least) :
    Reads (operators expr r least a) ws (· = a) ws := by
  cases r with
  | zero => exact .pure rfl
  | succ r =>
    refine reads_current_any.bind fun token htoken => ?_
    rw [htoken]
    split
    · rename_i op hop
      rw [if_pos (h op hop)]
      exact .pure rfl
    · exact .pure rfl

/-- An expression with operators that is neither an assignment nor a function without a name. -/
theorem ReadsOperators.readsExpression (h : ReadsOperators 1 n) (hn : n.Printable .expression)
    (hwords : n.wordsAt 1 = n.words) (harrow : n.kind.isArrowFunction = false) : ReadsExpression n := by
  intro k ws hk hws
  have hpos := List.length_pos_iff.2 (Node.words_ne_nil hn (by decide))
  obtain ⟨k, rfl⟩ : ∃ m, k = m + 1 := ⟨k - 1, by omega⟩
  have hopens := opens_words hn harrow hws.follows
  refine .get_bind fun s hs => ?_
  rw [if_neg (by simp [startsArrowFunction_of_opens hs hopens])]
  rw [← hwords]
  refine h _ k 0 ws ws ws (CopiesExpression n) _ _ (by rw [hwords]; omega) (by decide) hws.endsOperand
    (by simp [hws.ofToken?]) ?_ ?_
  · intro a mid _ hoperators
    refine reads_remaining.bind ?_
    rintro _ rfl
    refine (hoperators _ (Nat.le_refl _)).bind fun left hleft => ?_
    refine reads_current_any.bind fun token htoken => ?_
    rw [htoken, hws.assignmentOfToken?]
    exact .pure hleft
  · intro r a _ ha
    exact (reads_operators_stop (by simp [hws.ofToken?])).mono fun b hb => hb ▸ ha

/-! ### Lists -/

theorem listed_cons (n : Node α) (ns : List (Node α)) :
    Node.listed (n :: ns) = n.words ++ ns.flatMap fun m => ofKind .comma :: m.words := by
  rw [Node.listed, List.map_cons, separated_cons, List.flatMap_map]

theorem length_listed {ns : List (Node α)} (h : n ∈ ns) :
    n.words.length ≤ (Node.listed ns).length := by
  cases ns with
  | nil => simp at h
  | cons m ns =>
    rw [listed_cons, List.length_append]
    rcases List.mem_cons.1 h with rfl | h
    · exact Nat.le_add_right _ _
    · have := length_lt_flatMap_cons .comma Node.words h
      omega

theorem length_le_listed (ns : List (Node α)) : ns.length ≤ (Node.listed ns).length + 1 := by
  cases ns with
  | nil => simp
  | cons n ns =>
    have := length_le_flatMap_cons .comma Node.words ns
    rw [listed_cons, List.length_append, List.length_cons]
    omega

/-- What can be an item among others: it is read back as one, and does not open with what ends the items. -/
structure ReadsItem (item : NodeParse) (close : TokenKind) (n : Node α) : Prop where
  reads (ws : List Word) : first ws = .comma ∨ first ws = close →
    Reads item (n.words ++ ws) (Copies n) ws
  opens (ws : List Word) : first (n.words ++ ws) ≠ close ∧ first (n.words ++ ws) ≠ .endOfFile

/-- Items are read up to the closing word. -/
theorem reads_items {item : NodeParse} {close : TokenKind} (hclose : close ≠ .comma)
    (ns : List (Node α)) (hns : ∀ n ∈ ns, ReadsItem item close n) {k : Nat} (hk : ns.length < k) :
    Reads (items item close k) (Node.listed ns ++ ofKind close :: ws)
      (fun as => as.map Node.bare = ns.map Node.bare) (ofKind close :: ws) := by
  induction ns generalizing k with
  | nil =>
    obtain ⟨k, rfl⟩ : ∃ m, k = m + 1 := ⟨k - 1, by omega⟩
    refine reads_isAt.bind ?_
    rintro _ rfl
    refine reads_isAt.bind fun b _ => ?_
    rw [if_pos (by simp [Node.listed, separated])]
    exact .pure rfl
  | cons n ns ih =>
    obtain ⟨k, rfl⟩ : ∃ m, k = m + 1 := ⟨k - 1, by omega⟩
    have hn := hns n (List.mem_cons_self ..)
    rw [listed_cons, List.append_assoc]
    refine reads_isAt.bind ?_
    rintro _ rfl
    refine reads_isAt.bind ?_
    rintro _ rfl
    obtain ⟨hnotClose, hnotEnd⟩ :=
      hn.opens (ns.flatMap (fun m => ofKind .comma :: m.words) ++ ofKind close :: ws)
    rw [if_neg (by simp [hnotClose, hnotEnd])]
    cases ns with
    | nil =>
      refine (hn.reads _ (.inr rfl)).bind fun a ha => ?_
      refine (reads_eat_of_ne (by simpa using hclose)).bind ?_
      rintro _ rfl
      exact .pure (by simp [ha])
    | cons m ns =>
      have hrest := ih (k := k) (fun n' hn' => hns n' (List.mem_cons_of_mem n hn'))
        (by simp at hk ⊢; omega)
      rw [listed_cons, List.append_assoc] at hrest
      rw [List.flatMap_cons, List.append_assoc, List.cons_append]
      refine (hn.reads _ (.inl rfl)).bind fun a ha => ?_
      refine reads_eat.bind ?_
      rintro _ rfl
      exact hrest.bind fun as has => .pure (by simp [ha, has])

/-! ### Operands -/

theorem readsOperand_word {w : Word} (hwords : n.wordsAt 8 = [w])
    (hread : ∀ expr ws, Reads (primary expr) (w :: ws) (CopiesExpression n) ws) : ReadsOperand n := by
  intro k start ws out Q _ hloop
  rw [hwords]
  refine (hread _ ws).bind fun a ha => reads_remaining.bind ?_
  rintro _ rfl
  exact hloop _ a (Nat.le_refl _) ha

/-- A leaf is bare what its kind says. -/
theorem copies_leaf {l : α} {span : Span} {k : Kind (Ident α) (Node α)}
    {k' : Kind (Ident Span) (Node Span)} (h : k'.map Ident.bare Node.bare = k.map Ident.bare Node.bare)
    (htarget : k.isTarget = true → isTarget (.mk span k') = true) :
    CopiesExpression (.mk l k) (.mk span k') :=
  ⟨by rw [Node.bare_mk, Node.bare_mk, h], htarget⟩

theorem readsOperand_identifier {l : α} {text : String} (h : IsIdentifier text) :
    ReadsOperand (.mk l (.identifier text)) := by
  refine readsOperand_word (w := ofName text) rfl fun expr ws => ?_
  refine reads_current.bind fun token htoken => ?_
  have hkind : token.kind = .identifier := (congrArg Word.kind htoken).trans (kind_ofName h)
  have htext : token.text = text := congrArg Word.text htoken
  simp only [hkind, htext]
  exact reads_advance.bind fun _ _ => .pure (copies_leaf rfl fun _ => rfl)

theorem readsOperand_numericLiteral {l : α} {text : String} :
    ReadsOperand (.mk l (.numericLiteral text)) := by
  refine readsOperand_word (w := ⟨.numericLiteral, text⟩) rfl fun expr ws => ?_
  refine reads_current.bind fun token htoken => ?_
  have hkind : token.kind = .numericLiteral := congrArg Word.kind htoken
  have htext : token.text = text := congrArg Word.text htoken
  simp only [hkind, htext]
  exact reads_advance.bind fun _ _ => .pure (copies_leaf rfl (by simp [Kind.isTarget]))

theorem readsOperand_stringLiteral {l : α} {s : String} :
    ReadsOperand (.mk l (.stringLiteral s)) := by
  refine readsOperand_word (w := ofString s) rfl fun expr ws => ?_
  refine reads_current.bind fun token htoken => ?_
  have hkind : token.kind = .stringLiteral := congrArg Word.kind htoken
  have htext : token.text = (ofString s).text := congrArg Word.text htoken
  have hvalue : String.ofList (Escape.value token.text.toList) = s := by
    rw [htext, ofString, String.toList_ofList, Escape.value_spell, String.ofList_toList]
  simp only [hkind, hvalue]
  exact reads_advance.bind fun _ _ => .pure (copies_leaf rfl (by simp [Kind.isTarget]))

theorem readsOperand_constant {l : α} {k : Kind (Ident α) (Node α)}
    (h : k = .trueLiteral ∨ k = .falseLiteral ∨ k = .nullLiteral) : ReadsOperand (.mk l k) := by
  rcases h with rfl | rfl | rfl
  all_goals
    refine readsOperand_word rfl fun expr ws => reads_current.bind fun token htoken => ?_
    have hkind := congrArg Word.kind htoken
    rw [Token.kind_word, kind_ofKind] at hkind
    simp only [hkind]
    exact reads_advance.bind fun _ _ => .pure (copies_leaf rfl (by simp [Kind.isTarget]))

/-- An expression as an item in parentheses or brackets. -/
theorem ReadsExpression.readsItem (h : ReadsExpression n) (hn : n.Printable .expression) {k : Nat}
    (hk : 2 * n.words.length ≤ k) {close : TokenKind}
    (hclose : close = .rightParen ∨ close = .rightBracket) : ReadsItem (expression k) close n := by
  constructor
  · intro ws hws
    refine (h k ws hk ?_).mono fun a ha => ha.bare
    rcases hws with hws | hws <;> rcases hclose with rfl | rfl <;> simp [Ends, hws]
  · intro ws
    have hstarts := startsExpression_first hn 0 ws
    rw [Node.wordsAt_zero] at hstarts
    constructor <;> intro hfirst <;> rw [hfirst] at hstarts
    · rcases hclose with rfl | rfl <;> simp [startsExpression] at hstarts
    · simp [startsExpression] at hstarts

theorem readsOperand_arrayLiteral {l : α} {es : List (Node α)}
    (hes : ∀ e ∈ es, e.Printable .expression ∧ ReadsExpression e) :
    ReadsOperand (.mk l (.arrayLiteral es)) := by
  intro k start ws out Q hk hloop
  have hwords : (Node.mk l (.arrayLiteral es)).wordsAt 8 =
      ofKind .leftBracket :: (Node.listed es ++ [ofKind .rightBracket]) := by
    rw [Node.wordsAt, Node.printed_mk, ← Node.separated_map_printed]
    rfl
  rw [hwords] at hk ⊢
  simp only [List.length_cons, List.length_append, List.length_nil] at hk
  have hitems : ∀ e ∈ es, ReadsItem (expression k) .rightBracket e := fun e he =>
    (hes e he).2.readsItem (hes e he).1 (by have := length_listed he; omega) (.inr rfl)
  rw [List.cons_append, List.append_assoc]
  have hprimary : Reads (primary (expression k))
      (ofKind .leftBracket :: (Node.listed es ++ ofKind .rightBracket :: ws))
      (CopiesExpression (.mk l (.arrayLiteral es))) ws := by
    refine reads_current.bind fun token htoken => ?_
    have hkind : token.kind = .leftBracket := congrArg Word.kind htoken
    simp only [hkind]
    refine reads_advance.bind fun _ _ => reads_remaining.bind ?_
    rintro _ rfl
    refine (reads_items (by decide) es hitems ?_).bind fun as has => ?_
    · have := length_le_listed es
      simp only [List.length_append, List.length_cons]
      omega
    refine reads_expect.bind fun _ _ => reads_finish.mono fun a ha => ⟨?_, by simp [Kind.isTarget]⟩
    rw [← Node.mk_label_kind a, ha, Node.bare_mk, Node.bare_mk]
    simp only [Kind.map, has]
  refine hprimary.bind fun a ha => reads_remaining.bind ?_
  rintro _ rfl
  exact hloop _ a (Nat.le_refl _) ha

theorem reads_arguments {k : Nat} {as : List (Node α)}
    (has : ∀ a ∈ as, ReadsItem (expression k) .rightParen a) :
    Reads (arguments (expression k)) (inParens (Node.listed as) ++ ws)
      (fun bs => bs.map Node.bare = as.map Node.bare) ws := by
  rw [inParens_append]
  refine reads_expect.bind fun _ _ => reads_remaining.bind ?_
  rintro _ rfl
  refine (reads_items (by decide) as has ?_).bind fun bs hbs => ?_
  · have := length_le_listed as
    simp only [List.length_append, List.length_cons]
    omega
  exact reads_expect.bind fun _ _ => .pure hbs

/-- A call goes on from what is called. -/
theorem readsOperand_call {l : α} {e : Node α} {as : List (Node α)} (he : ReadsOperand e)
    (has : ∀ a ∈ as, a.Printable .expression ∧ ReadsExpression a) :
    ReadsOperand (.mk l (.call e as)) := by
  intro k start ws out Q hk hloop
  have hwords : (Node.mk l (.call e as)).wordsAt 8 = e.wordsAt 8 ++ inParens (Node.listed as) := by
    rw [Node.wordsAt_of_le (by rw [Node.printed_mk]; exact Nat.le_refl 8), Node.words_call]
  rw [hwords] at hk ⊢
  rw [List.length_append, length_inParens] at hk
  rw [List.append_assoc]
  refine he k start _ out Q (by omega) fun r f hr hf => ?_
  obtain ⟨r, rfl⟩ : ∃ m, r = m + 1 := ⟨r - 1, by simp [inParens] at hr; omega⟩
  refine reads_current_any.bind fun token htoken => ?_
  have hkind : token.kind = .leftParen := htoken
  simp only [hkind]
  have hitems : ∀ a ∈ as, ReadsItem (expression k) .rightParen a := fun a ha =>
    (has a ha).2.readsItem (has a ha).1 (by have := length_listed ha; omega) (.inl rfl)
  refine (reads_arguments hitems).bind fun bs hbs => reads_finish.bind fun c hc => ?_
  refine hloop r c (by simp [inParens] at hr; omega) ⟨?_, by simp [Kind.isTarget]⟩
  rw [← Node.mk_label_kind c, hc, Node.bare_mk, Node.bare_mk]
  simp only [Kind.map, hf.bare, hbs]

/-- A member goes on from the value it belongs to. -/
theorem readsOperand_propertyAccess {l : α} {e : Node α} {i : Ident α} (he : ReadsOperand e) :
    ReadsOperand (.mk l (.propertyAccess e i)) := by
  intro k start ws out Q hk hloop
  have hwords : (Node.mk l (.propertyAccess e i)).wordsAt 8 =
      e.wordsAt 8 ++ [ofKind .dot, ofName i.text] := by
    rw [Node.wordsAt_of_le (by rw [Node.printed_mk]; exact Nat.le_refl 8), Node.words_propertyAccess]
  rw [hwords] at hk ⊢
  rw [List.length_append] at hk
  rw [List.append_assoc]
  refine he k start _ out Q (by omega) fun r f hr hf => ?_
  obtain ⟨r, rfl⟩ : ∃ m, r = m + 1 := ⟨r - 1, by simp at hr; omega⟩
  refine reads_current_any.bind fun token htoken => ?_
  have hkind : token.kind = .dot := htoken
  simp only [hkind]
  refine reads_advance.bind fun _ _ => reads_memberName.bind fun name hname => ?_
  refine reads_finish.bind fun c hc => hloop r c (by simp at hr; omega) ⟨?_, ?_⟩
  · rw [← Node.mk_label_kind c, hc, Node.bare_mk, Node.bare_mk]
    simp only [Kind.map, hf.bare, hname]
    rfl
  · rw [← Node.mk_label_kind c, hc]
    exact fun _ => rfl

/-! ### Operators -/

/-- The tree of an operator between two operands. -/
theorem bare_binary {l : α} {op : BinaryOperator} {a b : Node α} {c left right : Node Span}
    (hleft : left.bare = a.bare) (hright : right.bare = b.bare) (hc : c.kind = .binary op left right) :
    CopiesExpression (.mk l (.binary op a b)) c := by
  refine ⟨?_, by simp [Kind.isTarget]⟩
  rw [← Node.mk_label_kind c, hc, Node.bare_mk, Node.bare_mk]
  simp only [Kind.map, hleft, hright]

theorem readsOperators_binary {l : α} {op : BinaryOperator} {a b : Node α}
    (hop : op.isAssignment = false) (ha : ReadsOperators op.precedence a)
    (hb : ReadsOperators (op.precedence + 1) b) {level : Nat} (hlevel : level ≤ op.precedence) :
    ReadsOperators level (.mk l (.binary op a b)) := by
  intro γ k least ws out out' Q Q' next hk hleast hws hbehind hnext hloop
  have hwords : (Node.mk l (.binary op a b)).wordsAt level =
      a.wordsAt op.precedence ++ (ofKind op.token :: b.wordsAt (op.precedence + 1)) := by
    rw [Node.wordsAt_of_le (by rw [Node.printed_binary hop]; exact hlevel), Node.words,
      Node.printed_binary hop]
  have htoken : BinaryOperator.ofToken? op.token = some op :=
    (BinaryOperator.ofToken?_eq_some_iff _ _).2 ⟨rfl, hop⟩
  rw [hwords] at hk hnext ⊢
  simp only [List.length_append, List.length_cons] at hk
  rw [List.append_assoc, List.cons_append] at hnext ⊢
  refine ha γ k least _ out out' Q Q' next (by omega) (by omega) (endsOperand_token op _) ?_ hnext ?_
  · intro op' hop'
    simp only [first_cons, kind_ofKind, htoken, Option.some.injEq] at hop'
    exact hop' ▸ Nat.le_refl _
  · -- The operator holds tighter than `least`, so that its right operand is read and the loop goes on.
    intro r left hr hleft
    obtain ⟨r, rfl⟩ : ∃ m, r = m + 1 := ⟨r - 1, by simp at hr; omega⟩
    refine reads_current_any.bind fun token htok => ?_
    rw [htok, first_cons, kind_ofKind, htoken]
    simp only
    rw [if_neg (by omega)]
    refine reads_advance.bind fun _ _ => ?_
    refine hb _ k op.precedence ws ws out (CopiesExpression b) Q _ (by omega) (by omega) hws
      (fun op' hop' => (hbehind op' hop').trans (by omega)) ?_ ?_
    · intro first mid hmid hoperators
      refine (hoperators r ?_).bind fun right hright => ?_
      · simp only [List.length_cons] at hr hmid
        omega
      refine reads_finish.bind fun c hc => ?_
      refine hloop r c ?_ (bare_binary hleft.bare hright.bare hc)
      simp only [List.length_cons, List.length_append] at hr
      omega
    · intro r' right _ hright
      refine (reads_operators_stop fun op' hop' => ?_).mono fun c hc => hc ▸ hright
      exact (hbehind op' hop').trans hlevel

theorem readsExpression_assignment {l : α} {op : BinaryOperator} {a b : Node α}
    (hn : (Node.mk l (.binary op a b)).Printable .expression) (hop : op.isAssignment = true)
    (ha : ReadsOperators 1 a) (hwordsAt : a.wordsAt 1 = a.wordsAt 8) (hb : ReadsExpression b) :
    ReadsExpression (.mk l (.binary op a b)) := by
  intro k ws hk hws
  have htarget : a.kind.isTarget = true := hn.ok_kind hop
  have hopens := opens_words hn rfl hws.follows
  have htoken : BinaryOperator.assignmentOfToken? op.token = some op :=
    (BinaryOperator.assignmentOfToken?_eq_some_iff _ _).2 ⟨rfl, hop⟩
  have hnone : BinaryOperator.ofToken? op.token = none := by
    revert hop
    cases op <;> decide
  rw [Node.words, Node.printed_assignment hop, List.append_assoc, List.cons_append] at hopens ⊢
  rw [Node.words, Node.printed_assignment hop] at hk
  simp only [List.length_append, List.length_cons] at hk
  obtain ⟨k, rfl⟩ : ∃ m, k = m + 1 := ⟨k - 1, by omega⟩
  refine .get_bind fun s hs => ?_
  rw [if_neg (by simp [startsArrowFunction_of_opens hs hopens])]
  rw [← hwordsAt] at hk ⊢
  refine ha _ k 0 (ofKind op.token :: (b.words ++ ws)) (ofKind op.token :: (b.words ++ ws)) ws
    (CopiesExpression a) _ _ (by omega) (by decide) (endsOperand_token op _) (by simp [hnone]) ?_ ?_
  · intro first mid _ hoperators
    refine reads_remaining.bind ?_
    rintro _ rfl
    refine (hoperators _ (Nat.le_refl _)).bind fun left hleft => ?_
    refine reads_current_any.bind fun token htok => ?_
    rw [htok, first_cons, kind_ofKind, htoken]
    simp only [hleft.target htarget, Bool.not_true, Bool.false_eq_true, if_false]
    refine reads_advance.bind fun _ _ => (hb k ws (by omega) hws).bind fun right hright => ?_
    exact reads_finish.mono fun c hc => bare_binary hleft.bare hright.bare hc
  · intro r left _ hleft
    exact (reads_operators_stop (by simp [hnone])).mono fun c hc => hc ▸ hleft

/-- An operator in front goes with all operators behind it. -/
theorem readsUnary_prefixUnary {l : α} {op : PrefixOperator} {e : Node α} (he : ReadsUnary e) :
    ReadsUnary (.mk l (.prefixUnary op e)) := by
  intro k r ws hk hr hws
  have hwords : (Node.mk l (.prefixUnary op e)).wordsAt 7 = ofKind op.token :: e.wordsAt 7 := by
    rw [Node.wordsAt_of_le (by rw [Node.printed_mk]; exact Nat.le_refl 7), Node.words_prefixUnary]
  have htoken : PrefixOperator.ofToken? op.token = some op := by cases op <;> rfl
  rw [hwords] at hk hr ⊢
  rw [List.length_cons] at hk hr
  obtain ⟨r, rfl⟩ : ∃ m, r = m + 1 := ⟨r - 1, by omega⟩
  refine reads_current_any.bind fun token htok => ?_
  rw [htok, List.cons_append, first_cons, kind_ofKind, htoken]
  refine reads_advance.bind fun _ _ => (he k r ws (by omega) (by omega) hws).bind fun a ha => ?_
  refine reads_finish.mono fun c hc => ⟨?_, by simp [Kind.isTarget]⟩
  rw [← Node.mk_label_kind c, hc, Node.bare_mk, Node.bare_mk]
  simp only [Kind.map, ha.bare]

/-! ### At every place -/

/-- The expression is read back wherever it stands. -/
structure ReadsEverywhere (n : Node α) : Prop where
  whole : ReadsExpression n
  operand : ReadsOperand n
  unary : ReadsUnary n
  operators {level : Nat} : 1 ≤ level → level ≤ 7 → ReadsOperators level n

theorem Node.wordsAt_eq_of_le {n : Node α} {level level' : Nat} (h : level ≤ n.printed.level)
    (h' : level' ≤ n.printed.level) : n.wordsAt level = n.wordsAt level' := by
  rw [Node.wordsAt_of_le h, Node.wordsAt_of_le h']

theorem Node.wordsAt_eq_of_lt {n : Node α} {level level' : Nat} (h : n.printed.level < level)
    (h' : n.printed.level < level') : n.wordsAt level = n.wordsAt level' := by
  rw [Node.wordsAt_of_lt h, Node.wordsAt_of_lt h']

theorem ReadsOperand.everywhere (h : ReadsOperand n) (hn : n.Printable .expression)
    (hlevel : 8 ≤ n.printed.level) (harrow : n.kind.isArrowFunction = false) : ReadsEverywhere n := by
  have hunary := h.readsUnary hn (Node.wordsAt_eq_of_le (by omega) hlevel)
  have hoperators : ∀ level, level ≤ 7 → ReadsOperators level n := fun _ hle =>
    hunary.readsOperators (Node.wordsAt_eq_of_le (by omega) (by omega))
  have hwhole := (hoperators 1 (by decide)).readsExpression hn (Node.wordsAt_of_le (by omega)) harrow
  exact ⟨hwhole, h, hunary, fun _ hle => hoperators _ hle⟩

theorem ReadsUnary.everywhere (h : ReadsUnary n) (hn : n.Printable .expression)
    (hlevel : n.printed.level = 7) (harrow : n.kind.isArrowFunction = false)
    (htarget : n.kind.isTarget = false) : ReadsEverywhere n := by
  have hoperators : ∀ level, level ≤ 7 → ReadsOperators level n := fun _ hle =>
    h.readsOperators (Node.wordsAt_eq_of_le (by omega) (by omega))
  have hwhole := (hoperators 1 (by decide)).readsExpression hn (Node.wordsAt_of_le (by omega)) harrow
  exact ⟨hwhole, hwhole.readsOperand (by omega) htarget, h, fun _ hle => hoperators _ hle⟩

/-- What stands in parentheses wherever operators are read. -/
theorem ReadsExpression.everywhere (h : ReadsExpression n) (hn : n.Printable .expression)
    (hlevel : n.printed.level ≤ 6) (htarget : n.kind.isTarget = false)
    (hoperators : ∀ level, 1 ≤ level → level ≤ n.printed.level → ReadsOperators level n) :
    ReadsEverywhere n := by
  have hoperand := h.readsOperand (by omega) htarget
  have hunary := hoperand.readsUnary hn (Node.wordsAt_eq_of_lt (by omega) (by omega))
  refine ⟨h, hoperand, hunary, fun {level} hone _ => ?_⟩
  by_cases hle : level ≤ n.printed.level
  · exact hoperators level hone hle
  · exact hunary.readsOperators (Node.wordsAt_eq_of_lt (by omega) (by omega))

theorem readsEverywhere_binary {l : α} {op : BinaryOperator} {a b : Node α}
    (hn : (Node.mk l (.binary op a b)).Printable .expression) (ha : ReadsEverywhere a)
    (hb : ReadsEverywhere b) : ReadsEverywhere (.mk l (.binary op a b)) := by
  cases hop : op.isAssignment with
  | true =>
    have hlevel : (Node.mk l (.binary op a b)).printed.level = 0 := by rw [Node.printed_assignment hop]
    have htarget : 8 ≤ a.printed.level := by
      have hkind : a.kind.isTarget = true := hn.ok_kind hop
      obtain ⟨l', k⟩ := a
      cases k <;> simp only [Node.kind_mk, Kind.isTarget, Bool.false_eq_true] at hkind
      all_goals
        rw [Node.printed_mk]
        exact Nat.le_refl 8
    have hwhole := readsExpression_assignment hn hop (ha.operators (by decide) (by decide))
      (Node.wordsAt_eq_of_le (by omega) htarget) hb.whole
    exact hwhole.everywhere hn (by omega) rfl fun level hone hle => absurd hle (by omega)
  | false =>
    have hlevel : (Node.mk l (.binary op a b)).printed.level = op.precedence := by
      rw [Node.printed_binary hop]
    have hone := op.one_le_precedence hop
    have hsix := op.precedence_le
    have hoperators : ∀ level, level ≤ op.precedence → ReadsOperators level (.mk l (.binary op a b)) :=
      fun level hle => readsOperators_binary hop (ha.operators hone (by omega))
        (hb.operators (by omega) (by omega)) hle
    have hwhole := (hoperators 1 hone).readsExpression hn (Node.wordsAt_of_le (by omega)) rfl
    exact hwhole.everywhere hn (by omega) rfl fun level _ hle => hoperators level (by omega)

end ScriptAnalysis.Syntax.Parser

import ScriptAnalysis.Proofs.Syntax.Reading

/-!
# How written expressions open

What an expression is read as depends on how it opens: a name in front of an arrow, or parentheses in front
of an arrow or a colon, open a function without a name, and the word `type` in front of a name opens no
expression. `opens_wordsAt` says that a written expression opens as none of these unless it is a function
itself; it needs that parentheses in written trees come in pairs.
-/

namespace ScriptAnalysis

namespace Word

/-- Parentheses come in pairs. -/
inductive Balanced : List Word → Prop where
  /-- No words. -/
  | nil : Balanced []
  /-- A word that is no parenthesis. -/
  | cons {w : Word} {ws : List Word} : w.kind ≠ .leftParen → w.kind ≠ .rightParen → Balanced ws →
    Balanced (w :: ws)
  /-- Words in parentheses. -/
  | parens {inner ws : List Word} : Balanced inner → Balanced ws → Balanced (inParens inner ++ ws)

theorem Balanced.append {a b : List Word} (ha : Balanced a) (hb : Balanced b) : Balanced (a ++ b) := by
  induction ha with
  | nil => exact hb
  | cons hl hr _ ih => exact .cons hl hr ih
  | parens hinner _ _ ih =>
    rw [List.append_assoc]
    exact .parens hinner ih

/-- How an expression opens that is no function without a name. -/
inductive Opens : List Word → Prop where
  /-- A name with no name and no arrow behind it. -/
  | name {w : Word} {ws : List Word} : w.kind = .identifier → first ws ≠ .identifier →
    first ws ≠ .arrow → Opens (w :: ws)
  /-- Parentheses with no arrow and no colon behind them. -/
  | parens {inner ws : List Word} : Balanced inner → first ws ≠ .arrow → first ws ≠ .colon →
    Opens (inParens inner ++ ws)
  /-- Any other word that starts an expression. -/
  | word {w : Word} {ws : List Word} : Syntax.Parser.startsExpression w.kind = true →
    w.kind ≠ .identifier → w.kind ≠ .leftParen → Opens (w :: ws)

theorem Opens.startsExpression {ws : List Word} (h : Opens ws) :
    Syntax.Parser.startsExpression (first ws) = true := by
  cases h with
  | name hw => rw [first_cons, hw]; rfl
  | parens => rfl
  | word hw => exact hw

end Word

namespace Syntax

open Word

theorem kind_ofName_ne (name : String) {kind : TokenKind} (hname : kind ≠ .identifier)
    (hword : kind.isReservedWord = false) : (Word.ofName name).kind ≠ kind := by
  rintro rfl
  rcases Parser.kind_ofName_eq name with h | h
  · exact hname h
  · simp [h] at hword

theorem closed_balanced : Closed Balanced where
  nil := .nil
  append := Balanced.append
  parens hws := by simpa using Balanced.parens hws .nil
  kind hk := by
    simp only [isPlain, Bool.and_eq_true, bne_iff_ne] at hk
    exact .cons hk.1.2 hk.2 .nil
  name {text} _ := .cons (kind_ofName_ne text (by decide) (by decide))
    (kind_ofName_ne text (by decide) (by decide)) .nil
  numeral _ := .cons TokenKind.noConfusion TokenKind.noConfusion .nil
  string _ := .cons TokenKind.noConfusion TokenKind.noConfusion .nil

namespace Parser

variable {α : Type} {ws after : List Word}

/-! ### Looking for an arrow -/

open State (closesBeforeArrow)

variable {t : Token} {tokens : List Token}

theorem closesBeforeArrow_leftParen (h : t.kind = .leftParen) (depth : Nat) :
    closesBeforeArrow depth (t :: tokens) = closesBeforeArrow (depth + 1) tokens := by
  simp [closesBeforeArrow, h]

theorem closesBeforeArrow_rightParen (h : t.kind = .rightParen) (depth : Nat) :
    closesBeforeArrow (depth + 2) (t :: tokens) = closesBeforeArrow (depth + 1) tokens := by
  simp [closesBeforeArrow, h]

theorem closesBeforeArrow_of_ne (hl : t.kind ≠ .leftParen) (hr : t.kind ≠ .rightParen) (depth : Nat) :
    closesBeforeArrow depth (t :: tokens) = closesBeforeArrow depth tokens := by
  simp [closesBeforeArrow, hr]

/-- Behind the last parenthesis the next word decides. -/
theorem closesBeforeArrow_one (h : t.kind = .rightParen) :
    closesBeforeArrow 1 (t :: tokens) =
      (first (tokens.map Token.word) == .arrow || first (tokens.map Token.word) == .colon) := by
  cases tokens <;> simp [closesBeforeArrow, h]

/-- Balanced words inside open parentheses leave as many open. -/
theorem closesBeforeArrow_append (h : Balanced ws) {rest : List Token}
    (htokens : tokens.map Token.word = ws) (depth : Nat) :
    closesBeforeArrow (depth + 1) (tokens ++ rest) = closesBeforeArrow (depth + 1) rest := by
  induction h generalizing tokens rest depth with
  | nil =>
    obtain rfl : tokens = [] := by simpa using htokens
    rfl
  | @cons w ws hl hr _ ih =>
    obtain ⟨t, tokens', rfl, rfl, hmap⟩ := List.map_eq_cons_iff.1 htokens
    rw [List.cons_append, closesBeforeArrow_of_ne hl hr, ih hmap]
  | @parens inner ws _ _ ih ih' =>
    rw [inParens_append] at htokens
    obtain ⟨l, tokens', rfl, hl, hmap⟩ := List.map_eq_cons_iff.1 htokens
    obtain ⟨inside, tokens'', rfl, hinside, hmap'⟩ := List.map_eq_append_iff.1 hmap
    obtain ⟨r, behind, rfl, hr, hbehind⟩ := List.map_eq_cons_iff.1 hmap'
    rw [List.cons_append, closesBeforeArrow_leftParen (congrArg Word.kind hl), List.append_assoc,
      List.cons_append, ih hinside, closesBeforeArrow_rightParen (congrArg Word.kind hr), ih' hbehind]

/-- Words in parentheses open a function exactly when an arrow or a colon stands behind them. -/
theorem startsArrowFunction_parens {s : State} (h : s.Shows (inParens ws ++ after))
    (hws : Balanced ws) :
    s.startsArrowFunction = (first after == .arrow || first after == .colon) := by
  have hcurrent : s.current.kind = .leftParen := h.kind_current
  have htokens := h.words
  rw [inParens_append] at htokens
  obtain ⟨l, tokens', hrest, hl, hmap⟩ := List.map_eq_cons_iff.1 htokens
  obtain ⟨inside, tokens'', rfl, hinside, hmap'⟩ := List.map_eq_append_iff.1 hmap
  obtain ⟨r, behind, rfl, hr, rfl⟩ := List.map_eq_cons_iff.1 hmap'
  rw [State.startsArrowFunction, hcurrent, ← closesBeforeArrow_one (congrArg Word.kind hr), hrest]
  simp only
  rw [closesBeforeArrow_leftParen (congrArg Word.kind hl), closesBeforeArrow_append hws hinside]

theorem startsArrowFunction_of_opens {s : State} (h : s.Shows ws) (hws : Opens ws) :
    s.startsArrowFunction = false := by
  cases hws with
  | name hw _ harrow =>
    have hcurrent : s.current.kind = .identifier := h.kind_current.trans hw
    have hnext := h.kind_peek_one
    rw [State.startsArrowFunction, hcurrent]
    simpa [hnext] using harrow
  | parens hinner harrow hcolon =>
    rw [startsArrowFunction_parens h hinner]
    simp [harrow, hcolon]
  | word _ hname hparen =>
    have hcurrent := h.kind_current
    rw [first_cons] at hcurrent
    rw [State.startsArrowFunction]
    split <;> simp_all

theorem startsTypeAlias_of_opens {s : State} (h : s.Shows ws) (hws : Opens ws) :
    s.startsTypeAlias = false := by
  have hcurrent := h.kind_current
  cases hws with
  | name hw hname _ =>
    have hnext := h.kind_peek_one
    simp only [List.tail_cons] at hnext
    simp [State.startsTypeAlias, hnext, hname]
  | parens =>
    have : s.current.kind = .leftParen := hcurrent
    simp [State.startsTypeAlias, this]
  | word _ hname _ =>
    rw [first_cons] at hcurrent
    simp [State.startsTypeAlias, hcurrent, hname]

end Parser

/-! ### Written expressions -/

/-- Whether the node is a function without a name. -/
def Kind.isArrowFunction {ν β : Type} : Kind ν β → Bool
  | arrowFunction .. => true
  | _ => false

/-- What stands behind an expression is no name, no arrow and no colon. -/
structure Follows (ws : List Word) : Prop where
  name : first ws ≠ .identifier
  arrow : first ws ≠ .arrow
  colon : first ws ≠ .colon

theorem follows_ofKind {kind : TokenKind} {ws : List Word}
    (h : kind ≠ .identifier ∧ kind ≠ .arrow ∧ kind ≠ .colon) : Follows (ofKind kind :: ws) :=
  ⟨h.1, h.2.1, h.2.2⟩

theorem follows_token_binaryOperator (op : BinaryOperator) (ws : List Word) :
    Follows (ofKind op.token :: ws) :=
  follows_ofKind (by cases op <;> decide)

/-- A written expression opens as no function without a name, unless it is one without parentheses. -/
theorem opens_wordsAt {α : Type} {role : Role} {n : Node α} (h : n.Printable role)
    (hrole : role = .expression) {level : Nat} (hlevel : n.kind.isArrowFunction = true → 1 ≤ level)
    {ws : List Word} (hws : Follows ws) : Opens (n.wordsAt level ++ ws) := by
  induction h generalizing level ws with
  | @mk role l k fits ok parts ih =>
    have hprintable : (Node.mk l k).Printable role := .mk l fits ok parts
    subst hrole
    by_cases hless : (Node.mk l k).printed.level < level
    · rw [Node.wordsAt, Printed.atLeast_of_lt hless]
      exact .parens (closed_balanced.words hprintable) hws.arrow hws.colon
    rw [Node.wordsAt_of_le (Nat.le_of_not_lt hless)]
    have hkind : ∀ {kind : TokenKind} {ws : List Word}, Parser.startsExpression kind = true →
        kind ≠ .identifier → kind ≠ .leftParen → Opens (Word.ofKind kind :: ws) := fun a b c => .word a b c
    cases k <;> simp only [Kind.fits, Kind.isExpression, Bool.false_eq_true] at fits
    case identifier text => exact .name (Parser.kind_ofName ok) hws.name hws.arrow
    case numericLiteral => exact .word rfl TokenKind.noConfusion TokenKind.noConfusion
    case stringLiteral => exact .word rfl TokenKind.noConfusion TokenKind.noConfusion
    case trueLiteral => exact hkind rfl (by decide) (by decide)
    case falseLiteral => exact hkind rfl (by decide) (by decide)
    case nullLiteral => exact hkind rfl (by decide) (by decide)
    case arrayLiteral => exact hkind rfl (by decide) (by decide)
    case parenthesized => exact ok.elim
    case arrowFunction => exact absurd (hlevel rfl) (Nat.not_le.2 (Nat.lt_of_not_le hless))
    case call e as =>
      have he := @ih (.expression, e) (by simp [Kind.parts]) rfl 8 (by simp)
      rw [Node.words_call, List.append_assoc, inParens_append]
      exact he (follows_ofKind (by decide))
    case propertyAccess e i =>
      have he := @ih (.expression, e) (by simp [Kind.parts]) rfl 8 (by simp)
      rw [Node.words_propertyAccess, List.append_assoc]
      exact he (follows_ofKind (by decide))
    case prefixUnary op e =>
      rw [Node.words_prefixUnary]
      exact hkind (by cases op <;> rfl) (by cases op <;> decide) (by cases op <;> decide)
    case binary op a b =>
      have ha : ∀ {level : Nat}, 1 ≤ level → ∀ ws, Opens (a.wordsAt level ++ Word.ofKind op.token :: ws) :=
        fun hlevel ws => @ih (.expression, a) (by simp [Kind.parts]) rfl _ (fun _ => hlevel) _
          (follows_token_binaryOperator op ws)
      cases hop : op.isAssignment with
      | true =>
        rw [Node.words, Node.printed_assignment hop, List.append_assoc]
        exact ha (by decide) _
      | false =>
        rw [Node.words, Node.printed_binary hop, List.append_assoc]
        exact ha (op.one_le_precedence hop) _

variable {α : Type} {role : Role} {n : Node α}

theorem opens_words (h : n.Printable .expression) (harrow : n.kind.isArrowFunction = false)
    {ws : List Word} (hws : Follows ws) : Opens (n.words ++ ws) := by
  have hopens : Opens (n.wordsAt 0 ++ ws) := opens_wordsAt h rfl (by simp [harrow]) hws
  rwa [Node.wordsAt_zero] at hopens

/-- The first word of an expression does not depend on what stands behind it. -/
theorem first_append {ws : List Word} (h : ws ≠ []) (after : List Word) :
    first (ws ++ after) = first ws := by
  cases ws with
  | nil => exact absurd rfl h
  | cons w ws => rfl

theorem wordsAt_ne_nil (h : n.Printable role) (hrole : role ≠ .file) (level : Nat) :
    n.wordsAt level ≠ [] := by
  by_cases hless : n.printed.level < level
  · simp [Node.wordsAt_of_lt hless, inParens]
  · rw [Node.wordsAt_of_le (Nat.le_of_not_lt hless)]
    exact Node.words_ne_nil h hrole

theorem startsExpression_first (h : n.Printable .expression) (level : Nat) (ws : List Word) :
    Parser.startsExpression (first (n.wordsAt level ++ ws)) = true := by
  have hne := wordsAt_ne_nil h (by decide) level
  by_cases harrow : n.kind.isArrowFunction = true → 1 ≤ level
  · have hfollows : Follows [Word.ofKind .comma] := follows_ofKind (by decide)
    have := (opens_wordsAt h rfl harrow hfollows).startsExpression
    rwa [first_append hne] at this ⊢
  · simp only [Classical.not_imp, Nat.not_le, Nat.lt_one_iff] at harrow
    obtain ⟨harrow, rfl⟩ := harrow
    obtain ⟨l, k⟩ := n
    cases k <;> simp only [Node.kind_mk, Kind.isArrowFunction, Bool.false_eq_true] at harrow
    rw [Node.wordsAt_zero, Node.words_arrowFunction, List.append_assoc, inParens_append]
    rfl

/-- Without parentheses only an expression with an operator in front of it opens with one. -/
theorem prefixOperator_first (h : n.Printable role) (hrole : role = .expression) (ws : List Word) :
    PrefixOperator.ofToken? (first (n.wordsAt 8 ++ ws)) = none := by
  induction h generalizing ws with
  | @mk role l k fits ok parts ih =>
    subst hrole
    by_cases hless : (Node.mk l k).printed.level < 8
    · rw [Node.wordsAt_of_lt hless, inParens_append]
      rfl
    have hle := Nat.le_of_not_lt hless
    rw [Node.wordsAt_of_le hle]
    cases k <;> simp only [Kind.fits, Kind.isExpression, Bool.false_eq_true] at fits
    case identifier text =>
      show PrefixOperator.ofToken? (Word.ofName text).kind = none
      rw [Parser.kind_ofName ok]
      rfl
    case numericLiteral => rfl
    case stringLiteral => rfl
    case trueLiteral => rfl
    case falseLiteral => rfl
    case nullLiteral => rfl
    case arrayLiteral => rfl
    case parenthesized => exact ok.elim
    case arrowFunction => exact absurd hle (by rw [Node.printed_mk]; simp [Kind.map, Printed.ofKind])
    case call e as =>
      rw [Node.words_call, List.append_assoc]
      exact ih (.expression, e) (by simp [Kind.parts]) rfl _
    case propertyAccess e i =>
      rw [Node.words_propertyAccess, List.append_assoc]
      exact ih (.expression, e) (by simp [Kind.parts]) rfl _
    case prefixUnary => exact absurd hle (by rw [Node.printed_mk]; simp [Kind.map, Printed.ofKind])
    case binary op a b =>
      cases hop : op.isAssignment with
      | true => simp [Node.printed_assignment hop] at hless
      | false =>
        rw [Node.printed_binary hop] at hle
        exact absurd (hle.trans op.precedence_le) (by decide)

end Syntax

end ScriptAnalysis

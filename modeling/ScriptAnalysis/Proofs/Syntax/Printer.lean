import ScriptAnalysis.Proofs.Syntax.Bare
import ScriptAnalysis.Proofs.Syntax.Grammar
import ScriptAnalysis.Proofs.Token.Spelling

/-!
# Writing trees as words

`Node.printed` writes a tree as words and says how tightly they hold together. A part that holds less
tightly than its place needs stands in parentheses, and no other part does. Expressions hold as their
operators do, from 0 for assignments and functions without a name, through 1 to 6 for the operators
between operands, to 7 for an operator in front and 8 for everything else; types hold 0 as unions, 1 as
lists and 2 as names.

`Kind.IsPrintable` says which trees can be written; `Closed.words` carries a property of lists of words to
the words of every such tree.
-/

namespace ScriptAnalysis

namespace Word

/-! ### Lists of words -/

/-- The words in parentheses. -/
def inParens (ws : List Word) : List Word := ofKind .leftParen :: (ws ++ [ofKind .rightParen])

/-- The lists of words with a word between them. -/
def separated (kind : TokenKind) : List (List Word) → List Word
  | [] => []
  | [ws] => ws
  | ws :: ws' :: rest => ws ++ ofKind kind :: separated kind (ws' :: rest)

@[simp] theorem inParens_append (ws after : List Word) :
    inParens ws ++ after = ofKind .leftParen :: (ws ++ ofKind .rightParen :: after) := by
  simp [inParens]

end Word

namespace Syntax

open Word

/-- The word that declares variables. -/
def VariableKind.token : VariableKind → TokenKind
  | .var => .varWord
  | .letKind => .letWord
  | .const => .constWord

theorem BinaryOperator.precedence_le (op : BinaryOperator) : op.precedence ≤ 6 := by
  cases op <;> decide

theorem BinaryOperator.one_le_precedence (op : BinaryOperator) (h : op.isAssignment = false) :
    1 ≤ op.precedence := by
  revert h
  cases op <;> decide

/-- Written words, and how tightly they hold together. -/
structure Printed where
  /-- How tightly the words hold together. -/
  level : Nat
  /-- The words. -/
  words : List Word

namespace Printed

/-- A name. -/
def ofName (text : String) : Printed := ⟨8, [Word.ofName text]⟩

/-- The words, in parentheses unless they hold together at least so tightly. -/
def atLeast (p : Printed) (level : Nat) : List Word :=
  if p.level < level then inParens p.words else p.words

/-- A word and what follows it, or nothing. -/
def led (kind : TokenKind) : Option Printed → List Word
  | none => []
  | some p => ofKind kind :: p.words

/-- The words of a node from what is written for its children. -/
def ofKind : Kind Printed Printed → Printed
  | .sourceFile ss => ⟨0, ss.flatMap words⟩
  | .variableStatement k ds =>
    ⟨0, Word.ofKind k.token :: (separated .comma (ds.map words) ++ [Word.ofKind .semicolon])⟩
  | .variableDeclaration n t i | .parameter n t i => ⟨0, n.words ++ (led .colon t ++ led .equals i)⟩
  | .functionDeclaration n ps t b =>
    ⟨0, Word.ofKind .functionWord ::
      (n.words ++ (inParens (separated .comma (ps.map words)) ++ (led .colon t ++ b.words)))⟩
  | .typeAlias n t =>
    ⟨0, Word.ofName "type" ::
      (n.words ++ (Word.ofKind .equals :: (t.words ++ [Word.ofKind .semicolon])))⟩
  | .block ss => ⟨0, Word.ofKind .leftBrace :: (ss.flatMap words ++ [Word.ofKind .rightBrace])⟩
  | .expressionStatement e => ⟨0, e.words ++ [Word.ofKind .semicolon]⟩
  | .returnStatement e =>
    ⟨0, Word.ofKind .returnWord :: ((e.elim [] words) ++ [Word.ofKind .semicolon])⟩
  | .ifStatement c t e =>
    ⟨0, Word.ofKind .ifWord :: (inParens c.words ++ (t.words ++ led .elseWord e))⟩
  | .whileStatement c b => ⟨0, Word.ofKind .whileWord :: (inParens c.words ++ b.words)⟩
  | .emptyStatement => ⟨0, [Word.ofKind .semicolon]⟩
  | .identifier s => .ofName s
  | .numericLiteral s => ⟨8, [⟨.numericLiteral, s⟩]⟩
  | .stringLiteral s => ⟨8, [Word.ofString s]⟩
  | .trueLiteral => ⟨8, [Word.ofKind .trueWord]⟩
  | .falseLiteral => ⟨8, [Word.ofKind .falseWord]⟩
  | .nullLiteral => ⟨8, [Word.ofKind .nullWord]⟩
  | .arrayLiteral es =>
    ⟨8, Word.ofKind .leftBracket :: (separated .comma (es.map words) ++ [Word.ofKind .rightBracket])⟩
  | .parenthesized e => ⟨8, inParens e.words⟩
  | .arrowFunction ps t b =>
    ⟨0, inParens (separated .comma (ps.map words)) ++
      (led .colon t ++ (Word.ofKind .arrow :: b.words))⟩
  | .call e as => ⟨8, e.atLeast 8 ++ inParens (separated .comma (as.map words))⟩
  | .propertyAccess e n => ⟨8, e.atLeast 8 ++ (Word.ofKind .dot :: n.words)⟩
  | .prefixUnary o e => ⟨7, Word.ofKind o.token :: e.atLeast 7⟩
  | .binary o l r =>
    if o.isAssignment then ⟨0, l.atLeast 8 ++ (Word.ofKind o.token :: r.words)⟩
    else ⟨o.precedence, l.atLeast o.precedence ++ (Word.ofKind o.token :: r.atLeast (o.precedence + 1))⟩
  | .keywordType k => ⟨2, [Word.ofName k.spelling]⟩
  | .typeReference n => ⟨2, n.words⟩
  | .arrayType e =>
    ⟨1, e.atLeast 1 ++ [Word.ofKind .leftBracket, Word.ofKind .rightBracket]⟩
  | .unionType ts => ⟨0, separated .bar (ts.map (·.atLeast 1))⟩

theorem atLeast_of_le {p : Printed} {level : Nat} (h : level ≤ p.level) : p.atLeast level = p.words :=
  if_neg (by omega)

theorem atLeast_of_lt {p : Printed} {level : Nat} (h : p.level < level) :
    p.atLeast level = inParens p.words :=
  if_pos h

@[simp] theorem atLeast_zero (p : Printed) : p.atLeast 0 = p.words := atLeast_of_le (Nat.zero_le _)

end Printed

namespace Node

variable {α : Type}

/-- What is written for a tree. -/
def printed (n : Node α) : Printed := n.fold fun _ => Printed.ofKind

/-- The words of a tree. -/
def words (n : Node α) : List Word := n.printed.words

/-- The words of a tree where they have to hold together at least so tightly. -/
def wordsAt (level : Nat) (n : Node α) : List Word := n.printed.atLeast level

theorem printed_mk (l : α) (k : Kind (Ident α) (Node α)) :
    (mk l k).printed = .ofKind (k.map (fun i => .ofName i.text) printed) := by
  rw [printed, fold_mk]
  rfl

theorem wordsAt_of_le {level : Nat} {n : Node α} (h : level ≤ n.printed.level) :
    n.wordsAt level = n.words :=
  Printed.atLeast_of_le h

theorem wordsAt_of_lt {level : Nat} {n : Node α} (h : n.printed.level < level) :
    n.wordsAt level = inParens n.words :=
  Printed.atLeast_of_lt h

@[simp] theorem wordsAt_zero (n : Node α) : n.wordsAt 0 = n.words := Printed.atLeast_zero _

/-- The words of several nodes with commas between them. -/
def listed (ns : List (Node α)) : List Word := separated .comma (ns.map words)

theorem separated_map_printed (ns : List (Node α)) :
    separated .comma ((ns.map printed).map Printed.words) = listed ns := by
  rw [List.map_map]
  rfl

theorem words_arrowFunction (l : α) (ps : List (Node α)) (t? : Option (Node α)) (b : Node α) :
    (mk l (.arrowFunction ps t? b)).words =
      inParens (listed ps) ++ (Printed.led .colon (t?.map printed) ++ (ofKind .arrow :: b.words)) := by
  rw [words, printed_mk, ← separated_map_printed]
  rfl

theorem words_call (l : α) (e : Node α) (as : List (Node α)) :
    (mk l (.call e as)).words = e.wordsAt 8 ++ inParens (listed as) := by
  rw [words, printed_mk, ← separated_map_printed]
  rfl

theorem words_propertyAccess (l : α) (e : Node α) (i : Ident α) :
    (mk l (.propertyAccess e i)).words = e.wordsAt 8 ++ [ofKind .dot, ofName i.text] := by
  rw [words, printed_mk]
  rfl

theorem words_prefixUnary (l : α) (op : PrefixOperator) (e : Node α) :
    (mk l (.prefixUnary op e)).words = ofKind op.token :: e.wordsAt 7 := by
  rw [words, printed_mk]
  rfl

theorem printed_assignment {l : α} {op : BinaryOperator} (hop : op.isAssignment = true)
    (a b : Node α) :
    (mk l (.binary op a b)).printed = ⟨0, a.wordsAt 8 ++ (ofKind op.token :: b.words)⟩ := by
  rw [printed_mk]
  exact if_pos hop

theorem printed_binary {l : α} {op : BinaryOperator} (hop : op.isAssignment = false) (a b : Node α) :
    (mk l (.binary op a b)).printed = ⟨op.precedence,
      a.wordsAt op.precedence ++ (ofKind op.token :: b.wordsAt (op.precedence + 1))⟩ := by
  rw [printed_mk]
  exact if_neg (by simp [hop])

end Node

/-! ### Trees that can be written -/

/-- The name is spelled as names are, and no reserved word has its spelling. -/
def IsIdentifier (text : String) : Prop :=
  IsName text ∧ TokenKind.reservedWord? text.toList = none

namespace Kind

variable {α : Type}

/-- Whether a value can be assigned to the node. -/
def isTarget {ν β : Type} : Kind ν β → Bool
  | identifier _ | propertyAccess .. => true
  | _ => false

/-- Whether the node declares a variable with a value. -/
def hasValue {ν β : Type} : Kind ν β → Bool
  | variableDeclaration _ _ init? => init?.isSome
  | _ => false

/-- What has to hold of a node that is written: names and numbers are spelled as such, there are no
parentheses, constants have values, assignments have targets, unions have several members, names of types
are not the names of built-in types, and what stands before an `else` is a block. -/
def IsPrintable : Kind (Ident α) (Node α) → Prop
  | variableStatement keyword ds =>
    ds ≠ [] ∧ (keyword = .const → ∀ d ∈ ds, d.kind.hasValue = true)
  | variableDeclaration n _ _ | functionDeclaration n _ _ _ | parameter n _ _ | typeAlias n _ =>
    IsIdentifier n.text
  | ifStatement _ t e? => e?.isSome = true → t.kind.isBlock = true
  | identifier text => IsIdentifier text
  | numericLiteral text => IsNumeral text
  | parenthesized _ => False
  | propertyAccess _ n => IsName n.text
  | binary op l _ => op.isAssignment = true → l.kind.isTarget = true
  | typeReference n => IsIdentifier n.text ∧ KeywordType.ofName? n.text = none
  | unionType ts => 2 ≤ ts.length
  | _ => True

end Kind

/-- The tree can be written in a role. -/
abbrev Node.Printable {α : Type} (role : Role) (n : Node α) : Prop :=
  n.Grammatical Kind.IsPrintable role

/-- Only a file can be written without words. -/
theorem Node.words_ne_nil {α : Type} {role : Role} {n : Node α} (h : n.Printable role)
    (hrole : role ≠ .file) : n.words ≠ [] := by
  cases h with
  | @mk _ l k fits ok parts =>
    rw [Node.words, Node.printed_mk]
    clear parts
    cases k <;> simp [Kind.map, Printed.ofKind, Printed.ofName, inParens]
    case sourceFile =>
      cases role <;> simp_all [Kind.fits, Kind.isStatement, Kind.isBlock, Kind.isExpression, Kind.isType]
    case binary => split <;> simp
    case unionType ts =>
      obtain ⟨t, rest, rfl⟩ := List.exists_cons_of_length_pos (Nat.lt_of_lt_of_le Nat.zero_lt_two ok)
      obtain ⟨t', rest, rfl⟩ := List.exists_cons_of_length_pos (Nat.lt_of_succ_le (Nat.le_of_succ_le_succ ok))
      simp [separated]

/-! ### Properties of the words of a tree -/

/-- The kind has one spelling and is no parenthesis. -/
def isPlain (kind : TokenKind) : Bool :=
  kind.spelling?.isSome && kind != .leftParen && kind != .rightParen

theorem isPlain_token_variableKind (keyword : VariableKind) : isPlain keyword.token = true := by
  cases keyword <;> rfl

theorem isPlain_token_binaryOperator (op : BinaryOperator) : isPlain op.token = true := by
  cases op <;> rfl

theorem isPlain_token_prefixOperator (op : PrefixOperator) : isPlain op.token = true := by
  cases op <;> rfl

theorem isName_spelling_keywordType (keyword : KeywordType) : IsName keyword.spelling := by
  cases keyword <;> exact ⟨_, _, rfl, by decide, by decide⟩

/-- A property of lists of words that the words of every tree have. -/
structure Closed (P : List Word → Prop) : Prop where
  nil : P []
  append {a b : List Word} : P a → P b → P (a ++ b)
  parens {ws : List Word} : P ws → P (inParens ws)
  kind {kind : TokenKind} : isPlain kind = true → P [ofKind kind]
  name {text : String} : IsName text → P [ofName text]
  numeral {text : String} : IsNumeral text → P [⟨.numericLiteral, text⟩]
  string (s : String) : P [ofString s]

namespace Closed

variable {P : List Word → Prop} (h : Closed P)

include h

theorem cons {kind : TokenKind} {ws : List Word} (hk : isPlain kind = true) (hws : P ws) :
    P (ofKind kind :: ws) :=
  h.append (h.kind hk) hws

theorem separated {kind : TokenKind} (hk : isPlain kind = true) {lists : List (List Word)}
    (hlists : ∀ ws ∈ lists, P ws) : P (separated kind lists) := by
  induction lists with
  | nil => exact h.nil
  | cons ws rest ih =>
    have hws := hlists ws (List.mem_cons_self ..)
    have hrest := ih fun ws' hws' => hlists ws' (List.mem_cons_of_mem ws hws')
    cases rest with
    | nil => exact hws
    | cons ws' rest => exact h.append hws (h.cons hk hrest)

theorem atLeast {p : Printed} (hp : P p.words) (level : Nat) : P (p.atLeast level) := by
  unfold Printed.atLeast
  split
  · exact h.parens hp
  · exact hp

variable {α : Type}

theorem statements {ns : List (Node α)} (hns : ∀ n ∈ ns, P n.words) :
    P ((ns.map Node.printed).flatMap Printed.words) := by
  induction ns with
  | nil => exact h.nil
  | cons n ns ih =>
    rw [List.map_cons, List.flatMap_cons]
    exact h.append (hns n (List.mem_cons_self ..)) (ih fun m hm => hns m (List.mem_cons_of_mem n hm))

theorem items {ns : List (Node α)} (hns : ∀ n ∈ ns, P n.words) :
    P (Word.separated .comma ((ns.map Node.printed).map Printed.words)) := by
  refine h.separated rfl ?_
  simpa [Node.words] using hns

theorem led {kind : TokenKind} (hk : isPlain kind = true) {n? : Option (Node α)}
    (hn : ∀ n, n? = some n → P n.words) : P (Printed.led kind (n?.map Node.printed)) := by
  cases n? with
  | none => exact h.nil
  | some n => exact h.cons hk (hn n rfl)

/-- The words of a tree that can be written have every such property. -/
theorem words {role : Role} {n : Node α} (hn : n.Printable role) : P n.words := by
  induction hn with
  | @mk role l k fits ok parts ih =>
    have hsemicolon : P [ofKind .semicolon] := h.kind rfl
    rw [Node.words, Node.printed_mk]
    cases k <;> simp [Kind.parts, or_imp, forall_and] at ih
    case sourceFile ss => exact h.statements ih
    case variableStatement keyword ds =>
      exact h.cons (isPlain_token_variableKind keyword) (h.append (h.items ih) hsemicolon)
    case variableDeclaration n t i =>
      exact h.append (h.name ok.1) (h.append (h.led rfl ih.1) (h.led rfl ih.2))
    case functionDeclaration n ps t b =>
      obtain ⟨hparams, htype, hbody⟩ := ih
      exact h.cons rfl (h.append (h.name ok.1) (h.append (h.parens (h.items hparams))
        (h.append (h.led rfl htype) hbody)))
    case parameter n t i =>
      exact h.append (h.name ok.1) (h.append (h.led rfl ih.1) (h.led rfl ih.2))
    case typeAlias n t =>
      have htype : P [ofName "type"] := h.name ⟨_, _, rfl, by decide, by decide⟩
      exact h.append htype (h.append (h.name ok.1) (h.cons rfl (h.append ih hsemicolon)))
    case block ss => exact h.cons rfl (h.append (h.statements ih) (h.kind rfl))
    case expressionStatement e => exact h.append ih hsemicolon
    case returnStatement e =>
      refine h.cons rfl (h.append ?_ hsemicolon)
      cases e with
      | none => exact h.nil
      | some e => exact ih e rfl
    case ifStatement c t e =>
      obtain ⟨hcond, hthen, helse⟩ := ih
      exact h.cons rfl (h.append (h.parens hcond) (h.append hthen (h.led rfl helse)))
    case whileStatement c b => exact h.cons rfl (h.append (h.parens ih.1) ih.2)
    case emptyStatement => exact hsemicolon
    case identifier s => exact h.name ok.1
    case numericLiteral s => exact h.numeral ok
    case stringLiteral s => exact h.string s
    case trueLiteral => exact h.kind rfl
    case falseLiteral => exact h.kind rfl
    case nullLiteral => exact h.kind rfl
    case arrayLiteral es => exact h.cons rfl (h.append (h.items ih) (h.kind rfl))
    case parenthesized e => exact h.parens ih
    case arrowFunction ps t b =>
      obtain ⟨hparams, htype, hbody⟩ := ih
      exact h.append (h.parens (h.items hparams)) (h.append (h.led rfl htype) (h.cons rfl hbody))
    case call e as => exact h.append (h.atLeast ih.1 8) (h.parens (h.items ih.2))
    case propertyAccess e n => exact h.append (h.atLeast ih 8) (h.cons rfl (h.name ok))
    case prefixUnary o e => exact h.cons (isPlain_token_prefixOperator o) (h.atLeast ih 7)
    case binary o l r =>
      have ho := isPlain_token_binaryOperator o
      simp only [Kind.map, Printed.ofKind]
      split
      · exact h.append (h.atLeast ih.1 8) (h.cons ho ih.2)
      · exact h.append (h.atLeast ih.1 _) (h.cons ho (h.atLeast ih.2 _))
    case keywordType keyword => exact h.name (isName_spelling_keywordType keyword)
    case typeReference n => exact h.name ok.1.1
    case arrayType e => exact h.append (h.atLeast ih 1) (h.cons rfl (h.kind rfl))
    case unionType ts =>
      refine h.separated rfl ?_
      simp only [List.map_map, List.mem_map]
      rintro ws ⟨t, ht, rfl⟩
      exact h.atLeast (ih t ht) 1

end Closed

theorem closed_isWhole : Closed fun ws => ∀ w ∈ ws, w.IsWhole where
  nil := by simp
  append ha hb := by
    intro w hw
    rcases List.mem_append.1 hw with hw | hw
    · exact ha w hw
    · exact hb w hw
  parens hws := by
    have hleft : (ofKind .leftParen).IsWhole := isWhole_ofKind rfl
    have hright : (ofKind .rightParen).IsWhole := isWhole_ofKind rfl
    intro w hw
    simp only [inParens, List.mem_cons, List.mem_append, List.not_mem_nil, or_false] at hw
    rcases hw with rfl | hw | rfl
    · exact hleft
    · exact hws w hw
    · exact hright
  kind hk := by
    simp only [isPlain, Bool.and_eq_true] at hk
    simpa using isWhole_ofKind hk.1.1
  name ht := by simpa using isWhole_ofName ht
  numeral ht := by simpa using isWhole_numeral ht
  string s := by simpa using isWhole_ofString s

end Syntax

end ScriptAnalysis

import ScriptAnalysis.Proofs.Syntax.Containment
import ScriptAnalysis.Proofs.Syntax.Identifiers
import ScriptAnalysis.Proofs.Syntax.Written
import ScriptAnalysis.Proofs.Token.LongestMatch

/-!
# The literals of a text

A token is spelled by one of the rules that read tokens of its kind (`TokenStream.exists_rule_of_mem_tokens`):
a number is one in base ten or one in base sixteen. In a text without errors every number is one node of the
tree (`Tree.existsUnique_numericLiteral`), and every string stands where its token does.
-/

namespace ScriptAnalysis

namespace TokenStream

variable {cs : List Char} {t : Token}

/-- A known token is spelled by a rule for tokens of its kind. -/
theorem exists_rule_of_mem_tokens (ht : t ∈ (ofChars cs).tokens) (hkind : t.kind ≠ .unknown) :
    ∃ r : Lexeme.Rule, t.text.toList ∈ r.pattern ∧ r.item = .token t.kind := by
  obtain ⟨c, rest, tail, hcut, htext⟩ := exists_cuts_of_mem_tokens ht
  have hmatch : (Lexeme.Item.token t.kind).IsLongestMatch (c :: rest) (c :: tail) :=
    Lexeme.Item.isLongestMatch_cuts hcut rfl
  have hmisses : ¬ Pattern.Misses Lexeme.Rule.any (c :: rest) := fun hmiss =>
    hkind (Lexeme.Item.token.inj (hmatch.unknown_iff.mpr hmiss))
  obtain ⟨w, hwins, htakes⟩ := hmatch.wins hmisses
  obtain rfl : c :: tail = w := htakes
  rw [htext, String.toList_ofList]
  exact hwins.rule

/-- A number is one in base sixteen or in base ten. -/
theorem mem_number_of_mem_tokens (ht : t ∈ (ofChars cs).tokens) (hkind : t.kind = .numericLiteral) :
    t.text.toList ∈ Pattern.hexNumber ∨ t.text.toList ∈ Pattern.decimalNumber := by
  obtain ⟨r, hr, hitem⟩ := exists_rule_of_mem_tokens ht (by rw [hkind]; decide)
  rw [hkind] at hitem
  cases r with
  | hexNumber => exact .inl hr
  | decimalNumber => exact .inr hr
  | fixed kind =>
    cases hitem
    exact absurd (Lexeme.Rule.mem_fixed_iff.mp hr).2 (by decide)
  | _ => cases hitem

/-- A number begins with a digit. -/
theorem exists_digit_of_mem_tokens (ht : t ∈ (ofChars cs).tokens) (hkind : t.kind = .numericLiteral) :
    ∃ c w, t.text.toList = c :: w ∧ c.isDigit = true := by
  obtain ⟨c, w, hchars⟩ : ∃ c w, t.text.toList = c :: w := by
    obtain ⟨c, -, tail, -, htext⟩ := exists_cuts_of_mem_tokens ht
    exact ⟨c, tail, by rw [htext, String.toList_ofList]⟩
  refine ⟨c, w, hchars, ?_⟩
  rcases mem_number_of_mem_tokens ht hkind with h | h
  · rw [hchars] at h
    obtain ⟨rfl, -⟩ := Pattern.cons_mem_oneOf_mul.mp h
    decide
  · rw [hchars] at h
    exact Lexeme.Rule.head_of_mem_decimalNumber h

end TokenStream

namespace Syntax

theorem Node.mem_preorder_iff {α : Type} {n m : Node α} : m ∈ n.preorder ↔ m ∈ n.nodes := by
  induction n using induction_children with
  | h n ih =>
    rw [preorder_eq, mem_nodes_iff, mem_inner_iff, List.mem_cons, List.mem_flatMap, or_comm]
    exact or_congr_left (exists_congr fun c => and_congr_right fun hc => ih c hc)

namespace Tree

variable {fileName text : String} {n : Node Place} {token : Token}

/-- A string of the tree is a token of the text. -/
theorem exists_token_of_stringLiteral (h : (parse fileName text).errors = [])
    (hn : n ∈ (parse fileName text).root.nodes) {value : String} (hk : n.kind = .stringLiteral value) :
    ∃ token ∈ (parse fileName text).stream.tokens, token.kind = .stringLiteral ∧ token.span = n.span :=
  written_of_kind_eq h hn hk

/-- What covers a number and carries its text is the number. -/
theorem kind_eq_of_numericLiteral (h : (parse fileName text).errors = [])
    (htoken : token ∈ (parse fileName text).stream.tokens) (hkind : token.kind = .numericLiteral)
    (hn : n ∈ (parse fileName text).root.nodes) (hspan : n.span = token.span)
    (hcarries : n.kind.Carries token.text) : n.kind = .numericLiteral token.text := by
  obtain ⟨c, w, hchars, hdigit⟩ := TokenStream.exists_digit_of_mem_tokens htoken hkind
  -- words begin with no digit
  have hword : ∀ {word : String} {d : Char} {cs : List Char}, token.text = word → word.toList = d :: cs →
      d.isDigit = false → False := by
    rintro _ d cs rfl hd hno
    rw [hd] at hchars
    cases hchars
    exact Bool.false_ne_true (hno.symm.trans hdigit)
  cases hk : n.kind with
  | identifier name =>
    rw [hk] at hcarries
    obtain rfl : name = token.text := hcarries
    have hname := (regular hn).named token.text (by rw [Node.kind_map, hk]; rfl) fun hempty => by
      rw [hempty] at hchars
      cases hchars
    obtain ⟨d, cs, hd, hstart, -⟩ := hname
    refine (hword rfl hd (Bool.eq_false_iff.mpr fun hdigit' => ?_)).elim
    exact Bool.false_ne_true ((Word.isNameStart_of_isDigit hdigit').symm.trans hstart)
  | stringLiteral value =>
    obtain ⟨other, hother, hstring, hplace⟩ := exists_token_of_stringLiteral h hn hk
    rw [token_eq_of_span_eq hother htoken (hplace.trans hspan), hkind] at hstring
    cases hstring
  | numericLiteral number =>
    rw [hk] at hcarries
    exact congrArg Kind.numericLiteral hcarries
  | trueLiteral => exact (hword (hk ▸ hcarries) rfl rfl).elim
  | falseLiteral => exact (hword (hk ▸ hcarries) rfl rfl).elim
  | nullLiteral => exact (hword (hk ▸ hcarries) rfl rfl).elim
  | keywordType type =>
    rw [hk] at hcarries
    have htext := (KeywordType.ofName?_eq_some_iff ..).mp hcarries
    cases type <;> exact (hword htext rfl rfl).elim
  | _ =>
    rw [hk] at hcarries
    exact hcarries.elim

/-- **Every number of a text is one node of its tree.** -/
theorem existsUnique_numericLiteral (h : (parse fileName text).errors = [])
    (htoken : token ∈ (parse fileName text).stream.tokens) (hkind : token.kind = .numericLiteral) :
    ∃! n, n ∈ (parse fileName text).root.nodes ∧ n.kind = .numericLiteral token.text ∧ n.span = token.span := by
  have hlt := (TokenStream.coversIn_ofChars text.toList token htoken).lt
  obtain ⟨k, hk⟩ | ⟨hword, -⟩ := (marked_parse fileName text).hasMark_of_mem htoken (by rw [hkind]; rfl)
  · obtain ⟨n, hn, hspan, -⟩ := Node.atom_mem_marksBy_iff.mp hk
    obtain ⟨other, hother, hplace, hcarries, -⟩ := exists_token_of_mem_coveringAtoms hn
    rw [token_eq_of_span_eq hother htoken (hplace.trans hspan)] at hcarries
    have hmem := Node.mem_preorder_iff.mp (Node.mem_coveringAtoms_iff.mp hn).1
    refine ⟨n, ⟨hmem, kind_eq_of_numericLiteral h htoken hkind hmem hspan hcarries, hspan⟩, ?_⟩
    rintro m ⟨hm, hmkind, hmspan⟩
    have hempty : m.span.isEmpty = false := by
      rw [hmspan]
      exact beq_false_of_ne (Nat.ne_of_lt hlt)
    have hcovering := Node.mem_coveringAtoms_iff.mpr ⟨Node.mem_preorder_iff.mpr hm, by rw [hmkind]; rfl, hempty⟩
    exact atom_eq_of_span_eq hcovering hn (hmspan.trans hspan.symm)
  · rw [hkind] at hword
    cases hword

end Tree

end Syntax

end ScriptAnalysis

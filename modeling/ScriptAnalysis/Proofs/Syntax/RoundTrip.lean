import ScriptAnalysis.Proofs.Syntax.ReadingStatements
import ScriptAnalysis.Syntax.Tree

/-!
# Reading undoes writing

`Node.text` is the text of a tree: its words with one space between them. `Tree.parse_text` says that the
text of every program that can be written is read without errors and that the tree that is read is the
program again, up to parentheses and the places of nodes. `readBack` is the induction over the tree; it
joins the lemmas on the single kinds of nodes.
-/

namespace ScriptAnalysis.Syntax

open Word

variable {α : Type}

namespace Parser

/-- What it means for each role that a tree is read back. -/
def ReadBack : Role → Node α → Prop
  | .file, _ => True
  | .statement, n => ReadsStatement n
  | .block, n => ReadsBlock n
  | .body, n => ReadsBody n
  | .expression, n => ReadsEverywhere n
  | .type, n => ReadsType n
  | .declaration, n => ReadsDeclaration n
  | .parameter, n => ReadsParameter n

/-- The parts of a kind can be written and are read back. -/
def PartsRead (k : Kind (Ident α) (Node α)) : Prop :=
  ∀ p ∈ k.parts, p.2.Printable p.1 ∧ ReadBack p.1 p.2

variable {l : α} {k : Kind (Ident α) (Node α)}

theorem readsEverywhere_of_parts (hn : (Node.mk l k).Printable .expression) (hparts : PartsRead k) :
    ReadsEverywhere (.mk l k) := by
  have hfits : k.isExpression = true := hn.fits_kind
  have hok : k.IsPrintable := hn.ok_kind
  cases k <;> simp only [Kind.isExpression, Bool.false_eq_true] at hfits
  case identifier text =>
    exact (readsOperand_identifier hok).everywhere hn (Nat.le_refl 8) rfl
  case numericLiteral text => exact readsOperand_numericLiteral.everywhere hn (Nat.le_refl 8) rfl
  case stringLiteral s => exact readsOperand_stringLiteral.everywhere hn (Nat.le_refl 8) rfl
  case trueLiteral => exact (readsOperand_constant (.inl rfl)).everywhere hn (Nat.le_refl 8) rfl
  case falseLiteral => exact (readsOperand_constant (.inr (.inl rfl))).everywhere hn (Nat.le_refl 8) rfl
  case nullLiteral => exact (readsOperand_constant (.inr (.inr rfl))).everywhere hn (Nat.le_refl 8) rfl
  case arrayLiteral es =>
    have hes : ∀ e ∈ es, e.Printable .expression ∧ ReadsExpression e := fun e he =>
      (hparts (.expression, e) (by simp [Kind.parts, he])).imp_right ReadsEverywhere.whole
    exact (readsOperand_arrayLiteral hes).everywhere hn (Nat.le_refl 8) rfl
  case parenthesized => exact hok.elim
  case arrowFunction ps t? b =>
    have hps : ∀ p ∈ ps, ReadsParameter p := fun p hp =>
      (hparts (.parameter, p) (by simp [Kind.parts, hp])).2
    have ht : ∀ t, t? = some t → ReadsType t := fun t ht =>
      (hparts (.type, t) (by simp [Kind.parts, ht])).2
    have hb : ReadsBody b := (hparts (.body, b) (by simp [Kind.parts])).2
    have hlevel : (Node.mk l (.arrowFunction ps t? b)).printed.level = 0 := rfl
    exact (readsExpression_arrowFunction hn hps ht hb).everywhere hn (by omega) rfl
      fun level hone hle => absurd hle (by omega)
  case call e as =>
    have he : ReadsEverywhere e := (hparts (.expression, e) (by simp [Kind.parts])).2
    have has : ∀ a ∈ as, a.Printable .expression ∧ ReadsExpression a := fun a ha =>
      (hparts (.expression, a) (by simp [Kind.parts, ha])).imp_right ReadsEverywhere.whole
    exact (readsOperand_call he.operand has).everywhere hn (Nat.le_refl 8) rfl
  case propertyAccess e i =>
    have he : ReadsEverywhere e := (hparts (.expression, e) (by simp [Kind.parts])).2
    exact (readsOperand_propertyAccess he.operand).everywhere hn (Nat.le_refl 8) rfl
  case prefixUnary op e =>
    have he : ReadsEverywhere e := (hparts (.expression, e) (by simp [Kind.parts])).2
    exact (readsUnary_prefixUnary he.unary).everywhere hn rfl rfl rfl
  case binary op a b =>
    have ha : ReadsEverywhere a := (hparts (.expression, a) (by simp [Kind.parts])).2
    have hb : ReadsEverywhere b := (hparts (.expression, b) (by simp [Kind.parts])).2
    exact readsEverywhere_binary hn ha hb

theorem readsBlock_of_parts (hblock : k.isBlock = true) (hparts : PartsRead k) :
    ReadsBlock (.mk l k) := by
  cases k <;> simp only [Kind.isBlock, Bool.false_eq_true] at hblock
  exact readsBlock_block fun s hs => hparts (.statement, s) (by simp [Kind.parts, hs])

theorem readsStatement_of_parts (hn : (Node.mk l k).Printable .statement) (hparts : PartsRead k) :
    ReadsStatement (.mk l k) := by
  have hfits : k.isStatement = true := hn.fits_kind
  have hok : k.IsPrintable := hn.ok_kind
  cases k <;> simp only [Kind.isStatement, Bool.false_eq_true] at hfits
  case variableStatement keyword ds =>
    exact readsStatement_variableStatement hok fun d hd =>
      (hparts (.declaration, d) (by simp [Kind.parts, hd])).2
  case functionDeclaration i ps t? b =>
    have hps : ∀ p ∈ ps, p.Printable .parameter ∧ ReadsParameter p := fun p hp =>
      hparts (.parameter, p) (by simp [Kind.parts, hp])
    have ht : ∀ t, t? = some t → ReadsType t := fun t ht =>
      (hparts (.type, t) (by simp [Kind.parts, ht])).2
    obtain ⟨hb, hread⟩ := hparts (.block, b) (by simp [Kind.parts])
    exact readsStatement_functionDeclaration hok hps ht hb.fits_kind hread
  case typeAlias i t =>
    exact readsStatement_typeAlias hok (hparts (.type, t) (by simp [Kind.parts])).2
  case block ss => exact (readsBlock_of_parts rfl hparts).readsStatement rfl
  case expressionStatement e =>
    obtain ⟨he, hread⟩ := hparts (.expression, e) (by simp [Kind.parts])
    exact readsStatement_expressionStatement he (ReadsEverywhere.whole hread)
  case returnStatement e? =>
    exact readsStatement_returnStatement fun e he =>
      (hparts (.expression, e) (by simp [Kind.parts, he])).imp_right ReadsEverywhere.whole
  case ifStatement c t e? =>
    have hc : ReadsEverywhere c := (hparts (.expression, c) (by simp [Kind.parts])).2
    have ht : ReadsStatement t := (hparts (.statement, t) (by simp [Kind.parts])).2
    exact readsStatement_ifStatement hok hc.whole ht fun e he =>
      (hparts (.statement, e) (by simp [Kind.parts, he])).2
  case whileStatement c b =>
    have hc : ReadsEverywhere c := (hparts (.expression, c) (by simp [Kind.parts])).2
    exact readsStatement_whileStatement hc.whole (hparts (.statement, b) (by simp [Kind.parts])).2
  case emptyStatement => exact readsStatement_emptyStatement

/-- Every tree that can be written is read back in its role. -/
theorem readBack {role : Role} {n : Node α} (h : n.Printable role) : ReadBack role n := by
  induction h with
  | @mk role l k fits ok parts ih =>
    have hn : (Node.mk l k).Printable role := .mk l fits ok parts
    have hparts : PartsRead k := fun p hp => ⟨parts p hp, ih p hp⟩
    cases role with
    | file => trivial
    | statement => exact readsStatement_of_parts hn hparts
    | block => exact readsBlock_of_parts fits hparts
    | body =>
      cases hblock : k.isBlock with
      | true => exact .inl ⟨hblock, readsBlock_of_parts hblock hparts⟩
      | false =>
        have hexpression : k.isExpression = true := by simpa [Kind.fits, hblock] using fits
        have hn' : (Node.mk l k).Printable .expression := hn.of_fits hexpression
        exact .inr ⟨hn', (readsEverywhere_of_parts hn' hparts).whole⟩
    | expression => exact readsEverywhere_of_parts hn hparts
    | type => exact (reads_type hn rfl).1
    | declaration =>
      cases k <;> simp only [Kind.fits, Bool.false_eq_true] at fits
      exact readsDeclaration_variableDeclaration ok
        (fun t ht => (hparts (.type, t) (by simp [Kind.parts, ht])).2)
        fun e he => ReadsEverywhere.whole (hparts (.expression, e) (by simp [Kind.parts, he])).2
    | parameter =>
      cases k <;> simp only [Kind.fits, Bool.false_eq_true] at fits
      exact readsParameter_parameter ok
        (fun t ht => (hparts (.type, t) (by simp [Kind.parts, ht])).2)
        fun e he => ReadsEverywhere.whole (hparts (.expression, e) (by simp [Kind.parts, he])).2

/-- The words of a file are read as its statements. -/
theorem reads_sourceFile {ss : List (Node α)} (hss : ∀ s ∈ ss, s.Printable .statement) :
    Reads sourceFile (ss.flatMap Node.words) (fun as => as.map Node.bare = ss.map Node.bare) [] := by
  refine reads_remaining.bind ?_
  rintro _ rfl
  have hstatements : ∀ s ∈ ss, s.Printable .statement ∧ ReadsStatement s ∧
      2 * s.words.length ≤ 2 * (ss.flatMap Node.words).length + 2 := by
    intro s hs
    have := length_statements hs
    exact ⟨hss s hs, readBack (hss s hs), by omega⟩
  have hread := reads_statements (.inr rfl) first_nil ss hstatements
    (Nat.lt_succ_of_le (length_le_statements hss))
  rwa [List.append_nil] at hread

end Parser

/-- The tokens of a written program are read without errors as the program. -/
theorem bare_parseTokens {n : Node α} (h : n.Printable .file) {stream : TokenStream}
    (hstream : stream.Shows n.words) :
    (parseTokens stream).2 = [] ∧ (parseTokens stream).1.bare = n.bare := by
  obtain ⟨l, k⟩ := n
  have hfits := h.fits_kind
  cases k <;> simp only [Node.kind_mk, Kind.fits, Bool.false_eq_true] at hfits
  rename_i ss
  have hwords : (Node.mk l (.sourceFile ss)).words = ss.flatMap Node.words := by
    rw [Node.words, Node.printed_mk]
    simp only [Kind.map, Printed.ofKind, List.flatMap_map]
    rfl
  rw [hwords] at hstream
  have hstatements : ∀ s ∈ ss, s.Printable .statement := fun s hs =>
    Node.Grammatical.of_mem_parts h (p := (.statement, s)) (by simp [Kind.parts, hs])
  obtain ⟨hbody, -, herrors⟩ := Parser.reads_sourceFile hstatements
    ⟨stream.tokens, stream.ending, 0, []⟩ ⟨hstream.words, hstream.sameLine, hstream.ending⟩
  rw [parseTokens]
  generalize Parser.sourceFile.run ⟨stream.tokens, stream.ending, 0, []⟩ = result at hbody herrors ⊢
  obtain ⟨body, s⟩ := result
  constructor
  · exact congrArg List.reverse herrors
  · rw [Node.bare_mk, Node.bare_mk]
    exact congrArg (fun bodies => Node.ofBareKind (.sourceFile bodies)) hbody

/-- The text of a tree: its words with one space between them. -/
def Node.text (n : Node α) : String := String.ofList (spaced n.words)

/-- A constant that holds a function, with a union in brackets and an assignment with a member. -/
def Node.sample : Node Unit :=
  .mk () (.sourceFile [.mk () (.variableStatement .const [.mk () (.variableDeclaration ⟨(), "f"⟩
    (some (.mk () (.arrayType (.mk () (.unionType
      [.mk () (.keywordType .null), .mk () (.typeReference ⟨(), "T"⟩)])))))
    (some (.mk () (.arrowFunction [.mk () (.parameter ⟨(), "a"⟩ none none)] none
      (.mk () (.propertyAccess
        (.mk () (.binary .assign (.mk () (.identifier "a")) (.mk () (.stringLiteral "\n"))))
        ⟨(), "if"⟩))))))])])

theorem Node.printable_sample : Node.sample.Printable .file := by
  have hf : IsIdentifier "f" := ⟨⟨'f', [], rfl, by decide, rfl⟩, by decide⟩
  have ha : IsIdentifier "a" := ⟨⟨'a', [], rfl, by decide, rfl⟩, by decide⟩
  have ht : IsIdentifier "T" := ⟨⟨'T', [], rfl, by decide, rfl⟩, by decide⟩
  have hif : IsName "if" := ⟨'i', ['f'], rfl, by decide, by decide⟩
  have hunion : Printable .type (mk () (.unionType
      [mk () (.keywordType .null), mk () (.typeReference ⟨(), "T"⟩)])) := by
    refine .mk () rfl (Nat.le_refl 2) ?_
    simp only [Kind.parts, List.map_cons, List.map_nil, List.forall_mem_cons]
    exact ⟨.mk () rfl trivial (by simp [Kind.parts]),
      .mk () rfl ⟨ht, by decide⟩ (by simp [Kind.parts]), by simp⟩
  have hassign : Printable .expression (mk () (.binary .assign (mk () (.identifier "a"))
      (mk () (.stringLiteral "\n")))) := by
    refine .mk () rfl (fun _ => rfl) ?_
    simp only [Kind.parts, List.forall_mem_cons]
    exact ⟨.mk () rfl ha (by simp [Kind.parts]), .mk () rfl trivial (by simp [Kind.parts]), by simp⟩
  have hbody : Printable .body (mk () (.propertyAccess (mk () (.binary .assign
      (mk () (.identifier "a")) (mk () (.stringLiteral "\n")))) ⟨(), "if"⟩)) :=
    .mk () rfl hif (by simpa [Kind.parts] using hassign)
  have hparameter : Printable .parameter (mk () (.parameter ⟨(), "a"⟩ none none)) :=
    .mk () rfl ha (by simp [Kind.parts])
  refine .mk () rfl trivial ?_
  simp only [Kind.parts, List.map_cons, List.map_nil, List.forall_mem_singleton]
  refine .mk () rfl ⟨by simp, by simp [Kind.hasValue]⟩ ?_
  simp only [Kind.parts, List.map_cons, List.map_nil, List.forall_mem_singleton]
  refine .mk () rfl hf ?_
  simp only [Kind.parts, Option.toList_some, List.map_cons, List.map_nil, List.cons_append,
    List.nil_append, List.forall_mem_cons]
  refine ⟨.mk () rfl trivial (by simpa [Kind.parts] using hunion), .mk () rfl trivial ?_, by simp⟩
  simp only [Kind.parts, Option.toList_none, List.map_cons, List.map_nil, List.cons_append,
    List.nil_append, List.forall_mem_cons]
  exact ⟨hparameter, hbody, by simp⟩

end ScriptAnalysis.Syntax

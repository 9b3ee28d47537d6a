import Mathlib.Data.List.Nodup
import ScriptAnalysis.Proofs.Syntax.KeepingNodes

/-!
# No token is lost

Whatever a text says, the names and literals in it are the atoms of its tree, in the same order, and its bad
characters are reported: the tree of every text is `Lossless` (`lossless_parse`).

Reading takes all tokens of the text and keeps what they say, so the marks of the tree are those that the
tokens leave (`marked_parse`). Since no two tokens start at the same place, no two marks do
(`mark_eq_of_start_eq`), and a mark belongs to one token and to one node.
-/

namespace ScriptAnalysis.Syntax

/-! ### The marks of the tree of a text -/

variable {source : List Char} {stream : TokenStream}

/-- Reading the tokens takes all of them, and the tree has the marks they leave. -/
theorem takes_parseTokens (hcover : ∀ t ∈ stream.tokens, t.CoversIn source)
    (hending : stream.ending.kind = .endOfFile) :
    Marked stream.tokens (parseTokens stream).1.marks ∧
      ∀ t ∈ stream.tokens, t.kind = .unknown →
        ∃ e ∈ (parseTokens stream).2, e.span.start = t.span.start := by
  obtain ⟨htakes, hrest⟩ := Parser.takes_sourceFile (s := .initial stream) ⟨hcover, hending⟩
  obtain ⟨ts, htokens, hmarked, hunknown⟩ := htakes.taken
  have hall : stream.tokens = ts := by
    rw [hrest, List.append_nil] at htokens
    exact htokens
  rw [parseTokens_eq, hall]
  refine ⟨?_, fun t ht hkind => ?_⟩
  · rw [Node.marks_eq_marksBelow rfl rfl]
    exact hmarked
  · obtain ⟨e, he, hstart⟩ := hunknown t ht hkind
    exact ⟨e, List.mem_reverse.mpr he, hstart⟩

namespace Tree

variable (fileName text : String)

/-- Numbering the nodes changes no mark. -/
theorem marksBy_root_parse :
    (parse fileName text).root.marksBy Place.span = (parseTokens (.ofChars text.toList)).1.marks := by
  have hspan := Node.marksBy_map Place.span (fun span => span) (parse fileName text).root
  rw [← hspan, root_parse, Node.map_number Place.mk Place.span (fun span => span) fun _ _ => rfl,
    Node.marksBy_map]
  rfl

/-- The marks of the tree of a text are those that its tokens leave. -/
theorem marked_parse :
    Marked (parse fileName text).stream.tokens ((parse fileName text).root.marksBy Place.span) := by
  rw [marksBy_root_parse]
  exact (takes_parseTokens (TokenStream.coversIn_ofChars _) (TokenStream.kind_ending_ofChars _)).1

/-! ### One place, one token, one mark -/

theorem pairwise_tokens_parse :
    (parse fileName text).stream.tokens.Pairwise
      fun a b => a.span.start < b.span.start ∧ a.span.stop ≤ b.span.start := by
  have hstarts := TokenStream.pairwise_starts_ofChars text.toList
  have hstops := TokenStream.pairwise_all_ofChars text.toList
  rw [TokenStream.starts, List.pairwise_map] at hstarts
  exact ((hstarts.and hstops).sublist (List.sublist_append_left ..))

theorem starts_nodup_tokens : ((parse fileName text).stream.tokens.map (·.span.start)).Nodup :=
  List.pairwise_map.mpr ((pairwise_tokens_parse fileName text).imp fun h => Nat.ne_of_lt h.1)

variable {fileName text}

theorem token_eq_of_span_eq {token other : Token} (h : token ∈ (parse fileName text).stream.tokens)
    (h' : other ∈ (parse fileName text).stream.tokens) (hspan : token.span = other.span) : token = other :=
  List.inj_on_of_nodup_map (starts_nodup_tokens fileName text) h h' (congrArg Span.start hspan)

/-- Two marks at one place are the same mark. -/
theorem mark_eq_of_start_eq {a b : Mark} (h : a ∈ (parse fileName text).root.marksBy Place.span)
    (h' : b ∈ (parse fileName text).root.marksBy Place.span) (hstart : a.start = b.start) : a = b :=
  List.inj_on_of_nodup_map
    ((marked_parse fileName text).sublist_start.nodup (starts_nodup_tokens fileName text)) h h' hstart

/-- The atoms of a tree cover pieces of the text that follow one another. -/
theorem pairwise_coveringAtoms_parse :
    ((parse fileName text).root.coveringAtoms Place.span).Pairwise
      fun a b => a.span.start < b.span.start ∧ a.span.stop ≤ b.span.start := by
  have hsublist := (marked_parse fileName text).sublist_span
  rw [Node.filterMap_span?_marksBy] at hsublist
  have htokens : ((parse fileName text).stream.tokens.map (·.span)).Pairwise
      fun a b : Span => a.start < b.start ∧ a.stop ≤ b.start :=
    List.pairwise_map.mpr (pairwise_tokens_parse fileName text)
  exact List.pairwise_map.mp (htokens.sublist hsublist)

theorem atom_eq_of_span_eq {a b : Node Place} (h : a ∈ (parse fileName text).root.coveringAtoms Place.span)
    (h' : b ∈ (parse fileName text).root.coveringAtoms Place.span) (hspan : a.span = b.span) : a = b := by
  have hnodup : (((parse fileName text).root.coveringAtoms Place.span).map (·.span.start)).Nodup :=
    List.pairwise_map.mpr (pairwise_coveringAtoms_parse.imp fun h => Nat.ne_of_lt h.1)
  exact List.inj_on_of_nodup_map hnodup h h' (congrArg Span.start hspan)

/-! ### What a tree keeps of its text -/

/-- The token is the word in front of a name for a type. -/
def HeadsAlias (t : Tree) (token : Token) : Prop :=
  token.kind = .identifier ∧ token.text = "type" ∧
    ∃ n ∈ t.root.preorder, n.kind.isTypeAlias = true ∧ n.span.start = token.span.start

/-- The token is a reserved word directly behind a point. -/
def IsMemberWord (t : Tree) (token : Token) : Prop :=
  token.kind.isReservedWord = true ∧
    ∃ point : Token, point.kind = .dot ∧ [point, token] <:+: t.stream.tokens

/-- The tree has kept the names, the literals and the bad characters of its text. -/
structure Lossless (t : Tree) : Prop where
  /-- Every name and every literal is what one atom covers; only the word in front of a name for a type is
  not. -/
  tokens : ∀ token ∈ t.stream.tokens, token.kind.isAtom = true → ¬t.HeadsAlias token →
    ∃! n, n ∈ t.root.preorder ∧ n.kind.isAtom = true ∧ n.span = token.span
  /-- Every atom with characters covers one token: such a name or literal, or the name of a member. -/
  atoms : ∀ n ∈ t.root.preorder, n.kind.isAtom = true → n.span.isEmpty = false →
    (∃! token, token ∈ t.stream.tokens ∧ token.span = n.span) ∧
      ∀ token ∈ t.stream.tokens, token.span = n.span →
        token.kind.isAtom = true ∧ ¬t.HeadsAlias token ∨ t.IsMemberWord token
  /-- It says what it covers. -/
  carried : ∀ n ∈ t.root.preorder, n.kind.isAtom = true → n.span.isEmpty = false →
    n.kind.Carries (t.textOf n)
  /-- The atoms stand in the order of the text. -/
  ordered : (t.root.coveringAtoms Place.span).Pairwise
    fun a b => a.span.start < b.span.start ∧ a.span.stop ≤ b.span.start
  /-- Every bad character is reported where it stands. -/
  reported : ∀ token ∈ t.stream.tokens, token.kind = .unknown →
    ∃ e ∈ t.errors, e.span.start = token.span.start

/-- What an atom covers is a token that it stands for. -/
theorem exists_token_of_mem_coveringAtoms {n : Node Place}
    (hn : n ∈ (parse fileName text).root.coveringAtoms Place.span) :
    ∃ token ∈ (parse fileName text).stream.tokens, token.span = n.span ∧ n.kind.Carries token.text ∧
      (token.kind.isAtom = true ∧ ¬(parse fileName text).HeadsAlias token ∨
        (parse fileName text).IsMemberWord token) := by
  have hmark := Node.atom_mem_marksBy_iff.mpr ⟨n, hn, rfl, rfl⟩
  obtain ⟨token, htoken, hspan, hcarries, hkind⟩ := (marked_parse fileName text).hasToken_of_mem hmark
  refine ⟨token, htoken, hspan, (Kind.carries_map_iff _ _ _).mp hcarries, hkind.imp_left ?_⟩
  intro hatom
  refine ⟨hatom, ?_⟩
  rintro ⟨-, -, hdeclared⟩
  have hword : .typeWord token.span.start ∈ (parse fileName text).root.marksBy Place.span :=
    Node.typeWord_mem_marksBy_iff.mpr hdeclared
  cases mark_eq_of_start_eq hmark hword (congrArg Span.start hspan).symm

end Tree

end ScriptAnalysis.Syntax

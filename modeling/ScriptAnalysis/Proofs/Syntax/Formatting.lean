import Mathlib.Data.List.Forall2
import ScriptAnalysis.Proofs.Syntax.Labels
import ScriptAnalysis.Proofs.Syntax.Parsed
import ScriptAnalysis.Proofs.Syntax.Printer

/-!
# The layout of a text

Two texts with the same tokens have the same tree and the same errors, whatever stands between the tokens
(`alike_parse`). Reading looks at a place for one thing only: an error is dropped when the last error
starts where it would start. So two readings go the same way when the places where they can report an error
correspond one to one. `Agree p p'` says that two readers keep such readings together; there is one lemma
for each reader.

An error is reported at a token, at a name or at the left operand of an assignment, and a name or an operand
starts where a token starts, also when it is missing. Bodies and statements that are missing stand where
the last token stopped; no error is reported at them, so nothing is said about their places.
-/

namespace ScriptAnalysis

/-- The token without its place. -/
def Token.unplaced (t : Token) : TokenKind × String × Bool := (t.kind, t.text, t.afterLineBreak)

namespace Syntax

/-- The tree without its labels. -/
def Node.plain {α : Type} (n : Node α) : Node Unit := n.map fun _ => ()

/-- The name without its label. -/
def Ident.plain {α : Type} (i : Ident α) : Ident Unit := i.map fun _ => ()

theorem Node.plain_mk {α : Type} (l : α) (k : Kind (Ident α) (Node α)) :
    (Node.mk l k).plain = .mk () (k.map Ident.plain Node.plain) :=
  map_mk _ l k

namespace Parser

/-! ### Corresponding readings -/

section

variable (At : Nat → Nat → Prop)

/-- The tokens say the same at places that correspond. -/
structure SameToken (t t' : Token) : Prop where
  kind : t.kind = t'.kind
  text : t.text = t'.text
  start : At t.span.start t'.span.start

/-- The names are the same at places that correspond. -/
structure SameName (i i' : Ident Span) : Prop where
  text : i.text = i'.text
  start : At i.label.start i'.label.start

/-- The trees are the same but for places. -/
abbrev SameTree (n n' : Node Span) : Prop := n.plain = n'.plain

/-- The trees are the same but for places, one by one. -/
abbrev SameTrees (ns ns' : List (Node Span)) : Prop := ns.map Node.plain = ns'.map Node.plain

/-- The trees are the same but for places, or both are missing. -/
abbrev SameTree? (n? n'? : Option (Node Span)) : Prop := n?.map Node.plain = n'?.map Node.plain

/-- The trees are the same but for places, and start at places that correspond. -/
structure SameNode (n n' : Node Span) : Prop where
  plain : SameTree n n'
  start : At n.label.start n'.label.start

/-- The two readings have got to corresponding places. -/
structure SameState (s s' : State) : Prop where
  rest : List.Forall₂ (fun t t' => SameToken At t t' ∧ t.afterLineBreak = t'.afterLineBreak) s.rest s'.rest
  ending : SameToken At s.ending s'.ending
  kind_ending : s.ending.kind = .endOfFile
  errors : List.Forall₂ (fun e e' : Error => e.cause = e'.cause ∧ At e.span.start e'.span.start)
    s.errors s'.errors

/-- The two readers, run in corresponding readings, give results that `R` relates, and the readings still
correspond. -/
def Agree {γ : Type} (p p' : Parse γ) (R : γ → γ → Prop) : Prop :=
  ∀ s s', SameState At s s' → R (p.run s).1 (p'.run s').1 ∧ SameState At (p.run s).2 (p'.run s').2

end

/-- A place corresponds to at most one place. -/
def OneToOne (At : Nat → Nat → Prop) : Prop := ∀ a a' b b', At a a' → At b b' → (a = b ↔ a' = b')

variable {At : Nat → Nat → Prop} {s s' : State} {γ δ : Type}

namespace SameState

theorem length_rest (h : SameState At s s') : s.rest.length = s'.rest.length := h.rest.length_eq

theorem peek (h : SameState At s s') (n : Nat) :
    SameToken At (s.peek n) (s'.peek n) ∧
      ((s.peek n).kind = .endOfFile ∨ (s.peek n).afterLineBreak = (s'.peek n).afterLineBreak) := by
  have hlength := h.length_rest
  rw [State.peek, State.peek, List.getD_eq_getElem?_getD, List.getD_eq_getElem?_getD]
  by_cases hn : n < s.rest.length
  · have hget := (List.forall₂_iff_get.mp h.rest).2 n hn (hlength ▸ hn)
    rw [List.getElem?_eq_getElem hn, List.getElem?_eq_getElem (hlength ▸ hn)]
    exact ⟨hget.1, .inr hget.2⟩
  · rw [List.getElem?_eq_none (Nat.le_of_not_lt hn),
      List.getElem?_eq_none (hlength ▸ Nat.le_of_not_lt hn)]
    exact ⟨h.ending, .inl h.kind_ending⟩

theorem current (h : SameState At s s') : SameToken At s.current s'.current := (h.peek 0).1

theorem endsStatement (h : SameState At s s') : s.endsStatement = s'.endsStatement := by
  obtain ⟨htoken, hbreak⟩ := h.peek 0
  rw [State.endsStatement, State.endsStatement, State.current, State.current, ← htoken.kind]
  rcases hbreak with hbreak | hbreak
  · simp [hbreak]
  · rw [hbreak]

theorem startsTypeAlias (h : SameState At s s') : s.startsTypeAlias = s'.startsTypeAlias := by
  obtain ⟨hnext, hbreak⟩ := h.peek 1
  rw [State.startsTypeAlias, State.startsTypeAlias, ← h.current.kind, ← h.current.text, ← hnext.kind]
  rcases hbreak with hbreak | hbreak
  · rw [hbreak, show (TokenKind.endOfFile == .identifier) = false from rfl, Bool.and_false]
    rfl
  · rw [hbreak]

theorem startsArrowFunction (h : SameState At s s') :
    s.startsArrowFunction = s'.startsArrowFunction := by
  have hcloses : ∀ depth (ts ts' : List Token),
      List.Forall₂ (fun t t' => SameToken At t t' ∧ t.afterLineBreak = t'.afterLineBreak) ts ts' →
      State.closesBeforeArrow depth ts = State.closesBeforeArrow depth ts' := by
    intro depth ts ts' hts
    induction hts generalizing depth with
    | nil => rfl
    | cons ht hts ih =>
      unfold State.closesBeforeArrow
      rw [← ht.1.kind]
      split
      · exact ih _
      · rfl
      · cases hts with
        | nil => rfl
        | cons ht' => simp only [ht'.1.kind]
      · exact ih _
      · exact ih _
  rw [State.startsArrowFunction, State.startsArrowFunction, ← h.current.kind, (h.peek 1).1.kind,
    hcloses 0 _ _ h.rest]

theorem advanced (h : SameState At s s') : SameState At s.advanced s'.advanced := by
  obtain ⟨rest, ending, lastEnd, errors⟩ := s
  obtain ⟨rest', ending', lastEnd', errors'⟩ := s'
  obtain ⟨hrest, hending, hkind, herrors⟩ := h
  cases hrest with
  | nil => exact ⟨.nil, hending, hkind, herrors⟩
  | cons _ hrest => exact ⟨hrest, hending, hkind, herrors⟩

theorem reported (hAt : OneToOne At) (h : SameState At s s') (cause : ErrorCause) {span span' : Span}
    (hspan : At span.start span'.start) :
    SameState At (s.reported cause span) (s'.reported cause span') := by
  obtain ⟨rest, ending, lastEnd, errors⟩ := s
  obtain ⟨rest', ending', lastEnd', errors'⟩ := s'
  obtain ⟨hrest, hending, hkind, herrors⟩ := h
  cases herrors with
  | nil => exact ⟨hrest, hending, hkind, .cons ⟨rfl, hspan⟩ .nil⟩
  | @cons e e' es es' he hes =>
    simp only [State.reported]
    by_cases hsame : e.span.start = span.start
    · rw [if_pos hsame, if_pos ((hAt _ _ _ _ he.2 hspan).mp hsame)]
      exact ⟨hrest, hending, hkind, .cons he hes⟩
    · rw [if_neg hsame, if_neg (mt (hAt _ _ _ _ he.2 hspan).mpr hsame)]
      exact ⟨hrest, hending, hkind, .cons ⟨rfl, hspan⟩ (.cons he hes)⟩

end SameState

namespace Agree

variable {p p' : Parse γ} {R : γ → γ → Prop} {Q : δ → δ → Prop}

theorem pure {x x' : γ} (h : R x x') : Agree At (Pure.pure x) (Pure.pure x') R :=
  fun _ _ hs => ⟨h, hs⟩

theorem bind {f f' : γ → Parse δ} (hp : Agree At p p' R)
    (hf : ∀ x x', R x x' → Agree At (f x) (f' x') Q) : Agree At (p >>= f) (p' >>= f') Q := by
  intro s s' hs
  obtain ⟨hx, hs⟩ := hp s s' hs
  exact hf _ _ hx _ _ hs

theorem map {f f' : γ → δ} (hp : Agree At p p' R) (hf : ∀ x x', R x x' → Q (f x) (f' x')) :
    Agree At (f <$> p) (f' <$> p') Q := by
  intro s s' hs
  obtain ⟨hx, hs⟩ := hp s s' hs
  exact ⟨hf _ _ hx, hs⟩

/-- One of two readers, chosen alike. -/
theorem ite {q q' : Parse γ} {c c' : Prop} [Decidable c] [Decidable c'] (hc : c ↔ c')
    (hp : Agree At p p' R) (hq : Agree At q q' R) :
    Agree At (if c then p else q) (if c' then p' else q') R := by
  by_cases h : c
  · rw [if_pos h, if_pos (hc.mp h)]
    exact hp
  · rw [if_neg h, if_neg (mt hc.mpr h)]
    exact hq

/-- Looking at the state. -/
theorem get_bind {f f' : State → Parse δ} (h : ∀ s s', SameState At s s' → Agree At (f s) (f' s') Q) :
    Agree At (get >>= f) (get >>= f') Q :=
  fun s s' hs => h s s' hs s s' hs

end Agree

/-! ### Steps -/

variable {kind : TokenKind} {cause : ErrorCause} {close : TokenKind} {start start' : Nat}
  {k k' : Kind (Ident Span) (Node Span)}

theorem agree_current : Agree At current current (SameToken At) := fun _ _ hs => ⟨hs.current, hs⟩

theorem agree_isAt : Agree At (isAt kind) (isAt kind) Eq :=
  fun _ _ hs => ⟨congrArg (· == kind) hs.current.kind, hs⟩

theorem agree_remaining : Agree At remaining remaining Eq := fun _ _ hs => ⟨hs.length_rest, hs⟩

theorem agree_advance : Agree At advance advance (SameToken At) :=
  fun _ _ hs => ⟨hs.current, hs.advanced⟩

theorem agree_eat : Agree At (eat kind) (eat kind) Eq :=
  agree_isAt.bind fun _ _ h => .ite (by rw [h]) (agree_advance.bind fun _ _ _ => .pure rfl) (.pure rfl)

theorem Agree.mono {p p' : Parse γ} {R R' : γ → γ → Prop} (hp : Agree At p p' R)
    (h : ∀ x x', R x x' → R' x x') : Agree At p p' R' :=
  fun s s' hs => ⟨h _ _ (hp s s' hs).1, (hp s s' hs).2⟩

theorem Agree.some {p p' : NodeParse} (hp : Agree At p p' SameTree) :
    Agree At (Option.some <$> p) (Option.some <$> p') SameTree? :=
  hp.map fun _ _ h => congrArg Option.some h

theorem Agree.plain {p p' : NodeParse} (hp : Agree At p p' (SameNode At)) : Agree At p p' SameTree :=
  hp.mono fun _ _ h => h.plain

theorem SameName.plain {i i' : Ident Span} (h : SameName At i i') : i.plain = i'.plain :=
  congrArg (Ident.mk ()) h.text

theorem agree_finish (hk : k.map Ident.plain Node.plain = k'.map Ident.plain Node.plain) :
    Agree At (finish start k) (finish start' k') SameTree :=
  fun _ _ hs => ⟨by
    show (Node.mk _ k).plain = (Node.mk _ k').plain
    rw [Node.plain_mk, Node.plain_mk, hk], hs⟩

theorem agree_finish_at (hstart : At start start')
    (hk : k.map Ident.plain Node.plain = k'.map Ident.plain Node.plain) :
    Agree At (finish start k) (finish start' k') (SameNode At) :=
  fun s s' hs => ⟨⟨(agree_finish hk s s' hs).1, hstart⟩, hs⟩

theorem agree_missingName : Agree At missingName missingName (SameName At) :=
  agree_current.bind fun _ _ h => .pure ⟨rfl, h.start⟩

theorem agree_missingExpression : Agree At missingExpression missingExpression (SameNode At) :=
  agree_missingName.bind fun i i' h => .pure ⟨by
    show (Node.mk _ (.identifier i.text)).plain = (Node.mk _ (.identifier i'.text)).plain
    rw [Node.plain_mk, Node.plain_mk, h.text], h.start⟩

section

variable (hAt : OneToOne At)

include hAt

theorem agree_report {span span' : Span} (hspan : At span.start span'.start) :
    Agree At (report cause span) (report cause span') fun _ _ => True :=
  fun _ _ hs => ⟨trivial, hs.reported hAt cause hspan⟩

theorem agree_reportHere : Agree At (reportHere cause) (reportHere cause) fun _ _ => True :=
  agree_current.bind fun _ _ h => agree_report hAt h.start

theorem agree_expect : Agree At (expect kind) (expect kind) Eq :=
  agree_eat.bind fun _ _ h => .ite (by rw [h]) (.pure rfl)
    ((agree_reportHere hAt).bind fun _ _ _ => .pure rfl)

theorem agree_semicolon : Agree At semicolon semicolon fun _ _ => True :=
  agree_eat.bind fun _ _ h => .ite (by rw [h]) (.pure trivial)
    (.get_bind fun _ _ hs => .ite (by rw [hs.endsStatement]) (.pure trivial) (agree_reportHere hAt))

theorem agree_declaredName : Agree At (declaredName cause) (declaredName cause) (SameName At) :=
  agree_isAt.bind fun _ _ h => .ite (by rw [h])
    (agree_advance.bind fun _ _ ht => .pure ⟨ht.text, ht.start⟩)
    ((agree_reportHere hAt).bind fun _ _ _ => agree_missingName)

theorem agree_memberName : Agree At memberName memberName (SameName At) :=
  agree_current.bind fun _ _ ht => .ite (by rw [ht.kind])
    (agree_advance.bind fun _ _ _ => .pure ⟨ht.text, ht.start⟩)
    ((agree_reportHere hAt).bind fun _ _ _ => agree_missingName)

omit hAt in
theorem agree_items {item item' : NodeParse} (hitem : Agree At item item' SameTree) (r : Nat) :
    Agree At (items item close r) (items item' close r) SameTrees := by
  induction r with
  | zero => exact .pure rfl
  | succ r ih =>
    refine agree_isAt.bind fun _ _ h => agree_isAt.bind fun _ _ h' => .ite (by rw [h, h']) (.pure rfl) ?_
    refine hitem.bind fun n n' hn => agree_eat.bind fun _ _ h => .ite (by rw [h]) ?_ (.pure ?_)
    · exact ih.bind fun ns ns' hns => .pure (by rw [SameTrees, List.map_cons, List.map_cons, hn, hns])
    · rw [SameTrees, List.map_cons, List.map_cons, hn]

/-! ### Types -/

omit hAt in
theorem agree_brackets (r : Nat) {n n' : Node Span} (hn : SameTree n n') :
    Agree At (brackets start r n) (brackets start' r n') SameTree := by
  induction r generalizing n n' with
  | zero => exact .pure hn
  | succ r ih =>
    refine agree_isAt.bind fun _ _ h => .get_bind fun s s' hs => ?_
    refine .ite (by rw [h, (hs.peek 1).1.kind]) ?_ (.pure hn)
    refine agree_advance.bind fun _ _ _ => agree_advance.bind fun _ _ _ => ?_
    exact (agree_finish (by rw [Kind.map, Kind.map, hn])).bind fun _ _ => ih

theorem agree_primaryType {type type' : NodeParse} (htype : Agree At type type' SameTree) :
    Agree At (primaryType type) (primaryType type') SameTree := by
  refine agree_current.bind fun token token' ht => ?_
  obtain ⟨kind, span, lineBreak, text⟩ := token
  obtain ⟨kind', span', lineBreak', text'⟩ := token'
  obtain ⟨rfl, rfl, hstart⟩ := ht
  cases kind with
  | identifier =>
    refine agree_advance.bind fun _ _ _ => ?_
    dsimp only
    cases KeywordType.ofName? text with
    | some keyword => exact .pure (by rw [SameTree, Node.plain_mk, Node.plain_mk])
    | none => exact .pure (by rw [SameTree, Node.plain_mk, Node.plain_mk]; rfl)
  | nullWord =>
    exact agree_advance.bind fun _ _ _ => .pure (by rw [SameTree, Node.plain_mk, Node.plain_mk])
  | leftParen =>
    exact agree_advance.bind fun _ _ _ => htype.bind fun _ _ hn =>
      (agree_expect hAt).bind fun _ _ _ => .pure hn
  | _ =>
    refine (agree_reportHere hAt).bind fun _ _ _ => agree_missingName.bind fun i i' hi => .pure ?_
    rw [SameTree, Node.plain_mk, Node.plain_mk, Kind.map, Kind.map, hi.plain]

theorem agree_arrayType {type type' : NodeParse} (htype : Agree At type type' SameTree) :
    Agree At (arrayType type) (arrayType type') SameTree :=
  agree_current.bind fun _ _ _ => (agree_primaryType hAt htype).bind fun _ _ hn =>
    agree_remaining.bind fun _ _ h => h ▸ agree_brackets _ hn

omit hAt in
theorem agree_moreMembers {member member' : NodeParse} (hmember : Agree At member member' SameTree)
    (r : Nat) : Agree At (moreMembers member r) (moreMembers member' r) SameTrees := by
  induction r with
  | zero => exact .pure rfl
  | succ r ih =>
    refine agree_eat.bind fun _ _ h => .ite (by rw [h]) ?_ (.pure rfl)
    refine hmember.bind fun n n' hn => ih.bind fun ns ns' hns => .pure ?_
    rw [SameTrees, List.map_cons, List.map_cons, hn, hns]

theorem agree_typeWithin (r : Nat) : Agree At (typeWithin r) (typeWithin r) SameTree := by
  induction r with
  | zero => exact agree_missingExpression.plain
  | succ r ih =>
    refine agree_current.bind fun _ _ _ => (agree_arrayType hAt ih).bind fun n n' hn => ?_
    refine agree_remaining.bind fun _ _ h => h ▸ ?_
    refine (agree_moreMembers (agree_arrayType hAt ih) _).bind fun ns ns' hns => ?_
    match ns, ns', hns with
    | [], [], _ => exact .pure hn
    | m :: ms, m' :: ms', hns =>
      exact agree_finish (by
        rw [Kind.map, Kind.map, List.map_cons, List.map_cons (f := Node.plain) (a := n'), hn, hns])

theorem agree_type : Agree At type type SameTree :=
  agree_remaining.bind fun _ _ h => h ▸ agree_typeWithin hAt _

theorem agree_annotated : Agree At typeAnnotation typeAnnotation SameTree? :=
  agree_eat.bind fun _ _ h => .ite (by rw [h])
    ((agree_type hAt).bind fun _ _ hn => .pure (congrArg some hn)) (.pure rfl)

/-! ### Expressions -/

section

variable {expr : NodeParse} (hexpr : Agree At expr expr (SameNode At))

include hexpr

omit hAt in
theorem agree_initializer : Agree At (initializer expr) (initializer expr) SameTree? :=
  agree_eat.bind fun _ _ h => .ite (by rw [h])
    (hexpr.bind fun _ _ hn => .pure (congrArg some hn.plain)) (.pure rfl)

theorem agree_parameter : Agree At (parameter expr) (parameter expr) SameTree := by
  refine agree_current.bind fun _ _ _ => (agree_declaredName hAt).bind fun i i' hi => ?_
  refine (agree_annotated hAt).bind fun t? t'? ht => (agree_initializer hexpr).bind fun e? e'? he => ?_
  exact agree_finish (by rw [Kind.map, Kind.map, hi.plain, ht, he])

theorem agree_parameters : Agree At (parameters expr) (parameters expr) SameTrees := by
  refine (agree_expect hAt).bind fun _ _ h => .ite (by rw [h]) ?_ (.pure rfl)
  refine agree_remaining.bind fun _ _ h => h ▸ ?_
  refine (agree_items (agree_parameter hAt hexpr) _).bind fun ps ps' hps => ?_
  exact (agree_expect hAt).bind fun _ _ _ => .pure hps

theorem agree_arguments : Agree At (arguments expr) (arguments expr) SameTrees := by
  refine (agree_expect hAt).bind fun _ _ _ => agree_remaining.bind fun _ _ h => h ▸ ?_
  refine (agree_items hexpr.plain _).bind fun as as' has => ?_
  exact (agree_expect hAt).bind fun _ _ _ => .pure has

theorem agree_primary : Agree At (primary expr) (primary expr) (SameNode At) := by
  refine agree_current.bind fun token token' ht => ?_
  obtain ⟨kind, span, lineBreak, text⟩ := token
  obtain ⟨kind', span', lineBreak', text'⟩ := token'
  obtain ⟨rfl, rfl, hstart⟩ := ht
  have hleaf : ∀ k k' : Kind (Ident Span) (Node Span),
      k.map Ident.plain Node.plain = k'.map Ident.plain Node.plain →
      Agree At (do let _ ← advance; pure (Node.mk span k)) (do let _ ← advance; pure (Node.mk span' k'))
        (SameNode At) :=
    fun k k' hk => agree_advance.bind fun _ _ _ =>
      .pure ⟨by rw [SameTree, Node.plain_mk, Node.plain_mk, hk], hstart⟩
  cases kind with
  | identifier | numericLiteral | stringLiteral | trueWord | falseWord | nullWord => exact hleaf _ _ rfl
  | leftParen =>
    refine agree_advance.bind fun _ _ _ => hexpr.bind fun n n' hn => (agree_expect hAt).bind fun _ _ _ => ?_
    exact agree_finish_at hstart (by rw [Kind.map, Kind.map, hn.plain])
  | leftBracket =>
    refine agree_advance.bind fun _ _ _ => agree_remaining.bind fun _ _ h => h ▸ ?_
    refine (agree_items hexpr.plain _).bind fun es es' hes => (agree_expect hAt).bind fun _ _ _ => ?_
    exact agree_finish_at hstart (by rw [Kind.map, Kind.map, hes])
  | unknown =>
    exact (agree_reportHere hAt).bind fun _ _ _ => agree_advance.bind fun _ _ _ => agree_missingExpression
  | _ => exact (agree_reportHere hAt).bind fun _ _ _ => agree_missingExpression

theorem agree_suffixes (hstart : At start start') (r : Nat) {n n' : Node Span} (hn : SameNode At n n') :
    Agree At (suffixes expr start r n) (suffixes expr start' r n') (SameNode At) := by
  induction r generalizing n n' with
  | zero => exact .pure hn
  | succ r ih =>
    refine agree_current.bind fun token token' ht => ?_
    obtain ⟨kind, span, lineBreak, text⟩ := token
    obtain ⟨kind', span', lineBreak', text'⟩ := token'
    obtain ⟨rfl, rfl, -⟩ := ht
    cases kind with
    | dot =>
      refine agree_advance.bind fun _ _ _ => (agree_memberName hAt).bind fun i i' hi => ?_
      exact (agree_finish_at hstart (by rw [Kind.map, Kind.map, hn.plain, hi.plain])).bind fun _ _ => ih
    | leftParen =>
      refine (agree_arguments hAt hexpr).bind fun as as' has => ?_
      exact (agree_finish_at hstart (by rw [Kind.map, Kind.map, hn.plain, has])).bind fun _ _ => ih
    | _ => exact .pure hn

theorem agree_operand : Agree At (operand expr) (operand expr) (SameNode At) :=
  agree_current.bind fun _ _ ht => (agree_primary hAt hexpr).bind fun _ _ hn =>
    agree_remaining.bind fun _ _ h => h ▸ agree_suffixes hAt hexpr ht.start _ hn

theorem agree_unary (r : Nat) : Agree At (unary expr r) (unary expr r) (SameNode At) := by
  induction r with
  | zero => exact agree_operand hAt hexpr
  | succ r ih =>
    refine agree_current.bind fun token token' ht => ?_
    rw [← ht.kind]
    cases PrefixOperator.ofToken? token.kind with
    | some op =>
      refine agree_advance.bind fun _ _ _ => ih.bind fun n n' hn => ?_
      exact agree_finish_at ht.start (by rw [Kind.map, Kind.map, hn.plain])
    | none => exact agree_operand hAt hexpr

theorem agree_operators (r least : Nat) {n n' : Node Span} (hn : SameNode At n n') :
    Agree At (operators expr r least n) (operators expr r least n') (SameNode At) := by
  induction r generalizing least n n' with
  | zero => exact .pure hn
  | succ r ih =>
    refine agree_current.bind fun token token' ht => ?_
    rw [← ht.kind]
    cases BinaryOperator.ofToken? token.kind with
    | some op =>
      refine .ite Iff.rfl (.pure hn) ?_
      refine agree_advance.bind fun _ _ _ => agree_remaining.bind fun _ _ h => h ▸ ?_
      refine (agree_unary hAt hexpr _).bind fun m m' hm => (ih _ hm).bind fun e e' he => ?_
      exact (agree_finish_at hn.start (by rw [Kind.map, Kind.map, hn.plain, he.plain])).bind fun _ _ => ih _
    | none => exact .pure hn

/-! ### Statements -/

theorem agree_variableDeclaration {keyword : VariableKind} :
    Agree At (variableDeclaration expr keyword) (variableDeclaration expr keyword) SameTree := by
  refine agree_current.bind fun _ _ _ => (agree_declaredName hAt).bind fun i i' hi => ?_
  refine (agree_annotated hAt).bind fun t? t'? ht => (agree_initializer hexpr).bind fun e? e'? he => ?_
  have hfinish : ∀ start start', Agree At (finish start (.variableDeclaration i t? e?))
      (finish start' (.variableDeclaration i' t'? e'?)) SameTree :=
    fun _ _ => agree_finish (by rw [Kind.map, Kind.map, hi.plain, ht, he])
  have hnone : e?.isNone = e'?.isNone := by
    rw [← Option.isNone_map (f := Node.plain), he, Option.isNone_map]
  exact .ite (by rw [hnone]) ((agree_report hAt hi.start).bind fun _ _ _ => hfinish _ _) (hfinish _ _)

theorem agree_variableDeclarations {keyword : VariableKind} (r : Nat) :
    Agree At (variableDeclarations (variableDeclaration expr keyword) r)
      (variableDeclarations (variableDeclaration expr keyword) r) SameTrees := by
  induction r with
  | zero =>
    refine (agree_variableDeclaration hAt hexpr).bind fun n n' hn => .pure ?_
    rw [SameTrees, List.map_cons, List.map_cons, hn]
  | succ r ih =>
    refine (agree_variableDeclaration hAt hexpr).bind fun n n' hn => ?_
    refine agree_eat.bind fun _ _ h => .ite (by rw [h]) ?_ (.pure ?_)
    · exact ih.bind fun ns ns' hns => .pure (by rw [SameTrees, List.map_cons, List.map_cons, hn, hns])
    · rw [SameTrees, List.map_cons, List.map_cons, hn]

theorem agree_variableStatement {keyword : VariableKind} :
    Agree At (variableStatement expr keyword) (variableStatement expr keyword) SameTree := by
  refine agree_advance.bind fun _ _ _ => agree_remaining.bind fun _ _ h => h ▸ ?_
  refine (agree_variableDeclarations hAt hexpr _).bind fun ds ds' hds => ?_
  exact (agree_semicolon hAt).bind fun _ _ _ => agree_finish (by rw [Kind.map, Kind.map, hds])

omit hexpr in
theorem agree_typeAlias : Agree At typeAlias typeAlias SameTree := by
  refine agree_advance.bind fun _ _ _ => (agree_declaredName hAt).bind fun i i' hi => ?_
  refine (agree_expect hAt).bind fun _ _ _ => (agree_type hAt).bind fun t t' ht => ?_
  exact (agree_semicolon hAt).bind fun _ _ _ => agree_finish (by rw [Kind.map, Kind.map, hi.plain, ht])

theorem agree_condition : Agree At (condition expr) (condition expr) SameTree :=
  (agree_expect hAt).bind fun _ _ _ => hexpr.bind fun _ _ hn =>
    (agree_expect hAt).bind fun _ _ _ => .pure hn.plain

theorem agree_returnStatement : Agree At (returnStatement expr) (returnStatement expr) SameTree := by
  refine agree_advance.bind fun token token' _ => .get_bind fun s s' hs => ?_
  have hfinish : ∀ e? e'? : Option (Node Span), SameTree? e? e'? →
      Agree At (do semicolon; finish token.span.start (.returnStatement e?))
        (do semicolon; finish token'.span.start (.returnStatement e'?)) SameTree :=
    fun e? e'? he => (agree_semicolon hAt).bind fun _ _ _ => agree_finish (by rw [Kind.map, Kind.map, he])
  refine .ite (by rw [hs.current.kind, hs.endsStatement]) (hfinish none none rfl) ?_
  exact hexpr.plain.some.bind fun e? e'? he => hfinish e? e'? he

theorem agree_expressionStatement :
    Agree At (expressionStatement expr) (expressionStatement expr) SameTree := by
  refine agree_current.bind fun _ _ _ => hexpr.bind fun n n' hn => (agree_semicolon hAt).bind fun _ _ _ => ?_
  exact agree_finish (by rw [Kind.map, Kind.map, hn.plain])

end

section

variable {statement : Parse (Option (Node Span))} (hstatement : Agree At statement statement SameTree?)

include hstatement

omit hAt in
theorem agree_statements (r : Nat) :
    Agree At (statements statement close r) (statements statement close r) SameTrees := by
  induction r with
  | zero => exact .pure rfl
  | succ r ih =>
    refine agree_isAt.bind fun _ _ h => agree_isAt.bind fun _ _ h' => .ite (by rw [h, h']) (.pure rfl) ?_
    refine agree_remaining.bind fun _ _ hbefore => hstatement.bind fun n? n'? hn => ?_
    have hmore : Agree At (do let more ← statements statement close r; pure (n?.toList ++ more))
        (do let more ← statements statement close r; pure (n'?.toList ++ more)) SameTrees := by
      refine ih.bind fun ns ns' hns => .pure ?_
      rw [SameTrees, List.map_append, List.map_append, ← Option.toList_map, ← Option.toList_map, hn, hns]
    refine agree_remaining.bind fun _ _ hafter => .ite (by rw [hbefore, hafter]) ?_ hmore
    exact agree_advance.bind fun _ _ _ => hmore

theorem agree_block : Agree At (block statement) (block statement) SameTree := by
  refine agree_current.bind fun _ _ _ => (agree_expect hAt).bind fun _ _ _ => ?_
  refine agree_remaining.bind fun _ _ h => h ▸ ?_
  refine (agree_statements hstatement _).bind fun ss ss' hss => (agree_expect hAt).bind fun _ _ _ => ?_
  exact agree_finish (by rw [Kind.map, Kind.map, hss])

omit hAt in
theorem agree_embedded : Agree At (embedded statement) (embedded statement) SameTree := by
  refine hstatement.bind fun n? n'? hn => ?_
  match n?, n'?, hn with
  | some n, some n', hn => exact .pure (Option.some.inj hn)
  | none, none, _ =>
    exact .get_bind fun _ _ _ => .pure (by rw [SameTree, Node.plain_mk, Node.plain_mk])

variable {expr : NodeParse} (hexpr : Agree At expr expr (SameNode At))

include hexpr

theorem agree_arrowFunction :
    Agree At (arrowFunction statement expr) (arrowFunction statement expr) (SameNode At) := by
  refine agree_current.bind fun token token' htoken => ?_
  have hrest : ∀ ps ps' : List (Node Span), SameTrees ps ps' → Agree At (do
        let returnType? ← typeAnnotation
        let _ ← expect .arrow
        let body ← if ← isAt .leftBrace then block statement else expr
        finish token.span.start (.arrowFunction ps returnType? body)) (do
        let returnType? ← typeAnnotation
        let _ ← expect .arrow
        let body ← if ← isAt .leftBrace then block statement else expr
        finish token'.span.start (.arrowFunction ps' returnType? body)) (SameNode At) := by
    intro ps ps' hps
    refine (agree_annotated hAt).bind fun t? t'? ht => (agree_expect hAt).bind fun _ _ _ => ?_
    have hfinish : ∀ b b' : Node Span, SameTree b b' →
        Agree At (finish token.span.start (.arrowFunction ps t? b))
          (finish token'.span.start (.arrowFunction ps' t'? b')) (SameNode At) :=
      fun b b' hb => agree_finish_at htoken.start (by rw [Kind.map, Kind.map, hps, ht, hb])
    refine agree_isAt.bind fun _ _ h => .ite (by rw [h]) ?_ ?_
    · exact (agree_block hAt hstatement).bind fun b b' hb => hfinish b b' hb
    · exact hexpr.plain.bind fun b b' hb => hfinish b b' hb
  refine agree_isAt.bind fun _ _ h => .ite (by rw [h]) ?_ ?_
  · refine (agree_declaredName hAt).bind fun i i' hi => ?_
    have hparams : SameTrees [.mk i.label (.parameter i none none)]
        [.mk i'.label (.parameter i' none none)] := by
      simp only [SameTrees, List.map_cons, Node.plain_mk, Kind.map, hi.plain]
    exact (Agree.pure hparams).bind hrest
  · exact (agree_parameters hAt hexpr).bind fun ps ps' hps => hrest ps ps' hps

omit hAt hstatement hexpr in
theorem SameNode.isTarget {n n' : Node Span} (h : SameNode At n n') : isTarget n = isTarget n' := by
  have hplain : ∀ n : Node Span, Parser.isTarget n = n.plain.kind.isTarget := by
    intro n
    obtain ⟨l, k⟩ := n
    rw [Node.plain_mk]
    cases k <;> rfl
  rw [hplain n, hplain n', h.plain]

theorem agree_assignment :
    Agree At (assignment statement expr) (assignment statement expr) (SameNode At) := by
  refine .get_bind fun s s' hs => .ite (by rw [hs.startsArrowFunction])
    (agree_arrowFunction hAt hstatement hexpr) ?_
  refine agree_remaining.bind fun _ _ h => h ▸ (agree_unary hAt hexpr _).bind fun n n' hn => ?_
  refine agree_remaining.bind fun _ _ h => h ▸ (agree_operators hAt hexpr _ _ hn).bind fun l l' hl => ?_
  refine agree_current.bind fun token token' ht => ?_
  rw [← ht.kind]
  cases BinaryOperator.assignmentOfToken? token.kind with
  | some op =>
    have hright : Agree At (do
          let _ ← advance
          let right ← expr
          finish l.label.start (.binary op l right)) (do
          let _ ← advance
          let right ← expr
          finish l'.label.start (.binary op l' right)) (SameNode At) :=
      agree_advance.bind fun _ _ _ => hexpr.bind fun r r' hr =>
        agree_finish_at hl.start (by rw [Kind.map, Kind.map, hl.plain, hr.plain])
    exact .ite (by rw [hl.isTarget]) ((agree_report hAt hl.start).bind fun _ _ _ => hright) hright
  | none => exact .pure hl

theorem agree_functionDeclaration :
    Agree At (functionDeclaration statement expr) (functionDeclaration statement expr) SameTree := by
  refine agree_advance.bind fun token token' _ => (agree_declaredName hAt).bind fun i i' hi => ?_
  refine (agree_parameters hAt hexpr).bind fun ps ps' hps => ?_
  refine (agree_annotated hAt).bind fun t? t'? ht => ?_
  have hfinish : ∀ b b' : Node Span, SameTree b b' →
      Agree At (finish token.span.start (.functionDeclaration i ps t? b))
        (finish token'.span.start (.functionDeclaration i' ps' t'? b')) SameTree :=
    fun b b' hb => agree_finish (by rw [Kind.map, Kind.map, hi.plain, hps, ht, hb])
  refine agree_isAt.bind fun _ _ h => .ite (by rw [h]) ?_ ?_
  · exact (agree_block hAt hstatement).bind fun b b' hb => hfinish b b' hb
  · refine (agree_reportHere hAt).bind fun _ _ _ => .get_bind fun _ _ _ => hfinish _ _ ?_
    rw [SameTree, Node.plain_mk, Node.plain_mk]

theorem agree_ifStatement :
    Agree At (ifStatement statement expr) (ifStatement statement expr) SameTree := by
  refine agree_advance.bind fun token token' _ => (agree_condition hAt hexpr).bind fun c c' hc => ?_
  refine (agree_embedded hstatement).bind fun a a' ha => ?_
  have hfinish : ∀ b? b'? : Option (Node Span), SameTree? b? b'? →
      Agree At (finish token.span.start (.ifStatement c a b?))
        (finish token'.span.start (.ifStatement c' a' b'?)) SameTree :=
    fun b? b'? hb => agree_finish (by rw [Kind.map, Kind.map, hc, ha, hb])
  refine agree_eat.bind fun _ _ h => .ite (by rw [h]) ?_ (hfinish none none rfl)
  exact (agree_embedded hstatement).some.bind fun b? b'? hb => hfinish b? b'? hb

theorem agree_whileStatement :
    Agree At (whileStatement statement expr) (whileStatement statement expr) SameTree := by
  refine agree_advance.bind fun token token' _ => (agree_condition hAt hexpr).bind fun c c' hc => ?_
  refine (agree_embedded hstatement).bind fun a a' ha => ?_
  exact agree_finish (by rw [Kind.map, Kind.map, hc, ha])

theorem agree_anyStatement :
    Agree At (anyStatement statement expr) (anyStatement statement expr) SameTree? := by
  refine .get_bind fun s s' hs => ?_
  have hother : ∀ kind, Agree At
      (if s.startsTypeAlias then some <$> typeAlias
        else if startsExpression kind then some <$> expressionStatement expr
        else do
          reportHere .statementExpected
          let _ ← advance
          pure none)
      (if s'.startsTypeAlias then some <$> typeAlias
        else if startsExpression kind then some <$> expressionStatement expr
        else do
          reportHere .statementExpected
          let _ ← advance
          pure none) SameTree? := by
    intro kind
    refine .ite (by rw [hs.startsTypeAlias]) (agree_typeAlias hAt).some ?_
    refine .ite Iff.rfl (agree_expressionStatement hAt hexpr).some ?_
    exact (agree_reportHere hAt).bind fun _ _ _ => agree_advance.bind fun _ _ _ => .pure rfl
  show Agree At (match s.current.kind with | _ => _) (match s'.current.kind with | _ => _) _
  rw [← hs.current.kind]
  cases s.current.kind with
  | leftBrace => exact (agree_block hAt hstatement).some
  | varWord | letWord | constWord => exact (agree_variableStatement hAt hexpr).some
  | functionWord => exact (agree_functionDeclaration hAt hstatement hexpr).some
  | ifWord => exact (agree_ifStatement hAt hstatement hexpr).some
  | whileWord => exact (agree_whileStatement hAt hstatement hexpr).some
  | returnWord => exact (agree_returnStatement hAt hexpr).some
  | semicolon => exact agree_advance.bind fun _ _ _ => (agree_finish rfl).some
  | unknown =>
    exact (agree_reportHere hAt).bind fun _ _ _ => agree_advance.bind fun _ _ _ => .pure rfl
  | _ => exact hother _

end

/-- Statements and expressions are read alike at every depth. -/
theorem agree_nested (r : Nat) :
    Agree At (statement r) (statement r) SameTree? ∧
      Agree At (expression r) (expression r) (SameNode At) := by
  induction r with
  | zero => exact ⟨.pure rfl, agree_missingExpression⟩
  | succ r ih => exact ⟨agree_anyStatement hAt ih.1 ih.2, agree_assignment hAt ih.1 ih.2⟩

theorem agree_sourceFile : Agree At sourceFile sourceFile SameTrees :=
  agree_remaining.bind fun _ _ h => h ▸ agree_statements (agree_nested hAt _).1 _

end

end Parser

/-! ### Texts with the same tokens -/

section

variable (stream stream' : TokenStream)

/-- Two places that correspond: the tokens at one index start there, the end of the text included. -/
def StartsAt (a a' : Nat) : Prop := ∃ i : Nat, stream.starts[i]? = some a ∧ stream'.starts[i]? = some a'

variable {stream stream'}

theorem oneToOne_startsAt (h : stream.starts.Pairwise (· < ·)) (h' : stream'.starts.Pairwise (· < ·)) :
    Parser.OneToOne (StartsAt stream stream') := by
  -- the starts of a text are all different, so a start leads back to its index
  have hindex : ∀ {starts : List Nat} {i j a : Nat}, starts.Pairwise (· < ·) → starts[i]? = some a →
      starts[j]? = some a → i = j := by
    intro starts i j a hstarts hi hj
    exact (List.getElem?_inj (List.getElem?_eq_some_iff.mp hi).1 (hstarts.imp Nat.ne_of_lt)).mp
      (hi.trans hj.symm)
  rintro a a' b b' ⟨i, hi, hi'⟩ ⟨j, hj, hj'⟩
  constructor
  · rintro rfl
    obtain rfl := hindex h hi hj
    exact Option.some.inj (hi'.symm.trans hj')
  · rintro rfl
    obtain rfl := hindex h' hi' hj'
    exact Option.some.inj (hi.symm.trans hj)

/-- Reading begins alike when the tokens are the same but for their places. -/
theorem sameState_of_map_unplaced_eq
    (h : stream.tokens.map Token.unplaced = stream'.tokens.map Token.unplaced)
    (hkind : stream.ending.kind = .endOfFile) (hkind' : stream'.ending.kind = .endOfFile)
    (htext : stream.ending.text = stream'.ending.text) :
    Parser.SameState (StartsAt stream stream') (.initial stream) (.initial stream') := by
  have hlength : stream.tokens.length = stream'.tokens.length := by
    simpa using congrArg List.length h
  refine ⟨List.forall₂_iff_get.mpr ⟨hlength, fun i (hi : i < stream.tokens.length)
    (hi' : i < stream'.tokens.length) => ?_⟩, ⟨hkind.trans hkind'.symm, htext, ?_⟩,
    hkind, .nil⟩
  · have hget : (stream.tokens[i]).unplaced = (stream'.tokens[i]).unplaced := by
      have := congrArg (·[i]?) h
      simpa [List.getElem?_eq_getElem hi, List.getElem?_eq_getElem hi'] using this
    obtain ⟨hkind, htext, hbreak⟩ : _ ∧ _ ∧ _ := by simpa [Token.unplaced] using hget
    refine ⟨⟨hkind, htext, i, ?_, ?_⟩, hbreak⟩
    · rw [TokenStream.starts, TokenStream.all, List.getElem?_map, List.getElem?_append_left hi,
        List.getElem?_eq_getElem hi]
      rfl
    · rw [TokenStream.starts, TokenStream.all, List.getElem?_map, List.getElem?_append_left hi',
        List.getElem?_eq_getElem hi']
      rfl
  · refine ⟨stream.tokens.length, ?_, ?_⟩
    · rw [TokenStream.starts, TokenStream.all, List.getElem?_map, List.getElem?_concat_length]
      rfl
    · rw [hlength, TokenStream.starts, TokenStream.all, List.getElem?_map, List.getElem?_concat_length]
      rfl

/-- Two texts with the same tokens are read as the same tree but for places, with the same errors. -/
theorem parseTokens_agree (hstarts : stream.starts.Pairwise (· < ·))
    (hstarts' : stream'.starts.Pairwise (· < ·))
    (h : stream.tokens.map Token.unplaced = stream'.tokens.map Token.unplaced)
    (hkind : stream.ending.kind = .endOfFile) (hkind' : stream'.ending.kind = .endOfFile)
    (htext : stream.ending.text = stream'.ending.text) :
    (parseTokens stream).1.plain = (parseTokens stream').1.plain ∧
      (parseTokens stream).2.map (·.cause) = (parseTokens stream').2.map (·.cause) := by
  obtain ⟨hbody, hstate⟩ := Parser.agree_sourceFile (oneToOne_startsAt hstarts hstarts') _ _
    (sameState_of_map_unplaced_eq h hkind hkind' htext)
  constructor
  · rw [parseTokens_eq, parseTokens_eq, Node.plain_mk, Node.plain_mk, Kind.map, Kind.map, hbody]
  · have hcauses := List.forall₂_map_left_iff.mpr (List.forall₂_map_right_iff.mpr
      (hstate.errors.imp (S := fun e e' => e.cause = e'.cause) fun _ _ he => he.1))
    rw [List.forall₂_eq_eq_eq] at hcauses
    rw [parseTokens_eq, parseTokens_eq, List.map_reverse, List.map_reverse, hcauses]

end

/-! ### Texts with the same tokens -/

/-- The label without what the node covers. -/
def Place.unplaced (p : Place) : Place := ⟨p.id, .point 0⟩

/-- The entry with the labels of its node changed by `g`. -/
def Entry.map (g : Place → Place) (e : Entry) : Entry := ⟨e.node.map g, e.parent?⟩

/-- The entries of a tree go along with a change of labels that keeps the numbers. -/
theorem Node.entriesOnto_map {g : Place → Place} (hg : ∀ p, (g p).id = p.id) (n : Node Place)
    (parent? : Option NodeId) (listed : Array Entry) :
    (n.map g).entriesOnto parent? (listed.map (Entry.map g)) =
      (n.entriesOnto parent? listed).map (Entry.map g) := by
  induction n using induction_children generalizing parent? listed with
  | h n ih =>
    have hid : (n.map g).id = n.id := by
      rw [Node.id, label_map, hg]
      rfl
    have hfold : ∀ (cs : List (Node Place)) (listed : Array Entry), (∀ c ∈ cs, c ∈ n.children) →
        (cs.map (map g)).foldl (fun listed c => c.entriesOnto (some n.id) listed)
            (listed.map (Entry.map g)) =
          (cs.foldl (fun listed c => c.entriesOnto (some n.id) listed) listed).map (Entry.map g) := by
      intro cs
      induction cs with
      | nil => exact fun _ _ => rfl
      | cons c cs ihs =>
        intro listed hcs
        rw [List.map_cons, List.foldl_cons, List.foldl_cons, ih c (hcs c List.mem_cons_self)]
        exact ihs _ fun c' hc' => hcs c' (List.mem_cons_of_mem _ hc')
    rw [entriesOnto_eq, entriesOnto_eq n, children_map, hid, hfold _ _ fun _ hc => hc, Array.map_push]
    rfl

theorem Node.entries_map (g : Place → Place) (hg : ∀ p, (g p).id = p.id) (n : Node Place) :
    (n.map g).entries = n.entries.map (Entry.map g) := by
  have h := entriesOnto_map hg n none #[]
  rwa [Array.map_empty] at h

/-- The two trees are the same but for places: the same number for the root, under every number the same
node with the same parent, and the same errors in the same order. -/
structure Tree.Alike (t t' : Tree) : Prop where
  root : t.root.id = t'.root.id
  nodes : ∀ id, (t.node? id).map (Node.map Place.id) = (t'.node? id).map (Node.map Place.id)
  parents : ∀ id, t.parent? id = t'.parent? id
  errors : t.errors.map (·.cause) = t'.errors.map (·.cause)

theorem Tree.node?_parse (fileName text : String) (id : NodeId) :
    (Tree.parse fileName text).node? id = (Tree.parse fileName text).root.nodes[id]? := by
  rw [← Node.map_node_entries, List.getElem?_map, Array.getElem?_toList, ← Tree.entries_parse, Tree.node?]

/-- **The layout of a text does not change its tree.** Two texts whose comments are closed and whose tokens
are the same, one by one and with the same line breaks before them, have the same tree and the same errors:
white space, comments and offsets make no difference. -/
theorem Tree.alike_parse (fileName fileName' text text' : String)
    (hclosed : (Tree.parse fileName text).stream.errors = [])
    (hclosed' : (Tree.parse fileName' text').stream.errors = [])
    (htokens : (Tree.parse fileName text).stream.tokens.map Token.unplaced =
      (Tree.parse fileName' text').stream.tokens.map Token.unplaced) :
    (Tree.parse fileName text).Alike (Tree.parse fileName' text') := by
  obtain ⟨hplain, hcauses⟩ := parseTokens_agree (TokenStream.pairwise_starts_ofChars text.toList)
    (TokenStream.pairwise_starts_ofChars text'.toList) htokens (TokenStream.kind_ending_ofChars _)
    (TokenStream.kind_ending_ofChars _)
    ((TokenStream.text_ending_ofChars _).trans (TokenStream.text_ending_ofChars _).symm)
  -- the numbers come from the tree without its places
  have hnumber : ∀ {β : Type} (g : Place → β) (f' : Nat → Unit → β), (∀ i a, f' i () = g ⟨i, a⟩) →
      (Tree.parse fileName text).root.map g = (Tree.parse fileName' text').root.map g := by
    intro β g f' hf
    have hroot : ∀ fileName text, (Tree.parse fileName text).root.map g =
        (parseTokens (.ofChars text.toList)).1.plain.number f' := by
      intro fileName text
      rw [Tree.root_parse, Node.plain, Node.number_map Place.mk g f' (fun _ => ()) hf]
    rw [hroot, hroot, hplain]
  have hids := hnumber Place.id (fun i _ => i) fun _ _ => rfl
  have hentries : ∀ fileName text, (Tree.parse fileName text).entries.map (Entry.map Place.unplaced) =
      ((Tree.parse fileName text).root.map Place.unplaced).entries := by
    intro fileName text
    rw [Tree.entries_parse, Node.entries_map Place.unplaced fun _ => rfl]
  refine ⟨?_, fun id => ?_, fun id => ?_, ?_⟩
  · have hlabels := congrArg Node.label hids
    rwa [Node.label_map, Node.label_map] at hlabels
  · rw [Tree.node?_parse, Tree.node?_parse, ← List.getElem?_map, ← List.getElem?_map, ← Node.nodes_map,
      ← Node.nodes_map, hids]
  · have hparent : ∀ fileName text, (Tree.parse fileName text).parent? id =
        ((Tree.parse fileName text).entries.map (Entry.map Place.unplaced))[id]?.bind (·.parent?) := by
      intro fileName text
      rw [Array.getElem?_map, Option.bind_map]
      rfl
    rw [hparent, hparent, hentries, hentries,
      hnumber Place.unplaced (fun i _ => ⟨i, .point 0⟩) fun _ _ => rfl]
  · have hnone : (TokenStream.ofChars text.toList).errors = [] := hclosed
    have hnone' : (TokenStream.ofChars text'.toList).errors = [] := hclosed'
    rw [Tree.errors_parse, Tree.errors_parse, hnone, hnone']
    exact hcauses

/-- Two layouts of a text with several errors. -/
theorem Tree.alike_parse_two_layouts :
    (Tree.parse "a.ts" "const a b = 1 +;\nf(x /* y */ = 2").Alike
      (Tree.parse "b.ts" "  const a/**/b=1+ ;// no operand\n\tf ( x=2\n") := by
  have hclosed : (Tree.parse "a.ts" "const a b = 1 +;\nf(x /* y */ = 2").stream.errors = [] := by
    decide +kernel
  have hclosed' :
      (Tree.parse "b.ts" "  const a/**/b=1+ ;// no operand\n\tf ( x=2\n").stream.errors = [] := by
    decide +kernel
  have htokens :
      (Tree.parse "a.ts" "const a b = 1 +;\nf(x /* y */ = 2").stream.tokens.map Token.unplaced =
        (Tree.parse "b.ts" "  const a/**/b=1+ ;// no operand\n\tf ( x=2\n").stream.tokens.map
          Token.unplaced := by
    decide +kernel
  exact alike_parse _ _ _ _ hclosed hclosed' htokens

end Syntax

end ScriptAnalysis

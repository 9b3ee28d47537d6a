import ScriptAnalysis.Proofs.Syntax.Labels
import ScriptAnalysis.Proofs.Token.Places

/-!
# Names and literals in a tree

Atoms are the leaves of a tree that stand for one token: names, literals and built-in types. A tree leaves
marks in the text it is read from: one for each atom that covers characters, and one for the word in front
of a name for a type. `Marked ts ms` says that the tokens `ts` leave the marks `ms`, in this order and none
of them twice: every name and literal has one, other tokens have none, and a reserved word can be the name
of a member behind a point.
-/

namespace ScriptAnalysis

/-- Whether the token is a name or a literal. -/
def TokenKind.isAtom : TokenKind → Bool
  | .identifier | .numericLiteral | .stringLiteral | .trueWord | .falseWord | .nullWord => true
  | _ => false

namespace Syntax

namespace Kind

variable {ν ν' β β' : Type}

/-- Whether the node is a name, a literal or a built-in type. -/
def isAtom : Kind ν β → Bool
  | identifier _ | numericLiteral _ | stringLiteral _ | trueLiteral | falseLiteral | nullLiteral
  | keywordType _ => true
  | _ => false

/-- Whether the node declares a name for a type. -/
def isTypeAlias : Kind ν β → Bool
  | typeAlias .. => true
  | _ => false

/-- The atom says what a text says: a name or a number is the text itself, a string is its value, and a
built-in type or a word is the one of that name. -/
def Carries (text : String) : Kind ν β → Prop
  | identifier s | numericLiteral s => s = text
  | stringLiteral value => value = String.ofList (Escape.value text.toList)
  | trueLiteral => text = "true"
  | falseLiteral => text = "false"
  | nullLiteral => text = "null"
  | keywordType k => KeywordType.ofName? text = some k
  | _ => False

@[simp] theorem isAtom_map (f : ν → ν') (g : β → β') (k : Kind ν β) : (k.map f g).isAtom = k.isAtom := by
  cases k <;> rfl

@[simp] theorem isTypeAlias_map (f : ν → ν') (g : β → β') (k : Kind ν β) :
    (k.map f g).isTypeAlias = k.isTypeAlias := by
  cases k <;> rfl

theorem isTypeAlias_of_isAtom {k : Kind ν β} (h : k.isAtom = true) : k.isTypeAlias = false := by
  cases k <;> first | rfl | exact absurd h Bool.false_ne_true

theorem carries_map_iff (f : ν → ν') (g : β → β') {text : String} (k : Kind ν β) :
    (k.map f g).Carries text ↔ k.Carries text := by
  cases k <;> exact Iff.rfl

end Kind

/-! ### Marks -/

/-- A mark that a tree leaves in its text. -/
inductive Mark where
  /-- An atom that covers characters. -/
  | atom (span : Span) (kind : Kind Unit Unit)
  /-- The word in front of a name for a type. -/
  | typeWord (start : Nat)

namespace Mark

/-- Where the mark starts. -/
def start : Mark → Nat
  | atom span _ => span.start
  | typeWord start => start

/-- What an atom covers. -/
def span? : Mark → Option Span
  | atom span _ => some span
  | typeWord _ => none

end Mark

/-- The marks of one node that covers a span. -/
def Kind.marksAt {ν β : Type} (span : Span) (k : Kind ν β) : List Mark :=
  if k.isTypeAlias then [.typeWord span.start]
  else if k.isAtom && !span.isEmpty then [.atom span (k.map (fun _ => ()) fun _ => ())]
  else []

theorem Kind.marksAt_of_isAtom {ν β : Type} {span : Span} {k : Kind ν β} (h : k.isAtom = true) :
    k.marksAt span =
      if span.isEmpty then [] else [.atom span (k.map (fun _ => ()) fun _ => ())] := by
  rw [marksAt, isTypeAlias_of_isAtom h, h]
  cases span.isEmpty <;> rfl

theorem Kind.marksAt_of_not_isAtom {ν β : Type} {span : Span} {k : Kind ν β} (h : k.isAtom = false) :
    k.marksAt span = if k.isTypeAlias then [.typeWord span.start] else [] := by
  rw [marksAt, h]
  rfl

theorem Kind.marksAt_map {ν ν' β β' : Type} (f : ν → ν') (g : β → β') (span : Span) (k : Kind ν β) :
    (k.map f g).marksAt span = k.marksAt span := by
  rw [marksAt, marksAt, isAtom_map, isTypeAlias_map, Kind.map_map]

namespace Node

variable {α β : Type}

/-- The nodes of a tree, a node before its children. -/
def preorder (n : Node α) : List (Node α) := n.fold fun n k => n :: k.children.flatten

theorem preorder_eq (n : Node α) : n.preorder = n :: n.children.flatMap preorder := by
  rw [preorder, fold_eq, Kind.children_map, List.flatMap_def]
  rfl

theorem preorder_map (f : α → β) (n : Node α) : (n.map f).preorder = n.preorder.map (map f) := by
  induction n using induction_children with
  | h n ih =>
    rw [preorder_eq, preorder_eq n, children_map, List.map_cons, List.map_flatMap, List.flatMap_map,
      List.flatMap_def, List.flatMap_def, List.map_congr_left ih]

/-- The marks of a tree whose labels say what the nodes cover. -/
def marksBy (span : α → Span) (n : Node α) : List Mark :=
  n.preorder.flatMap fun m => m.kind.marksAt (span m.label)

theorem marksBy_map (f : α → β) (span : β → Span) (n : Node α) :
    (n.map f).marksBy span = n.marksBy fun l => span (f l) := by
  rw [marksBy, preorder_map, List.flatMap_map, marksBy]
  simp only [label_map, kind_map, Kind.marksAt_map]

/-- The marks of a tree that has just been read. -/
def marks (n : Node Span) : List Mark := n.marksBy fun span => span

/-- The marks below a node. -/
def marksBelow (k : Kind (Ident Span) (Node Span)) : List Mark :=
  (k.map (fun i => i.toNode.marks) marks).children.flatten

theorem marks_mk (l : Span) (k : Kind (Ident Span) (Node Span)) :
    (mk l k).marks = k.marksAt l ++ marksBelow k := by
  have hbelow : marksBelow k = (mk l k).children.flatMap marks := by
    rw [marksBelow, List.flatMap_def, children, ← Kind.children_map, shape, Kind.map_map]
    rfl
  rw [hbelow, marks, marksBy, preorder_eq, List.flatMap_cons, List.flatMap_assoc]
  rfl

/-- The atoms of a tree that cover characters, in the order of its nodes. -/
def coveringAtoms (span : α → Span) (n : Node α) : List (Node α) :=
  n.preorder.filter fun m => m.kind.isAtom && !(span m.label).isEmpty

theorem mem_coveringAtoms_iff {span : α → Span} {n m : Node α} :
    m ∈ n.coveringAtoms span ↔
      m ∈ n.preorder ∧ m.kind.isAtom = true ∧ (span m.label).isEmpty = false := by
  simp [coveringAtoms]

/-- The spans among the marks of a tree are those of its atoms. -/
theorem filterMap_span?_marksBy (span : α → Span) (n : Node α) :
    (n.marksBy span).filterMap Mark.span? = (n.coveringAtoms span).map fun m => span m.label := by
  rw [marksBy, coveringAtoms]
  induction n.preorder with
  | nil => rfl
  | cons m ms ih =>
    have hm : (m.kind.marksAt (span m.label)).filterMap Mark.span? =
        if m.kind.isAtom && !(span m.label).isEmpty then [span m.label] else [] := by
      cases hatom : m.kind.isAtom with
      | true =>
        rw [Kind.marksAt_of_isAtom hatom]
        cases (span m.label).isEmpty <;> rfl
      | false =>
        rw [Kind.marksAt_of_not_isAtom hatom]
        cases m.kind.isTypeAlias <;> rfl
    rw [List.flatMap_cons, List.filterMap_append, ih, hm, List.filter_cons]
    split <;> rfl

theorem atom_mem_marksBy_iff {span : α → Span} {n : Node α} {covered : Span} {k : Kind Unit Unit} :
    .atom covered k ∈ n.marksBy span ↔
      ∃ m ∈ n.coveringAtoms span, span m.label = covered ∧
        m.kind.map (fun _ => ()) (fun _ => ()) = k := by
  have hm : ∀ m : Node α, Mark.atom covered k ∈ m.kind.marksAt (span m.label) ↔
      (m.kind.isAtom = true ∧ (span m.label).isEmpty = false) ∧ span m.label = covered ∧
        m.kind.map (fun _ => ()) (fun _ => ()) = k := by
    intro m
    cases hatom : m.kind.isAtom with
    | true =>
      rw [Kind.marksAt_of_isAtom hatom]
      cases (span m.label).isEmpty <;> simp [eq_comm]
    | false =>
      rw [Kind.marksAt_of_not_isAtom hatom]
      cases m.kind.isTypeAlias <;> simp
  simp only [marksBy, List.mem_flatMap, mem_coveringAtoms_iff, hm, and_assoc]

theorem typeWord_mem_marksBy_iff {span : α → Span} {n : Node α} {start : Nat} :
    .typeWord start ∈ n.marksBy span ↔
      ∃ m ∈ n.preorder, m.kind.isTypeAlias = true ∧ (span m.label).start = start := by
  have hm : ∀ m : Node α, Mark.typeWord start ∈ m.kind.marksAt (span m.label) ↔
      m.kind.isTypeAlias = true ∧ (span m.label).start = start := by
    intro m
    cases hatom : m.kind.isAtom with
    | true =>
      rw [Kind.marksAt_of_isAtom hatom, Kind.isTypeAlias_of_isAtom hatom]
      cases (span m.label).isEmpty <;> simp
    | false =>
      rw [Kind.marksAt_of_not_isAtom hatom]
      cases m.kind.isTypeAlias <;> simp [eq_comm]
  simp only [marksBy, List.mem_flatMap, hm]

end Node

/-! ### The marks of tokens -/

/-- The tokens leave the marks, in this order. -/
inductive Marked : List Token → List Mark → Prop where
  /-- No tokens leave no marks. -/
  | nil : Marked [] []
  /-- A token that is neither a name nor a literal need not leave a mark. -/
  | skip {t : Token} {ts : List Token} {ms : List Mark} (hkind : t.kind.isAtom = false) :
      Marked ts ms → Marked (t :: ts) ms
  /-- A name or a literal leaves an atom. -/
  | atom {t : Token} {ts : List Token} {ms : List Mark} {k : Kind Unit Unit}
      (hkind : t.kind.isAtom = true) (hcarries : k.Carries t.text) :
      Marked ts ms → Marked (t :: ts) (.atom t.span k :: ms)
  /-- The word in front of a name for a type leaves a mark of its own. -/
  | typeWord {t : Token} {ts : List Token} {ms : List Mark} (hkind : t.kind = .identifier)
      (htext : t.text = "type") : Marked ts ms → Marked (t :: ts) (.typeWord t.span.start :: ms)
  /-- A reserved word behind a point leaves an atom. -/
  | member {point t : Token} {ts : List Token} {ms : List Mark} {k : Kind Unit Unit}
      (hpoint : point.kind = .dot) (hkind : t.kind.isReservedWord = true) (hcarries : k.Carries t.text) :
      Marked ts ms → Marked (point :: t :: ts) (.atom t.span k :: ms)

namespace Marked

variable {ts ts' : List Token} {ms ms' : List Mark}

theorem append (h : Marked ts ms) (h' : Marked ts' ms') : Marked (ts ++ ts') (ms ++ ms') := by
  induction h with
  | nil => exact h'
  | skip hkind _ ih => exact .skip hkind ih
  | atom hkind hcarries _ ih => exact .atom hkind hcarries ih
  | typeWord hkind htext _ ih => exact .typeWord hkind htext ih
  | member hpoint hkind hcarries _ ih => exact .member hpoint hkind hcarries ih

/-- Marks start where tokens start, in the same order. -/
theorem sublist_start (h : Marked ts ms) : (ms.map Mark.start).Sublist (ts.map (·.span.start)) := by
  induction h with
  | nil => exact .slnil
  | skip _ _ ih => exact ih.cons _
  | atom _ _ _ ih => exact ih.cons_cons _
  | typeWord _ _ _ ih => exact ih.cons_cons _
  | member _ _ _ _ ih => exact (ih.cons_cons _).cons _

/-- Atoms cover what tokens cover, in the same order. -/
theorem sublist_span (h : Marked ts ms) : (ms.filterMap Mark.span?).Sublist (ts.map (·.span)) := by
  induction h with
  | nil => exact .slnil
  | skip _ _ ih => exact ih.cons _
  | atom _ _ _ ih => exact ih.cons_cons _
  | typeWord _ _ _ ih => exact ih.cons _
  | member _ _ _ _ ih => exact (ih.cons_cons _).cons _

/-- The token has a mark, as an atom or as the word in front of a name for a type. -/
def HasMark (t : Token) (ms : List Mark) : Prop :=
  (∃ k, .atom t.span k ∈ ms) ∨ t.kind = .identifier ∧ t.text = "type" ∧ .typeWord t.span.start ∈ ms

theorem HasMark.cons {t : Token} (h : HasMark t ms) (m : Mark) : HasMark t (m :: ms) :=
  h.imp (fun ⟨k, hk⟩ => ⟨k, List.mem_cons_of_mem _ hk⟩)
    fun ⟨hkind, htext, hmem⟩ => ⟨hkind, htext, List.mem_cons_of_mem _ hmem⟩

/-- A name or a literal leaves a mark. -/
theorem hasMark_of_mem (h : Marked ts ms) {t : Token} (ht : t ∈ ts) (hatom : t.kind.isAtom = true) :
    HasMark t ms := by
  induction h with
  | nil => simp at ht
  | skip hkind _ ih =>
    rcases List.mem_cons.mp ht with rfl | ht
    · exact absurd (hatom.symm.trans hkind) (by decide)
    · exact ih ht
  | @atom _ _ _ k _ _ _ ih =>
    rcases List.mem_cons.mp ht with rfl | ht
    · exact .inl ⟨k, List.mem_cons_self⟩
    · exact (ih ht).cons _
  | typeWord hkind htext _ ih =>
    rcases List.mem_cons.mp ht with rfl | ht
    · exact .inr ⟨hkind, htext, List.mem_cons_self⟩
    · exact (ih ht).cons _
  | @member point _ _ _ k hpoint _ _ _ ih =>
    rcases List.mem_cons.mp ht with rfl | ht
    · rw [hpoint] at hatom
      exact absurd hatom (by decide)
    rcases List.mem_cons.mp ht with rfl | ht
    · exact .inl ⟨k, List.mem_cons_self⟩
    · exact (ih ht).cons _

/-- One of the tokens is what an atom stands for: a name, a literal, or a reserved word behind a point. -/
def HasToken (ts : List Token) (span : Span) (k : Kind Unit Unit) : Prop :=
  ∃ t ∈ ts, t.span = span ∧ k.Carries t.text ∧ (t.kind.isAtom = true ∨
    t.kind.isReservedWord = true ∧ ∃ point : Token, point.kind = .dot ∧ [point, t] <:+: ts)

theorem HasToken.cons {span : Span} {k : Kind Unit Unit} (h : HasToken ts span k) (t : Token) :
    HasToken (t :: ts) span k := by
  obtain ⟨t, ht, hspan, hcarries, hkind⟩ := h
  exact ⟨t, List.mem_cons_of_mem _ ht, hspan, hcarries, hkind.imp_right
    fun ⟨hword, point, hpoint, hinfix⟩ => ⟨hword, point, hpoint, List.infix_cons hinfix⟩⟩

/-- An atom stands for a token. -/
theorem hasToken_of_mem (h : Marked ts ms) {span : Span} {k : Kind Unit Unit}
    (hm : .atom span k ∈ ms) : HasToken ts span k := by
  induction h with
  | nil => simp at hm
  | skip _ _ ih => exact (ih hm).cons _
  | @atom t _ _ _ hkind hcarries _ ih =>
    rcases List.mem_cons.mp hm with hm | hm
    · obtain ⟨rfl, rfl⟩ := Mark.atom.inj hm
      exact ⟨t, List.mem_cons_self, rfl, hcarries, .inl hkind⟩
    · exact (ih hm).cons _
  | typeWord _ _ _ ih =>
    rcases List.mem_cons.mp hm with hm | hm
    · cases hm
    · exact (ih hm).cons _
  | @member point t ts _ _ hpoint hkind hcarries _ ih =>
    rcases List.mem_cons.mp hm with hm | hm
    · obtain ⟨rfl, rfl⟩ := Mark.atom.inj hm
      exact ⟨t, List.mem_cons_of_mem _ List.mem_cons_self, rfl, hcarries,
        .inr ⟨hkind, point, hpoint, [], ts, rfl⟩⟩
    · exact ((ih hm).cons _).cons _

end Marked

end Syntax

end ScriptAnalysis

import ScriptAnalysis.Proofs.Syntax.Labels
import ScriptAnalysis.Proofs.Token.Cover

/-!
# Nodes in a row

A tree is tidy when every node covers characters, its children stand inside it one after another, a colon
stands in front of a type that is an annotation, and no name is empty (`Node.Tidy`). Rows of nodes are put
together from shorter rows (`Stands.append`), which is how a reader that reads one child after another
arrives at them.
-/

namespace ScriptAnalysis

open Text

namespace Span

/-- The spans cover characters and follow one another between two offsets. -/
def Row : Nat → List Span → Nat → Prop
  | lo, [], hi => lo ≤ hi
  | lo, s :: ss, hi => lo ≤ s.start ∧ s.start < s.stop ∧ Row s.stop ss hi

namespace Row

variable {lo lo' mid hi hi' : Nat} {s : Span} {ss ts : List Span}

theorem le (h : Row lo ss hi) : lo ≤ hi := by
  induction ss generalizing lo with
  | nil => exact h
  | cons s ss ih =>
    obtain ⟨hlo, hlt, hrest⟩ := h
    exact Nat.le_trans (Nat.le_trans hlo (Nat.le_of_lt hlt)) (ih hrest)

theorem of_le (h : Row lo ss hi) (hlo : lo' ≤ lo) (hhi : hi ≤ hi') : Row lo' ss hi' := by
  induction ss generalizing lo lo' with
  | nil => exact Nat.le_trans hlo (Nat.le_trans h hhi)
  | cons s ss ih => exact ⟨Nat.le_trans hlo h.1, h.2.1, ih h.2.2 (Nat.le_refl _)⟩

theorem append (h : Row lo ss mid) (h' : Row mid ts hi) : Row lo (ss ++ ts) hi := by
  induction ss generalizing lo with
  | nil => exact h'.of_le h (Nat.le_refl _)
  | cons s ss ih => exact ⟨h.1, h.2.1, ih h.2.2⟩

/-- Every span of a row lies between its ends. -/
theorem of_mem (h : Row lo ss hi) (hs : s ∈ ss) : lo ≤ s.start ∧ s.start < s.stop ∧ s.stop ≤ hi := by
  induction ss generalizing lo with
  | nil => simp at hs
  | cons t ss ih =>
    obtain ⟨hlo, hlt, hrest⟩ := h
    rcases List.mem_cons.mp hs with rfl | hs
    · exact ⟨hlo, hlt, hrest.le⟩
    · obtain ⟨hstart, hstop⟩ := ih hrest hs
      exact ⟨by omega, hstop⟩

/-- Spans of a row do not overlap and stand in order. -/
theorem pairwise (h : Row lo ss hi) : ss.Pairwise (·.stop ≤ ·.start) := by
  induction ss generalizing lo with
  | nil => exact .nil
  | cons s ss ih => exact .cons (fun t ht => (h.2.2.of_mem ht).1) (ih h.2.2)

end Row

end Span

namespace Syntax

/-- A colon of the text stands between two offsets. -/
def ColonBetween (source : List Char) (lo hi : Nat) : Prop :=
  ∃ before after, source = before ++ ':' :: after ∧ lo ≤ byteLength before ∧ byteLength before < hi

/-- A colon among the tokens, at an offset or behind it, stands in front of what starts at another offset: only
opening parentheses stand between them. -/
def Introduced (source : List Char) (lo offset : Nat) : Prop :=
  ∃ before colon parens first after,
    (TokenStream.ofChars source).tokens = before ++ colon :: (parens ++ first :: after) ∧
      colon.kind = .colon ∧ lo ≤ colon.span.start ∧ (∀ p ∈ parens, p.kind = .leftParen) ∧
      first.span.start = offset

theorem Introduced.of_le {source : List Char} {lo lo' offset : Nat} (h : Introduced source lo offset)
    (hlo : lo' ≤ lo) : Introduced source lo' offset := by
  obtain ⟨before, colon, parens, first, after, htokens, hkind, hle, hparens, hfirst⟩ := h
  exact ⟨before, colon, parens, first, after, htokens, hkind, Nat.le_trans hlo hle, hparens, hfirst⟩

namespace Node

/-- The nodes cover characters and follow one another between two offsets. -/
def Row (lo : Nat) (ns : List (Node Span)) (hi : Nat) : Prop := Span.Row lo (ns.map label) hi

/-- If there is a type it stands between the offsets, and in front of it stands a colon. -/
def Annotates (source : List Char) (lo : Nat) (type? : Option (Node Span)) (hi : Nat) : Prop :=
  Row lo type?.toList hi ∧ ∀ t ∈ type?, Introduced source lo t.label.start

end Node

/-- The children of a node stand between two offsets one after another, types behind their colons. -/
def Kind.Arranged (source : List Char) (lo : Nat) (k : Kind (Ident Span) (Node Span)) (hi : Nat) : Prop :=
  match k with
  | .variableDeclaration n t i | .parameter n t i =>
    ∃ a b, Node.Row lo [n.toNode] a ∧ Node.Annotates source a t b ∧ Node.Row b i.toList hi
  | .functionDeclaration n ps t body =>
    ∃ a b, Node.Row lo (n.toNode :: ps) a ∧ Node.Annotates source a t b ∧ Node.Row b [body] hi
  | .arrowFunction ps t body =>
    ∃ a b, Node.Row lo ps a ∧ Node.Annotates source a t b ∧ Node.Row b [body] hi
  | k => Node.Row lo (k.map Ident.toNode id).children hi

/-- A node covers characters and its children are arranged inside it; if it is a name, it is not empty. -/
structure Node.Proper (source : List Char) (n : Node Span) : Prop where
  lt : n.label.start < n.label.stop
  arranged : n.kind.Arranged source n.label.start n.label.stop
  named : n.kind.identifierText? ≠ some ""

/-- Every node of the tree covers characters, has its children arranged inside it, and is no empty name. -/
def Node.Tidy (source : List Char) (n : Node Span) : Prop := ∀ m ∈ n.nodes, m.Proper source

/-- The nodes follow one another between two offsets, and all of them are tidy. -/
structure Node.Stands (source : List Char) (lo : Nat) (ns : List (Node Span)) (hi : Nat) : Prop where
  row : Row lo ns hi
  tidy : ∀ n ∈ ns, n.Tidy source

/-- If there is a type it is tidy and stands between the offsets behind a colon. -/
structure Node.StandsBehind (source : List Char) (lo : Nat) (type? : Option (Node Span)) (hi : Nat) :
    Prop where
  annotates : Annotates source lo type? hi
  tidy : ∀ t ∈ type?, t.Tidy source

variable {source : List Char} {lo lo' mid hi hi' : Nat} {k : Kind (Ident Span) (Node Span)}

namespace Node

theorem Annotates.of_le {type? : Option (Node Span)} (h : Annotates source lo type? hi) (hlo : lo' ≤ lo)
    (hhi : hi ≤ hi') : Annotates source lo' type? hi' :=
  ⟨h.1.of_le hlo hhi, fun t ht => (h.2 t ht).of_le hlo⟩

end Node

/-- However they are arranged, the children of a node follow one another. -/
theorem Kind.Arranged.row (h : k.Arranged source lo hi) :
    Node.Row lo (k.map Ident.toNode id).children hi := by
  have hjoin : ∀ {ns ms : List (Node Span)} {t? : Option (Node Span)},
      (∃ a b, Node.Row lo ns a ∧ Node.Annotates source a t? b ∧ Node.Row b ms hi) →
        Node.Row lo (ns ++ (t?.toList ++ ms)) hi := by
    rintro ns ms t? ⟨a, b, hns, ht, hms⟩
    rw [Node.Row, List.map_append, List.map_append]
    exact Span.Row.append hns (Span.Row.append ht.1 hms)
  cases k with
  | variableDeclaration n t i => simpa [Kind.map, Kind.children] using hjoin h
  | parameter n t i => simpa [Kind.map, Kind.children] using hjoin h
  | functionDeclaration n ps t body => simpa [Kind.map, Kind.children] using hjoin h
  | arrowFunction ps t body => simpa [Kind.map, Kind.children] using hjoin h
  | _ => exact h

/-- There is nothing to arrange where there are no children. -/
theorem Kind.arranged_of_children_eq_nil (hk : (k.map Ident.toNode id).children = []) (h : lo ≤ hi) :
    k.Arranged source lo hi := by
  have hrow : Node.Row lo (k.map Ident.toNode id).children hi := by
    rw [hk]
    exact h
  cases k with
  | variableDeclaration n t i => cases hk
  | parameter n t i => cases hk
  | functionDeclaration n ps t body => cases hk
  | arrowFunction ps t body => simp [Kind.map, Kind.children] at hk
  | _ => exact hrow

namespace Node

@[simp] theorem children_mk (l : Span) (k : Kind (Ident Span) (Node Span)) :
    (mk l k).children = (k.map Ident.toNode fun n => n).children :=
  rfl

theorem tidy_mk_iff {l : Span} :
    (mk l k).Tidy source ↔ (mk l k).Proper source ∧ ∀ c ∈ (mk l k).children, c.Tidy source := by
  constructor
  · intro h
    exact ⟨h _ (mk l k).mem_nodes_self, fun c hc m hm => h m (nodes_subset_of_mem_children hc hm)⟩
  · rintro ⟨hself, hbelow⟩ m hm
    rcases mem_nodes_iff.mp hm with hm | rfl
    · obtain ⟨c, hc, hm⟩ := mem_inner_iff.mp hm
      exact hbelow c hc m hm
    · exact hself

theorem Tidy.of_mem_nodes {n m : Node Span} (h : n.Tidy source) (hm : m ∈ n.nodes) : m.Tidy source :=
  fun _ hm' => h _ (nodes_subset_of_mem_nodes hm hm')

/-! ### Putting rows together -/

theorem stands_nil (h : lo ≤ hi) : Stands source lo [] hi := ⟨h, List.forall_mem_nil _⟩

theorem stands_singleton {n : Node Span} (hlo : lo ≤ n.label.start) (hhi : n.label.stop ≤ hi)
    (h : n.Tidy source) : Stands source lo [n] hi :=
  ⟨⟨hlo, (h n n.mem_nodes_self).lt, hhi⟩, List.forall_mem_singleton.mpr h⟩

namespace Stands

variable {ns ms : List (Node Span)} {n : Node Span}

theorem of_le (h : Stands source lo ns hi) (hlo : lo' ≤ lo) (hhi : hi ≤ hi') : Stands source lo' ns hi' :=
  ⟨h.row.of_le hlo hhi, h.tidy⟩

theorem append (h : Stands source lo ns mid) (h' : Stands source mid ms hi) :
    Stands source lo (ns ++ ms) hi := by
  refine ⟨?_, List.forall_mem_append.mpr ⟨h.tidy, h'.tidy⟩⟩
  rw [Row, List.map_append]
  exact Span.Row.append h.row h'.row

theorem cons (h : Stands source lo [n] mid) (h' : Stands source mid ns hi) :
    Stands source lo (n :: ns) hi :=
  h.append h'

theorem le (h : Stands source lo ns hi) : lo ≤ hi := h.row.le

theorem start_le (h : Stands source lo [n] hi) : lo ≤ n.label.start := h.row.1

theorem lt (h : Stands source lo (n :: ns) hi) : lo < hi :=
  Nat.lt_of_le_of_lt h.row.1 (Nat.lt_of_lt_of_le h.row.2.1 h.row.2.2.le)

/-- The node stands from its own start on. -/
theorem from_start (h : Stands source lo [n] hi) : Stands source n.label.start [n] hi :=
  ⟨⟨Nat.le_refl _, h.row.2⟩, h.tidy⟩

end Stands

namespace StandsBehind

variable {type? : Option (Node Span)}

theorem of_le (h : StandsBehind source lo type? hi) (hlo : lo' ≤ lo) (hhi : hi ≤ hi') :
    StandsBehind source lo' type? hi' :=
  ⟨h.annotates.of_le hlo hhi, h.tidy⟩

theorem stands (h : StandsBehind source lo type? hi) : Stands source lo type?.toList hi :=
  ⟨h.annotates.1, fun t ht => h.tidy t (Option.mem_toList.mp ht)⟩

end StandsBehind

theorem tidy_mk {l : Span} (harranged : k.Arranged source l.start l.stop) (hlt : l.start < l.stop)
    (hname : k.identifierText? = none) (htidy : ∀ c ∈ (mk l k).children, c.Tidy source) :
    (mk l k).Tidy source := by
  refine tidy_mk_iff.mpr ⟨⟨hlt, harranged, ?_⟩, htidy⟩
  rw [kind_mk, hname]
  exact nofun

/-- A node from its start to where the last token stops, around what is arranged there. -/
theorem stands_mk {start lastEnd : Nat} (harranged : k.Arranged source start lastEnd)
    (hlt : start < lastEnd) (hname : k.identifierText? = none)
    (htidy : ∀ c ∈ (mk ⟨start, lastEnd⟩ k).children, c.Tidy source) :
    Stands source start [mk ⟨start, max lastEnd start⟩ k] lastEnd := by
  rw [Nat.max_eq_left (Nat.le_of_lt hlt)]
  exact stands_singleton (Nat.le_refl start) (Nat.le_refl lastEnd) (tidy_mk harranged hlt hname htidy)

/-- A node from its start to where the last token stops, around a row. -/
theorem Stands.around {start lastEnd : Nat} {ns : List (Node Span)} (h : Stands source start ns lastEnd)
    (hlt : start < lastEnd) (hk : (Node.mk ⟨start, lastEnd⟩ k).children = ns)
    (harranged : k.Arranged source start lastEnd = Row start (Node.mk ⟨start, lastEnd⟩ k).children lastEnd)
    (hname : k.identifierText? = none) :
    Stands source start [Node.mk ⟨start, max lastEnd start⟩ k] lastEnd :=
  stands_mk (harranged ▸ hk ▸ h.row) hlt hname (hk ▸ h.tidy)

/-- A node around a name alone, with the place of the name. -/
theorem Stands.around_name {i : Ident Span} (h : Stands source lo [i.toNode] hi)
    (harranged : Row i.label.start [i.toNode] i.label.stop → k.Arranged source i.label.start i.label.stop)
    (hk : (Node.mk i.label k).children = [i.toNode]) (hname : k.identifierText? = none) :
    Stands source lo [Node.mk i.label k] hi := by
  have hlt : i.label.start < i.label.stop := h.row.2.1
  have hrow : Row i.label.start [i.toNode] i.label.stop := ⟨Nat.le_refl _, hlt, Nat.le_refl _⟩
  exact stands_singleton h.row.1 h.row.2.2 (tidy_mk (harranged hrow) hlt hname (hk ▸ h.tidy))

end Node

end Syntax

end ScriptAnalysis

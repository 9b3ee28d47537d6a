import ScriptAnalysis.Proofs.Ast.NodeMaps
import ScriptAnalysis.Proofs.Syntax.CleanNodes

/-!
# Where the nodes of a common tree stand

The places of a common tree are computed anew: parentheses vanish, a name extends over its ascription, and an
ascription starts at the last colon in front of its type. Still every node has its children inside it, one
after another (`nested_program`).
-/

namespace ScriptAnalysis

/-! ### Cutting text -/

namespace Text

variable {cs before xs ys : List Char} {c : Char} {n : Nat}

/-- What is taken is a leading part as long as it should be. -/
theorem exists_append_of_takeBytes (h : takeBytes n cs = some before) :
    ∃ after, cs = before ++ after ∧ byteLength before = n := by
  induction cs generalizing n before with
  | nil =>
    cases n with
    | zero => exact ⟨[], by cases h; rfl, by cases h; rfl⟩
    | succ n => cases h
  | cons c cs ih =>
    cases n with
    | zero => exact ⟨c :: cs, by cases h; rfl, by cases h; rfl⟩
    | succ n =>
      rw [takeBytes] at h
      split at h
      · obtain ⟨part, hpart, rfl⟩ := Option.map_eq_some_iff.mp h
        obtain ⟨after, rfl, hlength⟩ := ih hpart
        refine ⟨after, rfl, ?_⟩
        rw [byteLength_cons, hlength]
        omega
      · cases h

/-- Blank characters are cut off behind the last one that is not blank. -/
theorem trimEnd_append_cons (hc : isBlank c = false) :
    trimEnd (xs ++ c :: ys) = xs ++ c :: trimEnd ys := by
  have hstop : (c :: xs.reverse).dropWhile isBlank = c :: xs.reverse :=
    List.dropWhile_cons_of_neg (by rw [hc]; exact Bool.false_ne_true)
  simp only [trimEnd, List.reverse_append, List.reverse_cons, List.append_assoc, List.singleton_append,
    List.dropWhile_append]
  split
  · rename_i hempty
    rw [hstop, List.isEmpty_iff.mp hempty]
    simp
  · simp

theorem byteLength_trimEnd_le (cs : List Char) : byteLength (trimEnd cs) ≤ byteLength cs := by
  have hsplit := List.takeWhile_append_dropWhile (p := isBlank) (l := cs.reverse)
  have hcs : trimEnd cs ++ (cs.reverse.takeWhile isBlank).reverse = cs := by
    rw [trimEnd, ← List.reverse_append, hsplit, List.reverse_reverse]
  calc byteLength (trimEnd cs)
      ≤ byteLength (trimEnd cs) + byteLength (cs.reverse.takeWhile isBlank).reverse := Nat.le_add_right ..
    _ = byteLength cs := by rw [← byteLength_append, hcs]

end Text

namespace Ast

open Text
open Syntax (ColonBetween)

variable {source : List Char} {lo lo' mid hi hi' offset : Nat}

/-! ### Where an ascription starts -/

theorem ascriptionStart_le (source : List Char) (offset : Nat) : ascriptionStart source offset ≤ offset := by
  unfold ascriptionStart
  split
  · exact Nat.le_refl _
  · rename_i before hbefore
    obtain ⟨-, -, hlength⟩ := exists_append_of_takeBytes hbefore
    have hle := byteLength_trimEnd_le before
    dsimp only
    split <;> omega

/-- An ascription does not start before the colon in front of its type. -/
theorem le_ascriptionStart (h : ColonBetween source lo offset) : lo ≤ ascriptionStart source offset := by
  obtain ⟨front, back, hsource, hlo, hlt⟩ := h
  unfold ascriptionStart
  split
  · omega
  · rename_i before hbefore
    obtain ⟨after, hafter, hlength⟩ := exists_append_of_takeBytes hbefore
    -- the colon is one of the characters in front of the type
    have hsize : (':' : Char).utf8Size = 1 := by decide
    have hboth : (front ++ [':']) ++ back = before ++ after := by
      rw [List.append_assoc, List.singleton_append, ← hsource, hafter]
    have hle : byteLength (front ++ [':']) ≤ byteLength before := by
      rw [byteLength_append, byteLength_cons, byteLength_nil, hsize, hlength]
      omega
    obtain ⟨middle, rfl⟩ := exists_middle hboth hle
    rw [List.append_assoc, List.singleton_append]
    have htrim : byteLength (trimEnd (front ++ ':' :: middle)) =
        byteLength front + ((':' : Char).utf8Size + byteLength (trimEnd middle)) := by
      rw [trimEnd_append_cons (by decide), byteLength_append, byteLength_cons]
    dsimp only
    split <;> omega

/-! ### Nodes in a row -/

namespace Node

variable {α β : Type} {f : α → Span}

/-- Every node of the tree has its children inside it, one after another. -/
def Nested (f : α → Span) (n : Node α) : Prop :=
  ∀ m ∈ n.nodes, Span.Row (f m.label).start (m.children.map fun c => f c.label) (f m.label).stop

/-- The nodes follow one another between two offsets, and all of them are nested. -/
structure Stands (f : α → Span) (lo : Nat) (ns : List (Node α)) (hi : Nat) : Prop where
  row : Span.Row lo (ns.map fun n => f n.label) hi
  nested : ∀ n ∈ ns, n.Nested f

theorem nested_iff {n : Node α} : n.Nested f ↔
    Span.Row (f n.label).start (n.children.map fun c => f c.label) (f n.label).stop ∧
      ∀ c ∈ n.children, c.Nested f := by
  constructor
  · exact fun h => ⟨h n n.mem_nodes_self, fun c hc m hm => h m (nodes_subset_of_mem_children hc hm)⟩
  · rintro ⟨hself, hbelow⟩ m hm
    rcases mem_nodes_iff.mp hm with hm | rfl
    · obtain ⟨c, hc, hm⟩ := mem_inner_iff.mp hm
      exact hbelow c hc m hm
    · exact hself

theorem nested_map (g : β → α) (n : Node β) : (n.map g).Nested f ↔ n.Nested fun l => f (g l) := by
  simp only [Nested, nodes_map, List.forall_mem_map, children_map, List.map_map, label_map,
    Function.comp_def]

namespace Stands

variable {ns ms : List (Node α)} {n : Node α}

theorem of_le (h : Stands f lo ns hi) (hlo : lo' ≤ lo) (hhi : hi ≤ hi') : Stands f lo' ns hi' :=
  ⟨h.row.of_le hlo hhi, h.nested⟩

theorem append (h : Stands f lo ns mid) (h' : Stands f mid ms hi) : Stands f lo (ns ++ ms) hi := by
  refine ⟨?_, List.forall_mem_append.mpr ⟨h.nested, h'.nested⟩⟩
  rw [List.map_append]
  exact h.row.append h'.row

theorem cons (h : Stands f lo [n] mid) (h' : Stands f mid ns hi) : Stands f lo (n :: ns) hi := h.append h'

theorem of_children (h : Stands f (f n.label).start n.children (f n.label).stop) : n.Nested f :=
  nested_iff.mpr ⟨h.row, h.nested⟩

/-- A node around what stands inside it. -/
theorem around (h : Stands f (f n.label).start n.children (f n.label).stop)
    (hlt : (f n.label).start < (f n.label).stop) : Stands f (f n.label).start [n] (f n.label).stop :=
  ⟨⟨Nat.le_refl _, hlt, Nat.le_refl _⟩, List.forall_mem_singleton.mpr h.of_children⟩

end Stands

theorem stands_nil (h : lo ≤ hi) : Stands f lo [] hi := ⟨h, List.forall_mem_nil _⟩

end Node

/-! ### The change of shape -/

/-- In the text the nodes follow one another between two offsets, and all of them are tidy. -/
def Sits (source : List Char) (lo : Nat) (ns : List (Syntax.Node Syntax.Place)) (hi : Nat) : Prop :=
  Syntax.Node.Stands source lo (ns.map (Syntax.Node.map Syntax.Place.span)) hi

/-- Where the node stands in the text, what it becomes stands in the common tree. -/
def Converts (source : List Char) (n : Syntax.Node Syntax.Place) : Prop :=
  ∀ lo hi, Sits source lo [n] hi → Node.Stands Origin.span lo [convert source n] hi

variable {n : Syntax.Node Syntax.Place} {ns : List (Syntax.Node Syntax.Place)}

theorem row_map_span_iff :
    Syntax.Node.Row lo [n.map Syntax.Place.span] hi ↔
      lo ≤ n.span.start ∧ n.span.start < n.span.stop ∧ n.span.stop ≤ hi := by
  rw [Syntax.Node.Row, List.map_singleton, Syntax.Node.label_map]
  exact Iff.rfl

theorem Sits.uncons (h : Sits source lo (n :: ns) hi) :
    Sits source lo [n] n.span.stop ∧ Sits source n.span.stop ns hi := by
  obtain ⟨⟨hlo, hlt, hrest⟩, htidy⟩ := h
  rw [Syntax.Node.label_map] at hlo hlt hrest
  obtain ⟨hn, hns⟩ := List.forall_mem_cons.mp htidy
  exact ⟨⟨row_map_span_iff.mpr ⟨hlo, hlt, Nat.le_refl _⟩, List.forall_mem_singleton.mpr hn⟩, hrest, hns⟩

/-- What is inside a node that sits in the text. -/
theorem Sits.inside (h : Sits source lo [n] hi) : lo ≤ n.span.start ∧ n.span.start < n.span.stop ∧
    n.span.stop ≤ hi ∧
    (n.kind.map (Syntax.Ident.map Syntax.Place.span) (Syntax.Node.map Syntax.Place.span)).Arranged source
      n.span.start n.span.stop ∧
    Sits source n.span.start n.children n.span.stop := by
  obtain ⟨hlo, hlt, hhi⟩ := row_map_span_iff.mp h.row
  have htidy := h.tidy _ List.mem_cons_self
  obtain ⟨p, k⟩ := n
  rw [Syntax.Node.map_mk] at htidy
  obtain ⟨hproper, hbelow⟩ := Syntax.Node.tidy_mk_iff.mp htidy
  have hrow := hproper.arranged.row
  rw [← Syntax.Node.map_mk, Syntax.Node.children_map] at hbelow
  refine ⟨hlo, hlt, hhi, hproper.arranged, ?_, hbelow⟩
  rw [← Syntax.Node.children_map, Syntax.Node.map_mk]
  exact hrow

theorem stands_map_convert (hns : ∀ n ∈ ns, Converts source n) (h : Sits source lo ns hi) :
    Node.Stands Origin.span lo (ns.map (convert source)) hi := by
  induction ns generalizing lo with
  | nil => exact Node.stands_nil h.row
  | cons n ns ih =>
    obtain ⟨hn, hrest⟩ := h.uncons
    obtain ⟨hconverts, hns⟩ := List.forall_mem_cons.mp hns
    exact (hconverts _ _ hn).cons (ih hns hrest)

/-- Whether the children of a node are those of what it becomes: parentheses vanish, and annotations
change. -/
def keepsChildren {ν β : Type} : Syntax.Kind ν β → Bool
  | .variableDeclaration .. | .parameter .. | .functionDeclaration .. | .arrowFunction .. | .parenthesized _ => false
  | _ => true

theorem children_convert (source : List Char) (h : keepsChildren n.kind = true) :
    (convert source n).label = .ofPlace n.label ∧
      (convert source n).children = n.children.map (convert source) := by
  obtain ⟨p, k⟩ := n
  have hname : ∀ i : Syntax.Ident Syntax.Place, convert source i.toNode = (plainName i).toNode := fun _ => rfl
  cases k
  case variableDeclaration | parameter | functionDeclaration | arrowFunction | parenthesized => cases h
  all_goals
    refine ⟨rfl, ?_⟩
    simp [convert, convertKind, convertList_eq_map, convertOption_eq_map, Node.children, Node.shape, Kind.map,
      Kind.children, Syntax.Node.children, Syntax.Node.shape, Syntax.Kind.map, Syntax.Kind.children, hname,
      Option.toList_map]

/-- What stands behind its colon in the text stands inside its ascription. -/
theorem stands_convertAscription {t? : Option (Syntax.Node Syntax.Place)}
    (ht : ∀ t ∈ t?, Converts source t)
    (h : Syntax.Node.Annotates source lo (t?.map (Syntax.Node.map Syntax.Place.span)) hi)
    (htidy : ∀ t ∈ t?, (t.map Syntax.Place.span).Tidy source) :
    Node.Stands Origin.span lo (convertAscription source t?).toList hi := by
  cases t? with
  | none => exact Node.stands_nil h.1
  | some t =>
    obtain ⟨-, hlt, hhi⟩ := row_map_span_iff.mp h.1
    have hcolon := (h.2 _ rfl).colonBetween
    rw [Syntax.Node.label_map] at hcolon
    have hlo : lo ≤ ascriptionStart source t.span.start := le_ascriptionStart hcolon
    have hle := ascriptionStart_le source t.span.start
    have hsits : Sits source t.span.start [t] t.span.stop :=
      ⟨row_map_span_iff.mpr ⟨Nat.le_refl _, hlt, Nat.le_refl _⟩, List.forall_mem_singleton.mpr (htidy t rfl)⟩
    have htype := ht t rfl _ _ hsits
    obtain ⟨p, k⟩ := t
    have hinside : Node.Stands Origin.span (ascriptionStart source p.span.start) [convertKind source p k]
        p.span.stop := htype.of_le hle (Nat.le_refl _)
    have hascription := Node.Stands.around (f := Origin.span)
      (n := .mk ⟨p.id, ascriptionStart source p.span.start, p.span.stop⟩ (.ascription (convertKind source p k)))
      hinside (Nat.lt_of_le_of_lt hle hlt)
    exact hascription.of_le hlo hhi

/-- A name extends over its ascription. -/
theorem stands_ascribedName {i : Syntax.Ident Syntax.Place} {t? : Option (Syntax.Node Syntax.Place)}
    (hname : Syntax.Node.Row lo [(i.map Syntax.Place.span).toNode] mid) (ht : ∀ t ∈ t?, Converts source t)
    (h : Syntax.Node.Annotates source mid (t?.map (Syntax.Node.map Syntax.Place.span)) hi)
    (htidy : ∀ t ∈ t?, (t.map Syntax.Place.span).Tidy source) :
    Node.Stands Origin.span lo [(ascribedName i t? (convertAscription source t?)).toNode] hi := by
  obtain ⟨hlo, hlt, hhi⟩ : lo ≤ i.span.start ∧ i.span.start < i.span.stop ∧ i.span.stop ≤ mid := hname
  cases t? with
  | none =>
    have hle : mid ≤ hi := h.1
    have hself := Node.Stands.around (f := Origin.span) (n := (plainName i).toNode)
      (Node.stands_nil (Nat.le_of_lt hlt)) hlt
    exact hself.of_le hlo (Nat.le_trans hhi hle)
  | some t =>
    obtain ⟨hstart, hcovers, hstop⟩ := row_map_span_iff.mp h.1
    have hmerge : i.span.merge t.span = ⟨i.span.start, t.span.stop⟩ := by
      have hmin : min i.span.start t.span.start = i.span.start := Nat.min_eq_left (by omega)
      have hmax : max i.span.stop t.span.stop = t.span.stop := Nat.max_eq_right (by omega)
      rw [Span.merge, hmin, hmax]
    have hascription := stands_convertAscription ht
      ⟨row_map_span_iff.mpr ⟨hstart, hcovers, Nat.le_refl _⟩, h.2⟩ htidy
    have hinside : Node.Stands Origin.span (i.span.merge t.span).start (convertAscription source (some t)).toList
        (i.span.merge t.span).stop := by
      rw [hmerge]
      exact hascription.of_le (Nat.le_of_lt (Nat.lt_of_lt_of_le hlt hhi)) (Nat.le_refl _)
    have hself : Node.Stands Origin.span (i.span.merge t.span).start
        [(ascribedName i (some t) (convertAscription source (some t))).toNode] (i.span.merge t.span).stop := by
      obtain ⟨p, k⟩ := t
      refine Node.Stands.around (f := Origin.span)
        (n := (ascribedName i (some (.mk p k)) (convertAscription source (some (.mk p k)))).toNode) hinside ?_
      show (i.span.merge _).start < (i.span.merge _).stop
      rw [hmerge]
      show i.span.start < p.span.stop
      exact Nat.lt_trans (Nat.lt_of_lt_of_le hlt (Nat.le_trans hhi hstart)) hcovers
    rw [hmerge] at hself
    exact hself.of_le hlo hstop

theorem stands_convertOption {e? : Option (Syntax.Node Syntax.Place)} (he : ∀ e ∈ e?, Converts source e)
    (h : Syntax.Node.Row lo (e?.map (Syntax.Node.map Syntax.Place.span)).toList hi)
    (htidy : ∀ e ∈ e?, (e.map Syntax.Place.span).Tidy source) :
    Node.Stands Origin.span lo (convertOption source e?).toList hi := by
  rw [convertOption_eq_map, Option.toList_map]
  refine stands_map_convert (fun e hmem => he e (Option.mem_toList.mp hmem)) ⟨Option.toList_map .. ▸ h, ?_⟩
  rw [List.forall_mem_map]
  exact fun e hmem => htidy e (Option.mem_toList.mp hmem)

/-- A node of the common tree around what stands inside it. -/
theorem stands_around {o : Origin} {k : Kind (Name Origin (Node Origin)) (Node Origin)} {ms : List (Node Origin)}
    (h : Node.Stands Origin.span o.span.start ms o.span.stop) (hlt : o.span.start < o.span.stop)
    (hk : (Node.mk o k).children = ms) :
    Node.Stands Origin.span o.span.start [.mk o k] o.span.stop :=
  Node.Stands.around (f := Origin.span) (n := .mk o k) (hk ▸ h) hlt

/-- What follows from what stands inside a node for what it becomes. -/
theorem converts_mk {p : Syntax.Place} {k : Syntax.Kind (Syntax.Ident Syntax.Place) (Syntax.Node Syntax.Place)}
    (ih : ∀ c ∈ (Syntax.Node.mk p k).children, Converts source c)
    (htidy : ∀ c ∈ (Syntax.Node.mk p k).children, (c.map Syntax.Place.span).Tidy source)
    (harranged : (k.map (Syntax.Ident.map Syntax.Place.span) (Syntax.Node.map Syntax.Place.span)).Arranged source
      p.span.start p.span.stop)
    (hlt : p.span.start < p.span.stop) (hkeeps : keepsChildren k = false) :
    Node.Stands Origin.span p.span.start [convert source (.mk p k)] p.span.stop := by
  cases k with
  | variableDeclaration i t? e? =>
    obtain ⟨a, b, hname, htype, hinit⟩ := harranged
    simp [Syntax.Node.children, Syntax.Node.shape, Syntax.Kind.map, Syntax.Kind.children, or_imp,
      forall_and] at ih htidy
    have hname := stands_ascribedName hname ih.2.1 htype htidy.2.1
    have hinit := stands_convertOption ih.2.2 hinit htidy.2.2
    exact stands_around (o := .ofPlace p) (hname.cons hinit) hlt (by simp [Node.children, Node.shape,
      Kind.map, Kind.children])
  | parameter i t? e? =>
    obtain ⟨a, b, hname, htype, hinit⟩ := harranged
    simp [Syntax.Node.children, Syntax.Node.shape, Syntax.Kind.map, Syntax.Kind.children, or_imp,
      forall_and] at ih htidy
    have hname := stands_ascribedName hname ih.2.1 htype htidy.2.1
    have hinit := stands_convertOption ih.2.2 hinit htidy.2.2
    cases e? with
    | none => exact hname.of_le (Nat.le_refl _) hinit.row
    | some e => exact stands_around (o := .ofPlace p) (hname.cons hinit) hlt rfl
  | functionDeclaration i ps t? body =>
    obtain ⟨a, b, hfront, htype, hbody⟩ := harranged
    simp [Syntax.Node.children, Syntax.Node.shape, Syntax.Kind.map, Syntax.Kind.children, or_imp,
      forall_and] at ih htidy
    have hfront : Sits source p.span.start (i.toNode :: ps) a := by
      refine ⟨?_, List.forall_mem_map.mpr (List.forall_mem_cons.mpr ⟨htidy.1, htidy.2.1⟩)⟩
      rw [List.map_cons, Syntax.Node.map_toNode]
      exact hfront
    have hfront := stands_map_convert (List.forall_mem_cons.mpr ⟨ih.1, ih.2.1⟩) hfront
    have htype := stands_convertAscription ih.2.2.1 htype htidy.2.2.1
    have hbody := ih.2.2.2 _ _ ⟨hbody, List.forall_mem_singleton.mpr htidy.2.2.2⟩
    refine stands_around (o := .ofPlace p) (hfront.append (htype.append hbody)) hlt ?_
    simp [Node.children, Node.shape, Kind.map, Kind.children, convertList_eq_map]
    rfl
  | arrowFunction ps t? body =>
    obtain ⟨a, b, hfront, htype, hbody⟩ := harranged
    simp [Syntax.Node.children, Syntax.Node.shape, Syntax.Kind.map, Syntax.Kind.children, or_imp,
      forall_and] at ih htidy
    have hfront := stands_map_convert ih.1 ⟨hfront, List.forall_mem_map.mpr htidy.1⟩
    have htype := stands_convertAscription ih.2.1 htype htidy.2.1
    have hbody := ih.2.2 _ _ ⟨hbody, List.forall_mem_singleton.mpr htidy.2.2⟩
    refine stands_around (o := .ofPlace p) (hfront.append (htype.append hbody)) hlt ?_
    simp [Node.children, Node.shape, Kind.map, Kind.children, convertList_eq_map]
  | parenthesized e =>
    simp [Syntax.Node.children, Syntax.Node.shape, Syntax.Kind.map, Syntax.Kind.children] at ih htidy
    exact ih _ _ ⟨harranged, List.forall_mem_singleton.mpr htidy⟩
  | _ => cases hkeeps

theorem converts (n : Syntax.Node Syntax.Place) : Converts source n := by
  induction n using Syntax.Node.induction_children with
  | h n ih =>
    intro lo hi h
    obtain ⟨hlo, hlt, hhi, harranged, hinside⟩ := h.inside
    cases hkeeps : keepsChildren n.kind with
    | false =>
      obtain ⟨p, k⟩ := n
      exact (converts_mk ih (List.forall_mem_map.mp hinside.tidy) harranged hlt hkeeps).of_le hlo hhi
    | true =>
      obtain ⟨hlabel, hchildren⟩ := children_convert source hkeeps
      have hbelow := stands_map_convert ih hinside
      have hspan : Origin.span (convert source n).label = n.span := congrArg Origin.span hlabel
      have hself := Node.Stands.around (f := Origin.span) (n := convert source n)
        (by rw [hspan, hchildren]; exact hbelow) (by rw [hspan]; exact hlt)
      rw [hspan] at hself
      exact hself.of_le hlo hhi

/-! ### The program -/

theorem children_program (t : Syntax.Tree) :
    (program t).children = t.statements.map (convert t.text.toList) := by
  rw [← convertList_eq_map]
  exact List.map_id _

/-- The program reaches from the first token, or from the end of the text, to the end of the text. -/
theorem span_program (fileName text : String) :
    (program (.parse fileName text)).label.span =
      ⟨(Syntax.Parser.State.initial (.ofChars text.toList)).offset, byteLength text.toList⟩ := by
  show Span.mk (((TokenStream.ofChars text.toList).tokens.head?.map (·.span.start)).getD
    (byteLength text.toList)) (byteLength text.toList) = _
  rw [Syntax.Parser.State.offset, Syntax.Parser.State.current, Syntax.Parser.State.peek,
    Syntax.Parser.State.initial]
  cases (TokenStream.ofChars text.toList).tokens with
  | nil =>
    show Span.mk (byteLength text.toList) _ = ⟨(TokenStream.ofChars text.toList).ending.span.start, _⟩
    rw [TokenStream.span_ending_ofChars]
    rfl
  | cons token rest => rfl

/-- The statements of a file without errors sit in its text from the first token on. -/
theorem sits_statements {fileName text : String} (herrors : (Syntax.Tree.parse fileName text).errors = []) :
    Sits text.toList (Syntax.Parser.State.initial (.ofChars text.toList)).offset
      (Syntax.Tree.parse fileName text).statements (byteLength text.toList) :=
  Syntax.Tree.stands_statements herrors

/-- **What a file without errors becomes is nested**: from the program down, children stand inside their
parents one after another. -/
theorem nested_program {fileName text : String} (herrors : (Syntax.Tree.parse fileName text).errors = []) :
    (program (.parse fileName text)).Nested Origin.span := by
  have htext : (Syntax.Tree.parse fileName text).text = text := rfl
  refine Node.Stands.of_children ?_
  rw [span_program, children_program, htext]
  exact stands_map_convert (fun n _ => converts n) (sits_statements herrors)

end Ast

end ScriptAnalysis

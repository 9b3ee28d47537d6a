import Mathlib.Data.List.Nodup
import ScriptAnalysis.Proofs.Ast.Numbers
import ScriptAnalysis.Proofs.Syntax.Parsed

/-!
# The maps between both trees

A conversion loses no node and makes up none: every node of the file's tree is one node of the common tree,
apart from parentheses and plain parameters, which vanish, and every node of the common tree that is no
ascription is one of these (`perm_proper_convert`). What was inside a node stays inside it
(`exists_image_inner`). So both maps of a conversion undo each other and keep what is above what
(`exact_ofTree`).
-/

namespace ScriptAnalysis

/-! ### Nodes that become nodes of the common tree -/

namespace Syntax

/-- Whether a node of the file's tree becomes a node of the common tree: parentheses vanish, and a parameter
without a default value is no more than its name. -/
def Kind.hasImage {ν β : Type} : Kind ν β → Bool
  | parenthesized _ | parameter _ _ none => false
  | _ => true

/-- The type that is written behind a colon. -/
def Kind.annotation? {ν β : Type} : Kind ν β → Option β
  | variableDeclaration _ type? _ | parameter _ type? _ | functionDeclaration _ _ type? _
  | arrowFunction _ type? _ => type?
  | _ => none

namespace Node

variable {α : Type}

/-- The labels of the nodes that become nodes of the common tree. -/
def imaged (n : Node α) : List α := (n.nodes.filter (·.kind.hasImage)).map label

theorem imaged_eq (n : Node α) :
    n.imaged = (n.children.map imaged).flatten ++ if n.kind.hasImage then [n.label] else [] := by
  rw [imaged, nodes_eq, List.filter_append, List.map_append, List.filter_flatten, List.map_flatten,
    List.map_map, List.map_map, List.filter_cons, List.filter_nil]
  congr 1
  split <;> rfl

theorem mem_imaged_iff {n : Node α} {l : α} :
    l ∈ n.imaged ↔ ∃ m ∈ n.nodes, m.kind.hasImage = true ∧ m.label = l := by
  simp only [imaged, List.mem_map, List.mem_filter, and_assoc]

@[simp] theorem imaged_mk (l : α) (k : Kind (Ident α) (Node α)) :
    (mk l k).imaged =
      (k.map (fun i => [i.label]) imaged).children.flatten ++ if k.hasImage then [l] else [] := by
  rw [imaged_eq, children, ← Kind.children_map, shape, Kind.map_map]
  rfl

end Node

end Syntax

namespace Ast

open Syntax (Kind.hasImage)

namespace Node

variable {α β : Type}

/-- The labels of the nodes that are no ascriptions. -/
def proper (n : Node α) : List α := (n.nodes.filter (!·.kind.isAscription)).map label

theorem proper_eq (n : Node α) :
    n.proper = (n.children.map proper).flatten ++ if n.kind.isAscription then [] else [n.label] := by
  rw [proper, nodes_eq, List.filter_append, List.map_append, List.filter_flatten, List.map_flatten,
    List.map_map, List.map_map, List.filter_cons, List.filter_nil]
  congr 1
  cases n.kind.isAscription <;> rfl

theorem mem_proper_iff {n : Node α} {l : α} :
    l ∈ n.proper ↔ ∃ m ∈ n.nodes, m.kind.isAscription = false ∧ m.label = l := by
  simp only [proper, List.mem_map, List.mem_filter, and_assoc, Bool.not_eq_true']

theorem nodes_mk (l : α) (k : Kind (Name α (Node α)) (Node α)) :
    (mk l k).nodes = (k.map (fun n => n.toNode.nodes) nodes).children.flatten ++ [mk l k] := by
  rw [nodes_eq, children, ← Kind.children_map, shape, Kind.map_map]
  rfl

theorem nodes_toNode (n : Name α (Node α)) :
    n.toNode.nodes = (n.ascription?.map nodes).toList.flatten ++ [n.toNode] := by
  rw [Name.toNode, nodes_mk]
  rfl

@[simp] theorem proper_mk (l : α) (k : Kind (Name α (Node α)) (Node α)) :
    (mk l k).proper = (k.map (fun n => n.toNode.proper) proper).children.flatten ++
      if k.isAscription then [] else [l] := by
  rw [proper_eq, children, ← Kind.children_map, shape, Kind.map_map]
  rfl

@[simp] theorem proper_toNode (n : Name α (Node α)) :
    n.toNode.proper = (n.ascription?.map proper).toList.flatten ++ [n.label] := by
  rw [Name.toNode, proper_mk]
  rfl

theorem proper_map (f : α → β) (n : Node α) : (n.map f).proper = n.proper.map f := by
  rw [proper, nodes_map, List.filter_map, List.map_map, proper, List.map_map]
  congr 1
  · exact funext fun m => label_map f m
  · congr 1
    exact funext fun m => by simp only [Function.comp_apply, isAscription_map]

end Node

section

variable (source : List Char)

section

variable (i : Syntax.NodeId)

mutual

theorem count_convert : (n : Syntax.Node Syntax.Place) →
    ((convert source n).proper.map Origin.node).count i = (n.imaged.map Syntax.Place.id).count i
  | .mk p k => by
    rw [convert]
    exact count_convertKind p k

theorem count_convertKind (p : Syntax.Place)
    (k : Syntax.Kind (Syntax.Ident Syntax.Place) (Syntax.Node Syntax.Place)) :
    ((convertKind source p k).proper.map Origin.node).count i =
      ((Syntax.Node.mk p k).imaged.map Syntax.Place.id).count i := by
  -- names come before their types in one tree and behind them in the other
  cases k
  case' parameter default? => cases default?
  all_goals
    simp [-List.map_flatten, convertKind, plainName, ascribedName, Kind.map, Kind.children, Kind.isAscription,
      Syntax.Kind.map, Syntax.Kind.children, Kind.hasImage, Origin.ofPlace, Syntax.Ident.id, List.count_cons,
      count_convert, count_convertAscription, count_convertList, count_convertOption]
  all_goals omega

theorem count_convertAscription : (t? : Option (Syntax.Node Syntax.Place)) →
    (((convertAscription source t?).map Node.proper).toList.flatten.map Origin.node).count i =
      ((t?.map Syntax.Node.imaged).toList.flatten.map Syntax.Place.id).count i
  | none => rfl
  | some (.mk p k) => by
    have h := count_convertKind p k
    rw [convertAscription]
    simpa [Kind.map, Kind.children, Kind.isAscription] using h

theorem count_convertList : (ns : List (Syntax.Node Syntax.Place)) →
    (((convertList source ns).map Node.proper).flatten.map Origin.node).count i =
      ((ns.map Syntax.Node.imaged).flatten.map Syntax.Place.id).count i
  | [] => rfl
  | n :: ns => by
    have hn := count_convert n
    have hns := count_convertList ns
    rw [convertList]
    simp only [List.map_cons, List.flatten_cons, List.map_append, List.count_append, hn, hns]

theorem count_convertOption : (n? : Option (Syntax.Node Syntax.Place)) →
    (((convertOption source n?).map Node.proper).toList.flatten.map Origin.node).count i =
      ((n?.map Syntax.Node.imaged).toList.flatten.map Syntax.Place.id).count i
  | none => rfl
  | some n => by
    have hn := count_convert n
    simpa [convertOption] using hn

end

end

/-- **Nothing is lost and nothing is made up.** The nodes that are no ascriptions come from the nodes that
become nodes of the common tree, one from each. -/
theorem perm_proper_convert (n : Syntax.Node Syntax.Place) :
    ((convert source n).proper.map Origin.node).Perm (n.imaged.map Syntax.Place.id) :=
  List.perm_iff_count.mpr fun i => count_convert source i n

/-! ### What was inside a node stays inside -/

theorem convertList_eq_map (ns : List (Syntax.Node Syntax.Place)) :
    convertList source ns = ns.map (convert source) := by
  induction ns with
  | nil => rfl
  | cons n ns ih => rw [convertList, ih, List.map_cons]

theorem convertOption_eq_map (n? : Option (Syntax.Node Syntax.Place)) :
    convertOption source n? = n?.map (convert source) := by
  cases n? <;> rfl

theorem of_mem_labels_convertAscription {t? : Option (Syntax.Node Syntax.Place)} {a : Node Origin}
    (h : convertAscription source t? = some a) {o : Origin} (ho : o ∈ a.labels) :
    ∃ t, t? = some t ∧ (o ∈ (convert source t).labels ∨ ∃ l ∈ t.labels, l.id = o.node) := by
  cases t? with
  | none => cases h
  | some t =>
    obtain ⟨p, k⟩ := t
    cases h
    rw [Node.labels_mk, List.mem_append, List.mem_singleton] at ho
    refine ⟨_, rfl, ho.imp (fun ho => ?_) fun ho => ⟨p, by simp, (congrArg Origin.node ho).symm⟩⟩
    rw [convert]
    simpa [Node.labelsBelow, Kind.map, Kind.children] using ho

/-- Everything comes from a node of the tree, ascriptions too. -/
theorem exists_label_of_mem_labels_convert (n : Syntax.Node Syntax.Place) {o : Origin}
    (h : o ∈ (convert source n).labels) : ∃ l ∈ n.labels, l.id = o.node := by
  induction n using Syntax.Node.induction_children with
  | h n ih =>
    have hascription : ∀ t? a, convertAscription source t? = some a → o ∈ a.labels → ∃ t, t? = some t ∧
        (o ∈ (convert source t).labels ∨ ∃ l ∈ t.labels, l.id = o.node) :=
      fun _ _ h ho => of_mem_labels_convertAscription source h ho
    obtain ⟨p, k⟩ := n
    cases k
    case' parameter default? => cases default?
    all_goals
      simp [Syntax.Node.children, Syntax.Node.shape, Syntax.Kind.map, Syntax.Kind.children] at ih
      simp [convert, convertKind, plainName, ascribedName, Node.labelsBelow, Kind.map, Kind.children,
        convertList_eq_map, convertOption_eq_map, Origin.ofPlace] at h
      simp [Syntax.Node.labelsBelow, Syntax.Kind.map, Syntax.Kind.children]
    all_goals grind [Syntax.Ident.id]

theorem label_convert {n : Syntax.Node Syntax.Place} (h : n.kind.hasImage = true) :
    (convert source n).label = .ofPlace n.label ∧ (convert source n).kind.isAscription = false := by
  obtain ⟨p, k⟩ := n
  cases k
  case' parameter default? => cases default?
  all_goals first | exact ⟨rfl, rfl⟩ | cases h

/-- The nodes inside a node become the nodes inside what it becomes. -/
theorem perm_inner_convert {n : Syntax.Node Syntax.Place} (h : n.kind.hasImage = true) :
    (((convert source n).children.map Node.proper).flatten.map Origin.node).Perm
      ((n.children.map Syntax.Node.imaged).flatten.map Syntax.Place.id) := by
  obtain ⟨hlabel, hproper⟩ := label_convert source h
  have hperm := perm_proper_convert source n
  rw [Node.proper_eq, Syntax.Node.imaged_eq, hproper, h, hlabel, List.map_append, List.map_append] at hperm
  exact (List.perm_append_right_iff _).mp hperm

theorem convert_mem_nodes_convertAscription {t? : Option (Syntax.Node Syntax.Place)}
    {t : Syntax.Node Syntax.Place} (h : t? = some t) :
    ∃ a, convertAscription source t? = some a ∧ convert source t ∈ a.nodes := by
  obtain ⟨p, k⟩ := t
  subst h
  exact ⟨_, rfl, Node.nodes_subset_of_mem_children List.mem_cons_self (Node.mem_nodes_self _)⟩

/-- A child that is no name becomes a node of what its parent becomes. -/
theorem convert_mem_nodes_of_mem_children {n c : Syntax.Node Syntax.Place} (hc : c ∈ n.children)
    (hname : c.kind.identifierText? = none) : convert source c ∈ (convert source n).nodes := by
  obtain ⟨p, k⟩ := n
  have hself := (convert source c).mem_nodes_self
  have hascription : ∀ t?, t? = some c →
      ∃ a, convertAscription source t? = some a ∧ convert source c ∈ a.nodes :=
    fun _ h => convert_mem_nodes_convertAscription source h
  have hident : ∀ i : Syntax.Ident Syntax.Place, c ≠ i.toNode := by
    rintro i rfl
    cases hname
  cases k
  case' parameter default? => cases default?
  all_goals
    simp only [Syntax.Node.children, Syntax.Node.shape, Syntax.Kind.map, Syntax.Kind.children,
      Syntax.Node.kind_mk, List.mem_cons, List.mem_append, Option.mem_toList, List.map_id, Option.map_id,
      List.not_mem_nil, hident, false_or, or_false, id_eq] at hc
  all_goals
    simp [convert, convertKind, Node.nodes_mk, Node.nodes_toNode, Kind.map, Kind.children, convertList_eq_map,
      convertOption_eq_map, ascribedName, plainName]
  all_goals grind

/-- A node of a tree that is no name becomes a node of what the tree becomes. -/
theorem convert_mem_nodes {n m : Syntax.Node Syntax.Place} (hm : m ∈ n.nodes)
    (hname : m.kind.identifierText? = none) : convert source m ∈ (convert source n).nodes := by
  induction n using Syntax.Node.induction_children with
  | h n ih =>
    rcases Syntax.Node.mem_nodes_iff.mp hm with hm | rfl
    · obtain ⟨c, hc, hm⟩ := Syntax.Node.mem_inner_iff.mp hm
      have hcname : c.kind.identifierText? = none := by
        obtain ⟨p, k⟩ := c
        cases k <;> first | rfl | skip
        -- a name has no other nodes
        rw [List.mem_singleton.mp hm] at hname
        cases hname
      exact Node.nodes_subset_of_mem_nodes (convert_mem_nodes_of_mem_children source hc hcname) (ih c hc hm)
    · exact Node.mem_nodes_self _

theorem convertAscription_some (t : Syntax.Node Syntax.Place) :
    convertAscription source (some t) =
      some (.mk ⟨t.id, ascriptionStart source t.span.start, t.span.stop⟩ (.ascription (convert source t))) := by
  obtain ⟨p, k⟩ := t
  rfl

variable {source} {x : Node Origin}

/-- What is inside an ascription is inside the type. -/
theorem mem_nodes_convertAscription {t? : Option (Syntax.Node Syntax.Place)} {a : Node Origin}
    (h : convertAscription source t? = some a) (hx : x ∈ a.nodes) :
    ∃ t, t? = some t ∧ (x = a ∨ x ∈ (convert source t).nodes) := by
  cases t? with
  | none => cases h
  | some t =>
    rw [convertAscription_some] at h
    cases h
    rw [Node.nodes_mk, List.mem_append, List.mem_singleton] at hx
    exact ⟨t, rfl, hx.symm.imp_right fun hx => by simpa [Kind.map, Kind.children] using hx⟩

/-- A node of what a tree becomes is a name, or what a node of the tree becomes, or the ascription around the
type of one. -/
theorem exists_of_mem_nodes_convert {n : Syntax.Node Syntax.Place} (hx : x ∈ (convert source n).nodes) :
    (∃ i : Name Origin (Node Origin), x = i.toNode) ∨ ∃ m ∈ n.nodes,
      (m.kind.hasImage = true ∧ x = convert source m) ∨
        ∃ t, m.kind.annotation? = some t ∧ convertAscription source (some t) = some x := by
  induction n using Syntax.Node.induction_children with
  | h n ih =>
    have hbelow : (∃ i : Name Origin (Node Origin), x = i.toNode) ∨ (∃ c ∈ n.children, x ∈ (convert source c).nodes) ∨
        (n.kind.hasImage = true ∧ x = convert source n) ∨
          ∃ t, n.kind.annotation? = some t ∧ convertAscription source (some t) = some x := by
      have htype : ∀ t? a, convertAscription source t? = some a → x ∈ a.nodes →
          ∃ t, t? = some t ∧ (x = a ∨ x ∈ (convert source t).nodes) :=
        fun _ _ h hx => mem_nodes_convertAscription h hx
      obtain ⟨p, k⟩ := n
      cases k
      case' parameter default? => cases default?
      all_goals
        simp [Syntax.Node.children, Syntax.Node.shape, Syntax.Kind.map, Syntax.Kind.children,
          Syntax.Kind.annotation?, Kind.hasImage, convert, convertKind, plainName, ascribedName, convertList_eq_map,
          convertOption_eq_map]
        simp [convert, convertKind, plainName, ascribedName, Node.nodes_mk, Node.nodes_toNode, Kind.map,
          Kind.children, convertList_eq_map, convertOption_eq_map] at hx
      all_goals grind
    rcases hbelow with hname | ⟨c, hc, hx⟩ | h
    · exact .inl hname
    · refine (ih c hc hx).imp_right ?_
      rintro ⟨m, hm, h⟩
      exact ⟨m, Syntax.Node.nodes_subset_of_mem_children hc hm, h⟩
    · exact .inr ⟨n, n.mem_nodes_self, h⟩

/-- Every ascription in what a node becomes is that of a type in the node. -/
theorem exists_annotation_of_mem_nodes {n : Syntax.Node Syntax.Place} (hx : x ∈ (convert source n).nodes)
    (hascription : x.kind.isAscription = true) :
    ∃ m ∈ n.nodes, ∃ t, m.kind.annotation? = some t ∧ convertAscription source (some t) = some x := by
  obtain ⟨i, rfl⟩ | ⟨m, hm, ⟨himage, rfl⟩ | h⟩ := exists_of_mem_nodes_convert hx
  · cases hascription
  · rw [(label_convert source himage).2] at hascription
    cases hascription
  · exact ⟨m, hm, h⟩

variable (source)

/-- **What is inside stays inside.** Where a node is inside another, what the one becomes is inside what the
other becomes. -/
theorem exists_image_inner {n a b : Syntax.Node Syntax.Place} (ha : a ∈ n.nodes)
    (haimage : a.kind.hasImage = true) (hb : b ∈ a.inner) (hbimage : b.kind.hasImage = true) :
    ∃ a' ∈ (convert source n).nodes, a'.kind.isAscription = false ∧ a'.label.node = a.id ∧
      ∃ b' ∈ a'.inner, b'.kind.isAscription = false ∧ b'.label.node = b.id := by
  have haname : a.kind.identifierText? = none := by
    obtain ⟨p, k⟩ := a
    cases k <;> first | rfl | cases hb
  obtain ⟨hlabel, hproper⟩ := label_convert source haimage
  refine ⟨convert source a, convert_mem_nodes source ha haname, hproper, congrArg Origin.node hlabel, ?_⟩
  obtain ⟨c, hc, hb⟩ := Syntax.Node.mem_inner_iff.mp hb
  have hmem : b.id ∈ (a.children.map Syntax.Node.imaged).flatten.map Syntax.Place.id := by
    refine List.mem_map_of_mem (f := Syntax.Place.id) (a := b.label) ?_
    exact List.mem_flatten.mpr
      ⟨_, List.mem_map_of_mem hc, Syntax.Node.mem_imaged_iff.mpr ⟨b, hb, hbimage, rfl⟩⟩
  obtain ⟨o, ho, hoid⟩ := List.mem_map.mp ((perm_inner_convert source haimage).mem_iff.mpr hmem)
  rw [← List.flatMap_def, List.mem_flatMap] at ho
  obtain ⟨c', hc', ho⟩ := ho
  obtain ⟨b', hb', hbproper, rfl⟩ := Node.mem_proper_iff.mp ho
  exact ⟨b', Node.mem_inner_iff.mpr ⟨c', hc', hb'⟩, hbproper, hoid⟩

end

/-! ### The maps back and forth -/

namespace NodeMaps

theorem getElem?_foldl_addImage (es : List Entry) (images : Array (Option NodeId)) (o : Syntax.NodeId) :
    (es.foldl addImage images)[o]? = images[o]?.map (·.or
      ((es.find? fun e => !e.node.kind.isAscription && e.node.origin == o).map (·.node.id))) := by
  induction es generalizing images with
  | nil => simp
  | cons e es ih =>
    rw [List.foldl_cons, ih, List.find?_cons, addImage]
    cases e.node.kind.isAscription with
    | true => rfl
    | false =>
      rw [if_neg Bool.false_ne_true, Array.getElem?_modify]
      by_cases h : e.node.origin = o
      · simp [h, Function.comp_def]
      · simp [h, beq_false_of_ne h]

/-- The image of a node is the first node that comes from it and is no ascription. -/
theorem image?_ofEntries (size : Nat) (entries : Array Entry) {o : Syntax.NodeId} (h : o < size) :
    (ofEntries size entries).image? o =
      (entries.toList.find? fun e => !e.node.kind.isAscription && e.node.origin == o).map (·.node.id) := by
  rw [ofEntries, image?, ← Array.foldl_toList, getElem?_foldl_addImage, Array.getElem?_replicate, if_pos h]
  rfl

theorem lt_of_image?_ofEntries {size : Nat} {entries : Array Entry} {o : Syntax.NodeId} {id : NodeId}
    (h : (ofEntries size entries).image? o = some id) : o < size := by
  refine Nat.lt_of_not_le fun hle => ?_
  rw [ofEntries, image?, ← Array.foldl_toList, getElem?_foldl_addImage, Array.getElem?_replicate,
    if_neg (Nat.not_lt.mpr hle)] at h
  cases h

variable {size : Nat} {n : Node Place}

/-- An image is a node that comes from what it is the image of. -/
theorem exists_of_image? {o : Syntax.NodeId} {id : NodeId}
    (h : (ofEntries size n.entries).image? o = some id) :
    ∃ m ∈ n.nodes, m.kind.isAscription = false ∧ m.origin = o ∧ m.id = id := by
  rw [image?_ofEntries size _ (lt_of_image?_ofEntries h)] at h
  obtain ⟨e, he, rfl⟩ := Option.map_eq_some_iff.mp h
  have hcomes := List.find?_some he
  rw [Bool.and_eq_true, Bool.not_eq_true', beq_iff_eq] at hcomes
  refine ⟨e.node, ?_, hcomes.1, hcomes.2, rfl⟩
  rw [← Node.map_node_entries]
  exact List.mem_map_of_mem (List.mem_of_find?_eq_some he)

/-- When no two nodes come from one, every node that is no ascription is the image of what it comes from. -/
theorem image?_origin (hnodup : (n.proper.map Place.origin).Nodup) {m : Node Place} (hm : m ∈ n.nodes)
    (hproper : m.kind.isAscription = false) (hlt : m.origin < size) :
    (ofEntries size n.entries).image? m.origin = some m.id := by
  rw [← Node.map_node_entries] at hm
  obtain ⟨e, he, rfl⟩ := List.mem_map.mp hm
  rw [image?_ofEntries size _ hlt]
  cases hfind : n.entries.toList.find? fun e' =>
    !e'.node.kind.isAscription && e'.node.origin == e.node.origin with
  | none =>
    have hnone := List.find?_eq_none.mp hfind e he
    simp [hproper] at hnone
  | some e' =>
    have hcomes := List.find?_some hfind
    rw [Bool.and_eq_true, Bool.not_eq_true', beq_iff_eq] at hcomes
    have hmem : ∀ e ∈ n.entries.toList, e.node.kind.isAscription = false → e.node.label ∈ n.proper := by
      intro e he hproper
      exact Node.mem_proper_iff.mpr ⟨e.node, Node.map_node_entries n ▸ List.mem_map_of_mem he, hproper, rfl⟩
    have hlabel : e'.node.label = e.node.label :=
      List.inj_on_of_nodup_map hnodup (hmem e' (List.mem_of_find?_eq_some hfind) hcomes.1) (hmem e he hproper)
        hcomes.2
    exact congrArg (fun l : Place => some l.id) hlabel

end NodeMaps

/-! ### The trees of a conversion -/

namespace Tree

/-- The first node is above the second. -/
def Above (t : Tree) (a b : NodeId) : Prop :=
  Relation.TransGen (fun id parent => t.parent? id = some parent) b a

end Tree

/-- **The maps are exact.** Every node of the common tree has an origin. The nodes that have an image are
those that become nodes of the common tree, and on these and the nodes that are no ascriptions the two maps
undo each other. What is above a node stays above it. -/
structure NodeMaps.Exact (maps : NodeMaps) (t : Syntax.Tree) (c : Tree) : Prop where
  /-- Every node comes from a node of the file's tree. -/
  origin : ∀ id, (c.node? id).isSome → ∃ o, maps.origin? id = some o ∧ (t.node? o).isSome
  /-- All nodes have an image but parentheses and plain parameters. -/
  image : ∀ o, (maps.image? o).isSome ↔ ∃ n, t.node? o = some n ∧ n.kind.hasImage = true
  /-- From the origin of a node that is no ascription the way back leads to the node. -/
  image_origin : ∀ id n o, c.node? id = some n → n.kind.isAscription = false → maps.origin? id = some o →
    maps.image? o = some id
  /-- From the image of a node, which is no ascription, the way back leads to the node. -/
  origin_image : ∀ o id, maps.image? o = some id →
    maps.origin? id = some o ∧ ∃ n, c.node? id = some n ∧ n.kind.isAscription = false
  /-- What is above a node stays above it. -/
  above : ∀ a b a' b', maps.image? a = some a' → maps.image? b = some b' → t.Above a b → c.Above a' b'

namespace Conversion

variable {fileName text : String} {settings : Settings} {conversion : Conversion}

theorem node?_id {tree : Syntax.Tree} (h : ofTree tree settings = .ok conversion) {m : Node Place}
    (hm : m ∈ conversion.tree.root.nodes) : conversion.tree.node? m.id = some m :=
  (numbered_ofTree h).node?_id hm

theorem of_node?_eq_some {tree : Syntax.Tree} (h : ofTree tree settings = .ok conversion) {id : NodeId}
    {m : Node Place} (hm : conversion.tree.node? id = some m) :
    m ∈ conversion.tree.root.nodes ∧ m.id = id :=
  (numbered_ofTree h).node?_iff.mp hm

theorem parent?_of_mem_children {tree : Syntax.Tree} (h : ofTree tree settings = .ok conversion)
    {n c : Node Place} (hn : n ∈ conversion.tree.root.nodes) (hc : c ∈ n.children) :
    conversion.tree.parent? c.id = some n.id :=
  (numbered_ofTree h).parent?_id hn hc

/-- A node is above the nodes inside it. -/
theorem above_of_mem_inner {tree : Syntax.Tree} (h : ofTree tree settings = .ok conversion)
    {n m : Node Place} (hn : n ∈ conversion.tree.root.nodes) (hm : m ∈ n.inner) :
    conversion.tree.Above n.id m.id := by
  induction n using Node.induction_children with
  | h n ih =>
    obtain ⟨c, hc, hm⟩ := Node.mem_inner_iff.mp hm
    have hparent := parent?_of_mem_children h hn hc
    rcases Node.mem_nodes_iff.mp hm with hm | rfl
    · exact (ih c hc (Node.nodes_subset_of_mem_nodes hn
        (Node.nodes_subset_of_mem_children hc c.mem_nodes_self)) hm).tail hparent
    · exact .single hparent

/-- Where the nodes of the common tree come from is the change of shape alone. -/
theorem map_origin_root (h : ofTree (.parse fileName text) settings = .ok conversion) :
    conversion.tree.root.map Place.origin =
      (convert text.toList (Syntax.Tree.parse fileName text).root).map Origin.node := by
  have hfits := (Syntax.Tree.formed_root_parse fileName text).fits_kind
  obtain ⟨f, hf, hroot, -⟩ := of_ofTree_eq_ok h
  rw [hroot, Node.map_number f Place.origin Origin.node fun i o => (hf i o).2, program, Node.map_mk,
    Syntax.Tree.statements]
  generalize (Syntax.Tree.parse fileName text).root = root at hfits ⊢
  obtain ⟨p, k⟩ := root
  cases k <;> simp only [Syntax.Node.kind_mk, Syntax.Kind.fits, Bool.false_eq_true] at hfits
  case sourceFile body =>
    rw [convert, convertKind, Node.map_mk]
    rfl

theorem perm_proper_root (h : ofTree (.parse fileName text) settings = .ok conversion) :
    (conversion.tree.root.proper.map Place.origin).Perm
      ((Syntax.Tree.parse fileName text).root.imaged.map Syntax.Place.id) := by
  rw [← Node.proper_map, map_origin_root h, Node.proper_map]
  exact perm_proper_convert _ _

/-- No two nodes that are no ascriptions come from one node. -/
theorem nodup_proper_root (h : ofTree (.parse fileName text) settings = .ok conversion) :
    (conversion.tree.root.proper.map Place.origin).Nodup := by
  refine (perm_proper_root h).nodup_iff.mpr ?_
  have hnodup := Syntax.Node.nodup_map_id_labels Syntax.Place.mk (fun _ _ => rfl)
    (Syntax.parseTokens (.ofChars text.toList)).1
  exact hnodup.sublist ((List.filter_sublist.map _).map _)

/-- Nodes that are no ascriptions and come from one node are the same. -/
theorem eq_of_origin_eq (h : ofTree (.parse fileName text) settings = .ok conversion) {m m' : Node Place}
    (hm : m ∈ conversion.tree.root.nodes) (hm' : m' ∈ conversion.tree.root.nodes)
    (hproper : m.kind.isAscription = false) (hproper' : m'.kind.isAscription = false)
    (horigin : m.origin = m'.origin) : m = m' := by
  have hlabel : m.label = m'.label := List.inj_on_of_nodup_map (nodup_proper_root h)
    (Node.mem_proper_iff.mpr ⟨m, hm, hproper, rfl⟩) (Node.mem_proper_iff.mpr ⟨m', hm', hproper', rfl⟩) horigin
  have hnode := node?_id h hm
  rw [Node.id, hlabel, ← Node.id, node?_id h hm'] at hnode
  exact (Option.some.inj hnode).symm

/-- A node that is no name becomes one node of the common tree, if any. -/
theorem exists_convert (h : ofTree (.parse fileName text) settings = .ok conversion)
    {n : Syntax.Node Syntax.Place} (hn : n ∈ (Syntax.Tree.parse fileName text).root.nodes)
    (hname : n.kind.identifierText? = none) (himage : n.kind.hasImage = true) :
    ∃ m ∈ conversion.tree.root.nodes, m.map Place.origin = (convert text.toList n).map Origin.node ∧
      ∀ m' ∈ conversion.tree.root.nodes, m'.kind.isAscription = false → m'.origin = n.id → m' = m := by
  have hmem := List.mem_map_of_mem (f := Node.map Origin.node) (convert_mem_nodes text.toList hn hname)
  rw [← Node.nodes_map, ← map_origin_root h, Node.nodes_map] at hmem
  obtain ⟨m, hm, hmap⟩ := List.mem_map.mp hmem
  obtain ⟨hlabel, hproper⟩ := label_convert text.toList himage
  have horigin : m.origin = n.id := by
    rw [Node.origin, ← Node.label_map Place.origin, hmap, Node.label_map, hlabel]
    rfl
  rw [← Node.isAscription_map Origin.node, ← hmap, Node.isAscription_map] at hproper
  exact ⟨m, hm, hmap, fun m' hm' hproper' horigin' =>
    eq_of_origin_eq h hm' hm hproper' hproper (horigin'.trans horigin.symm)⟩

/-- A node of the common tree that is no name and no ascription is what a node of the file becomes. -/
theorem exists_hasImage (h : ofTree (.parse fileName text) settings = .ok conversion) {m : Node Place}
    (hm : m ∈ conversion.tree.root.nodes) (hproper : m.kind.isAscription = false)
    (hname : ∀ i : Name Place (Node Place), m ≠ i.toNode) :
    ∃ n ∈ (Syntax.Tree.parse fileName text).root.nodes, n.kind.hasImage = true ∧ m.origin = n.id ∧
      m.map Place.origin = (convert text.toList n).map Origin.node := by
  have hmem := List.mem_map_of_mem (f := Node.map Place.origin) hm
  rw [← Node.nodes_map, map_origin_root h, Node.nodes_map] at hmem
  obtain ⟨x, hx, hmap⟩ := List.mem_map.mp hmem
  obtain ⟨i, rfl⟩ | ⟨n, hn, ⟨himage, rfl⟩ | ⟨t, -, hascription⟩⟩ := exists_of_mem_nodes_convert hx
  · obtain ⟨l, k⟩ := m
    rw [Name.toNode, Node.map_mk, Node.map_mk] at hmap
    obtain ⟨-, hkind⟩ := Node.mk.inj hmap
    cases k with
    | identifier name type? => exact absurd rfl (hname ⟨l, name, type?⟩)
    | _ => cases hkind
  · refine ⟨n, hn, himage, ?_, hmap.symm⟩
    rw [Node.origin, ← Node.label_map Place.origin, ← hmap, Node.label_map, (label_convert text.toList himage).1]
    rfl
  · rw [convertAscription_some] at hascription
    cases hascription
    rw [← Node.isAscription_map Place.origin, ← hmap, Node.isAscription_map] at hproper
    cases hproper

/-- The node that a node of the common tree comes from. -/
theorem exists_node_of_mem_nodes (h : ofTree (.parse fileName text) settings = .ok conversion)
    {m : Node Place} (hm : m ∈ conversion.tree.root.nodes) :
    ∃ n, (Syntax.Tree.parse fileName text).node? m.origin = some n := by
  have hmem : m.origin ∈ (conversion.tree.root.map Place.origin).labels := by
    rw [Node.labels, Node.nodes_map, List.map_map]
    exact List.mem_map.mpr ⟨m, hm, Node.label_map _ m⟩
  rw [map_origin_root h, Node.labels, Node.nodes_map, List.map_map] at hmem
  obtain ⟨x, hx, hlabel⟩ := List.mem_map.mp hmem
  rw [Function.comp_apply, Node.label_map] at hlabel
  obtain ⟨l, hl, hid⟩ := exists_label_of_mem_labels_convert _ _ (List.mem_map_of_mem (f := Node.label) hx)
  obtain ⟨n, hn, rfl⟩ := List.mem_map.mp hl
  exact ⟨n, (hid.trans hlabel) ▸ Syntax.Tree.node?_id fileName text hn⟩

variable (h : ofTree (.parse fileName text) settings = .ok conversion) (hmaps : settings.nodeMaps = true)

include h hmaps

theorem origin?_id {m : Node Place} (hm : m ∈ conversion.tree.root.nodes) :
    conversion.maps.origin? m.id = some m.origin := by
  obtain ⟨f, hf, hroot, -, hmaps'⟩ := of_ofTree_eq_ok h
  rw [hmaps' hmaps]
  exact NodeMaps.origin?_id f (fun i o => (hf i o).1) _ _ (hroot ▸ List.mem_map_of_mem (f := Node.label) hm)

theorem image?_origin {m : Node Place} (hm : m ∈ conversion.tree.root.nodes)
    (hproper : m.kind.isAscription = false) : conversion.maps.image? m.origin = some m.id := by
  obtain ⟨f, hf, hroot, -, hmaps'⟩ := of_ofTree_eq_ok h
  obtain ⟨n, hn⟩ := exists_node_of_mem_nodes h hm
  obtain ⟨e, he, -⟩ := Option.map_eq_some_iff.mp hn
  rw [hmaps' hmaps, ← hroot]
  exact NodeMaps.image?_origin (nodup_proper_root h) hm hproper (Array.getElem?_eq_some_iff.mp he).1

theorem exists_of_image? {o : Syntax.NodeId} {id : NodeId} (himage : conversion.maps.image? o = some id) :
    ∃ m ∈ conversion.tree.root.nodes, m.kind.isAscription = false ∧ m.origin = o ∧ m.id = id := by
  obtain ⟨f, -, hroot, -, hmaps'⟩ := of_ofTree_eq_ok h
  rw [hmaps' hmaps, ← hroot] at himage
  exact NodeMaps.exists_of_image? himage

/-- A node has an image when it becomes a node of the common tree, and only then. -/
theorem isSome_image?_iff (o : Syntax.NodeId) : (conversion.maps.image? o).isSome ↔
    ∃ n, (Syntax.Tree.parse fileName text).node? o = some n ∧ n.kind.hasImage = true := by
  have hperm := (perm_proper_root h).mem_iff (a := o)
  have hproper : o ∈ conversion.tree.root.proper.map Place.origin ↔ (conversion.maps.image? o).isSome := by
    constructor
    · intro ho
      obtain ⟨l, hl, rfl⟩ := List.mem_map.mp ho
      obtain ⟨m, hm, hproper, rfl⟩ := Node.mem_proper_iff.mp hl
      exact Option.isSome_of_eq_some (image?_origin h hmaps hm hproper)
    · intro ho
      obtain ⟨id, hid⟩ := Option.isSome_iff_exists.mp ho
      obtain ⟨m, hm, hproper, rfl, -⟩ := exists_of_image? h hmaps hid
      exact List.mem_map_of_mem (f := Place.origin) (Node.mem_proper_iff.mpr ⟨m, hm, hproper, rfl⟩)
  rw [← hproper, hperm]
  constructor
  · intro ho
    obtain ⟨l, hl, rfl⟩ := List.mem_map.mp ho
    obtain ⟨n, hn, himage, rfl⟩ := Syntax.Node.mem_imaged_iff.mp hl
    exact ⟨n, Syntax.Tree.node?_id fileName text hn, himage⟩
  · rintro ⟨n, hn, himage⟩
    obtain ⟨hmem, rfl⟩ := Syntax.Tree.of_node?_eq_some hn
    exact List.mem_map_of_mem (f := Syntax.Place.id) (Syntax.Node.mem_imaged_iff.mpr ⟨n, hmem, himage, rfl⟩)

/-- What is above a node stays above it. -/
theorem above_image {a b : Syntax.NodeId} {a' b' : NodeId} (ha : conversion.maps.image? a = some a')
    (hb : conversion.maps.image? b = some b') (habove : (Syntax.Tree.parse fileName text).Above a b) :
    conversion.tree.Above a' b' := by
  obtain ⟨n, hn, rfl, m, hm, rfl⟩ := Syntax.Tree.mem_inner_of_above habove
  have himage : ∀ {n : Syntax.Node Syntax.Place} {id : NodeId},
      n ∈ (Syntax.Tree.parse fileName text).root.nodes → conversion.maps.image? n.id = some id →
      n.kind.hasImage = true := by
    intro n id hn hid
    obtain ⟨n', hn', himage⟩ := (isSome_image?_iff h hmaps n.id).mp (Option.isSome_of_eq_some hid)
    rw [Syntax.Tree.node?_id fileName text hn] at hn'
    exact Option.some.inj hn' ▸ himage
  have hmroot := Syntax.Node.nodes_subset_of_mem_nodes hn (Syntax.Node.mem_nodes_iff.mpr (.inl hm))
  obtain ⟨x, hx, hxproper, hxa, y, hy, hyproper, hyb⟩ :=
    exists_image_inner text.toList hn (himage hn ha) hm (himage hmroot hb)
  -- the nodes of the common tree are those of the change of shape with other labels
  have hx' := List.mem_map_of_mem (f := Node.map Origin.node) hx
  rw [← Node.nodes_map, ← map_origin_root h, Node.nodes_map] at hx'
  obtain ⟨x', hx', hxmap⟩ := List.mem_map.mp hx'
  have hy' := List.mem_map_of_mem (f := Node.map Origin.node) hy
  rw [← Node.inner_map, ← hxmap, Node.inner_map] at hy'
  obtain ⟨y', hy', hymap⟩ := List.mem_map.mp hy'
  have hid : ∀ {z : Node Origin} {z' : Node Place} {n : Syntax.NodeId} {id : NodeId},
      z' ∈ conversion.tree.root.nodes → z'.map Place.origin = z.map Origin.node →
      z.kind.isAscription = false → z.label.node = n → conversion.maps.image? n = some id → z'.id = id := by
    intro z z' n id hz' hmap hproper hnode hid
    have horigin : z'.origin = n := by
      rw [← hnode, Node.origin, ← Node.label_map Place.origin, hmap, Node.label_map]
    rw [← Node.isAscription_map Origin.node, ← hmap, Node.isAscription_map] at hproper
    rw [← horigin, image?_origin h hmaps hz' hproper] at hid
    exact Option.some.inj hid
  have hyroot := Node.nodes_subset_of_mem_nodes hx' (Node.mem_nodes_iff.mpr (.inl hy'))
  have habove' := above_of_mem_inner h hx' hy'
  rwa [hid hx' hxmap hxproper hxa ha, hid hyroot hymap hyproper hyb hb] at habove'

/-- The maps of a conversion that gives them are exact. -/
theorem exact_ofTree : conversion.maps.Exact (.parse fileName text) conversion.tree where
  origin id hid := by
    obtain ⟨m, hnode⟩ := Option.isSome_iff_exists.mp hid
    obtain ⟨hm, rfl⟩ := of_node?_eq_some h hnode
    obtain ⟨n, hn⟩ := exists_node_of_mem_nodes h hm
    exact ⟨m.origin, origin?_id h hmaps hm, Option.isSome_of_eq_some hn⟩
  image := isSome_image?_iff h hmaps
  image_origin id m o hnode hproper ho := by
    obtain ⟨hm, rfl⟩ := of_node?_eq_some h hnode
    rw [origin?_id h hmaps hm] at ho
    cases ho
    exact image?_origin h hmaps hm hproper
  origin_image o id hid := by
    obtain ⟨m, hm, hproper, rfl, rfl⟩ := exists_of_image? h hmaps hid
    exact ⟨origin?_id h hmaps hm, m, node?_id h hm, hproper⟩
  above _ _ _ _ := above_image h hmaps

end Conversion

end Ast

end ScriptAnalysis

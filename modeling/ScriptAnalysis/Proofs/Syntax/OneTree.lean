import Mathlib.Data.List.Chain
import Mathlib.Data.List.Nodup
import Mathlib.Logic.Relation
import ScriptAnalysis.Proofs.Syntax.Allocation
import ScriptAnalysis.Proofs.Syntax.Identifiers
import ScriptAnalysis.Proofs.Syntax.Spans

/-!
# Parents and children by number

The numbers of a file's nodes form one tree. Over the nodes of any tree, the lists of children together hold
every node but the tree itself once (`perm_nodes`); with the numbers in the order of that list, a child has a
smaller number than its parent (`Numbered.lt_of_mem_childIds`), and the lists of children hold every number
below the root's once (`Numbered.perm_childIds`). All else follows from these two: what is recorded as the
parent of a node is the only one that has it among its children, and the nodes above a node end at the root.

Reading allocates these nodes and no others (`Tree.ofTokens_parse`), so what is said of the tree is said of
the arena it is read into (`isOneTree_parse`).
-/

namespace ScriptAnalysis.Syntax

open Relation Text

variable {α : Type}

theorem Kind.fits_file_iff {ν β : Type} {k : Kind ν β} :
    k.fits .file = true ↔ ∃ ss, k = .sourceFile ss := by
  cases k <;> simp [fits]

theorem Kind.not_fits_file {ν β : Type} {k : Kind ν β} {role : Role} (h : k.fits role = true)
    (hrole : role ≠ .file) : k.fits .file = false := by
  cases k <;> cases role <;> simp_all [fits, isStatement, isExpression, isBlock, isType]

/-- The name of a node is an expression. -/
theorem Ident.formed_toNode (i : Ident α) : i.toNode.Formed .expression :=
  .mk rfl (List.forall_mem_nil _)

namespace Node

/-! ### The nodes of a tree and their children -/

/-- The nodes of a node of a tree stand together in the nodes of the tree. -/
theorem sublist_nodes_of_mem {n m : Node α} (h : m ∈ n.nodes) : m.nodes.Sublist n.nodes := by
  induction n using induction_children with
  | h n ih =>
    rcases mem_nodes_iff.mp h with h | rfl
    · obtain ⟨c, hc, hm⟩ := mem_inner_iff.mp h
      have hchild : c.nodes.Sublist (n.children.map nodes).flatten :=
        List.sublist_flatten_of_mem (List.mem_map_of_mem hc)
      rw [nodes_eq n]
      exact ((ih c hc hm).trans hchild).trans (List.sublist_append_left ..)
    · exact List.Sublist.refl _

/-- The children of the nodes of a tree, with the tree itself, are the nodes of the tree. -/
theorem perm_nodes (n : Node α) : (n.nodes.flatMap children ++ [n]).Perm n.nodes := by
  induction n using induction_children with
  | h n ih =>
    have hbelow : ∀ cs : List (Node α), (∀ c ∈ cs, c ∈ n.children) →
        ((cs.map nodes).flatten.flatMap children ++ cs).Perm (cs.map nodes).flatten := by
      intro cs
      induction cs with
      | nil => exact fun _ => .refl _
      | cons c cs ihs =>
        intro hcs
        have hc := ih c (hcs c List.mem_cons_self)
        have hrest := ihs fun c' hc' => hcs c' (List.mem_cons_of_mem _ hc')
        rw [List.map_cons, List.flatten_cons, List.flatMap_append]
        refine .trans ?_ (hc.append hrest)
        simp only [List.append_assoc, List.singleton_append]
        exact .append_left _ List.perm_middle
    rw [nodes_eq n, List.flatMap_append, List.flatMap_singleton]
    exact .append_right _ (hbelow _ fun _ hc => hc)

/-- Every node of a grammatical tree has a role. -/
theorem Formed.exists_role {role : Role} {n m : Node α} (h : n.Formed role) (hm : m ∈ n.nodes) :
    ∃ role, m.Formed role := by
  induction n using induction_children generalizing role with
  | h n ih =>
    rcases mem_nodes_iff.mp hm with hm | rfl
    · obtain ⟨c, hc, hm⟩ := mem_inner_iff.mp hm
      obtain ⟨l, k⟩ := n
      rcases name_or_part_of_mem_children hc with ⟨i, -, rfl⟩ | ⟨part, hpart, rfl⟩
      · exact ih _ hc i.formed_toNode hm
      · exact ih _ hc (h.of_mem_parts hpart) hm
    · exact ⟨role, h⟩

/-! ### The node of the whole text -/

/-- Nothing below a node of a grammatical tree is a whole text. -/
theorem Formed.not_fits_of_mem_inner {role : Role} {n m : Node α} (h : n.Formed role)
    (hm : m ∈ n.inner) : m.kind.fits .file = false := by
  induction n using induction_children generalizing role with
  | h n ih =>
    obtain ⟨c, hc, hmc⟩ := mem_inner_iff.mp hm
    obtain ⟨l, k⟩ := n
    rcases name_or_part_of_mem_children hc with ⟨i, -, rfl⟩ | ⟨part, hpart, rfl⟩
    · obtain rfl : m = i.toNode := List.mem_singleton.mp hmc
      rfl
    · have hpartFormed := h.of_mem_parts hpart
      rcases mem_nodes_iff.mp hmc with hmc | rfl
      · exact ih _ hc hpartFormed hmc
      · exact Kind.not_fits_file hpartFormed.fits_kind (Kind.role_ne_file_of_mem_parts hpart)

end Node

namespace Tree

/-- The numbers of a node's children in source order. -/
def childIds (t : Tree) (id : NodeId) : List NodeId :=
  match t.node? id with
  | none => []
  | some n => n.children.map Node.id

/-! ### Numbers in the order of the nodes -/

namespace Numbered

variable {t : Tree} (ht : t.Numbered)

include ht

/-- The root has the largest number. -/
theorem id_root_add_one : t.root.id + 1 = t.size := by
  have h := ht.map_id
  rw [Node.nodes_eq, List.map_append, List.map_singleton] at h
  cases hsize : t.size with
  | zero => simp [hsize] at h
  | succ last =>
    rw [hsize, List.range_succ] at h
    rw [(List.cons.inj (List.append_inj_right' h rfl)).1]

theorem node?_root : t.node? t.root.id = some t.root := ht.node?_iff.mpr ⟨t.root.mem_nodes_self, rfl⟩

theorem exists_node {id : NodeId} (h : id < t.size) : ∃ n, t.node? id = some n := by
  rw [← List.mem_range, ← ht.map_id] at h
  obtain ⟨n, hn, rfl⟩ := List.mem_map.mp h
  exact ⟨n, ht.node?_iff.mpr ⟨hn, rfl⟩⟩

theorem id_lt_size {n : Node Place} (h : n ∈ t.root.nodes) : n.id < t.size := by
  rw [← List.mem_range, ← ht.map_id]
  exact List.mem_map_of_mem h

/-- A number is listed among the children of a node when a child of the node has it. -/
theorem mem_childIds_iff {id p : NodeId} :
    id ∈ t.childIds p ↔ ∃ n ∈ t.root.nodes, n.id = p ∧ ∃ c ∈ n.children, c.id = id := by
  constructor
  · intro h
    rw [childIds] at h
    split at h
    · simp at h
    · rename_i n hn
      obtain ⟨hmem, hid⟩ := ht.node?_iff.mp hn
      exact ⟨n, hmem, hid, List.mem_map.mp h⟩
  · rintro ⟨n, hn, rfl, hc⟩
    rw [childIds, ht.node?_iff.mpr ⟨hn, rfl⟩]
    exact List.mem_map.mpr hc

/-- A child has a smaller number than its parent. -/
theorem lt_of_mem_childIds {id p : Nat} (h : id ∈ t.childIds p) : id < p := by
  obtain ⟨n, hn, rfl, c, hc, rfl⟩ := ht.mem_childIds_iff.mp h
  have hordered : (t.root.nodes.map Node.id).Pairwise (· < ·) := ht.map_id ▸ List.pairwise_lt_range
  have hbelow := (List.pairwise_map.mp hordered).sublist (Node.sublist_nodes_of_mem hn)
  rw [Node.nodes_eq] at hbelow
  refine (List.pairwise_append.mp hbelow).2.2 c ?_ n (List.mem_singleton_self n)
  exact Node.mem_inner_iff.mpr ⟨c, hc, c.mem_nodes_self⟩

/-- The lists of children hold every number below the root's once. -/
theorem perm_childIds : ((List.range t.size).flatMap t.childIds).Perm (List.range t.root.id) := by
  have hlists : (List.range t.size).flatMap t.childIds = (t.root.nodes.flatMap Node.children).map Node.id := by
    rw [← ht.map_id, List.flatMap_map, List.map_flatMap]
    refine List.flatMap_congr fun n hn => ?_
    rw [childIds, ht.node?_iff.mpr ⟨hn, rfl⟩]
  have hall := t.root.perm_nodes.map Node.id
  rw [ht.map_id, ← ht.id_root_add_one, List.range_succ, List.map_append, List.map_singleton] at hall
  rw [hlists]
  exact (List.perm_append_right_iff _).mp hall

/-- A node is listed once among the children of its parent, and nowhere else. -/
theorem count_childIds {id p : NodeId} (h : id ∈ t.childIds p) (q : NodeId) :
    (t.childIds q).count id = if q = p then 1 else 0 := by
  have hlt : ∀ {q : NodeId}, id ∈ t.childIds q → q ∈ List.range t.size := by
    intro q hq
    obtain ⟨n, hn, rfl, -⟩ := ht.mem_childIds_iff.mp hq
    exact List.mem_range.mpr (ht.id_lt_size hn)
  obtain ⟨hnodup, hdisjoint⟩ := List.nodup_flatMap.1 (ht.perm_childIds.nodup_iff.mpr List.nodup_range)
  split
  · subst q
    exact List.count_eq_one_of_mem (hnodup p (hlt h)) h
  · rename_i hne
    refine List.count_eq_zero.mpr fun hq => ?_
    have hsymm : Std.Symm (Function.onFun List.Disjoint t.childIds) := ⟨fun _ _ h => List.disjoint_symm h⟩
    exact hdisjoint.forall (hlt hq) (hlt h) hne hq h

theorem root_notMem_childIds (p : NodeId) : t.root.id ∉ t.childIds p := by
  intro h
  obtain ⟨n, hn, rfl, -⟩ := ht.mem_childIds_iff.mp h
  have hsize := ht.id_lt_size hn
  rw [← ht.id_root_add_one] at hsize
  exact Nat.not_lt.mpr (Nat.le_of_lt_succ hsize) (ht.lt_of_mem_childIds h)

/-! ### Recorded parents -/

/-- What is recorded as the parent of a node has the node among its children, and the root alone has
no parent. -/
theorem parent?_cases {id : NodeId} (h : id < t.size) :
    (id = t.root.id ∧ t.parent? id = none) ∨ ∃ p, t.parent? id = some p ∧ id ∈ t.childIds p := by
  obtain ⟨e, he⟩ : ∃ e, t.entries[id]? = some e := ⟨_, Array.getElem?_eq_getElem h⟩
  have hid : e.node.id = id := (ht.node?_iff.mp (congrArg (Option.map Entry.node) he)).2
  have hparent : t.parent? id = e.parent? := by rw [parent?, he, Option.bind_some]
  have hmem : e ∈ t.root.entriesOnto none #[] := by
    rw [← Node.entries, ← ht.entries_eq]
    exact Array.mem_of_getElem? he
  rcases Node.of_mem_entriesOnto hmem with hmem | rfl | ⟨m, hm, c, hc, rfl⟩
  · simp at hmem
  · exact .inl ⟨hid.symm, hparent⟩
  · exact .inr ⟨m.id, hparent, ht.mem_childIds_iff.mpr ⟨m, hm, rfl, c, hc, hid⟩⟩

theorem parent?_root : t.parent? t.root.id = none := by
  rcases ht.parent?_cases (ht.id_lt_size t.root.mem_nodes_self) with ⟨-, h⟩ | ⟨p, -, h⟩
  · exact h
  · exact absurd h (ht.root_notMem_childIds p)

theorem exists_parent {id : NodeId} (h : id < t.size) (hne : id ≠ t.root.id) :
    ∃ p, t.parent? id = some p ∧ id ∈ t.childIds p :=
  (ht.parent?_cases h).resolve_left fun hroot => hne hroot.1

/-- The recorded parent of a child is its parent. -/
theorem parent?_id {n c : Node Place} (hn : n ∈ t.root.nodes) (hc : c ∈ n.children) :
    t.parent? c.id = some n.id := by
  have hchild : c.id ∈ t.childIds n.id := ht.mem_childIds_iff.mpr ⟨n, hn, rfl, c, hc, rfl⟩
  have hlt := ht.id_lt_size (Node.nodes_subset_of_mem_nodes hn
    (Node.nodes_subset_of_mem_children hc (Node.mem_nodes_self c)))
  rcases ht.parent?_cases hlt with ⟨hroot, -⟩ | ⟨p, hp, hp'⟩
  · exact absurd (hroot ▸ hchild) (ht.root_notMem_childIds _)
  · have hcount := ht.count_childIds hchild p
    split at hcount
    · rename_i heq
      rw [hp, heq]
    · exact absurd hp' (List.count_eq_zero.mp hcount)

/-! ### The nodes above a node -/

/-- From a node the recorded parents lead to the root, if there is enough room for all of them. -/
theorem ancestorsWithin_of_le {n id : Nat} (h : id < t.size) (hn : t.size - id ≤ n) :
    (t.ancestorsWithin n id).head? = some id ∧
      (t.ancestorsWithin n id).IsChain (fun a b => t.parent? a = some b) ∧
      (t.ancestorsWithin n id).getLast? = some t.root.id := by
  induction n generalizing id with
  | zero => omega
  | succ n ih =>
    rw [ancestorsWithin]
    by_cases hroot : id = t.root.id
    · subst hroot
      rw [ht.parent?_root]
      exact ⟨rfl, .singleton _, rfl⟩
    · obtain ⟨p, hp, hchild⟩ := ht.exists_parent h hroot
      have hlt := ht.lt_of_mem_childIds hchild
      obtain ⟨m, hm, rfl, -⟩ := ht.mem_childIds_iff.mp hchild
      obtain ⟨hhead, hchain, hlast⟩ := ih (ht.id_lt_size hm) (by omega)
      rw [hp]
      refine ⟨rfl, List.isChain_cons.mpr ⟨fun y hy => ?_, hchain⟩, ?_⟩
      · rw [hhead] at hy
        exact Option.some.inj hy ▸ hp
      · show (id :: t.ancestorsWithin n m.id).getLast? = some t.root.id
        rw [List.getLast?_cons, hlast]
        rfl

/-- Every node is reached from the root. -/
theorem reachable {id : Nat} (h : id < t.size) :
    ReflTransGen (fun p c => c ∈ t.childIds p) t.root.id id := by
  by_cases hroot : id = t.root.id
  · rw [hroot]
  · obtain ⟨p, -, hchild⟩ := ht.exists_parent h hroot
    have hlt := ht.lt_of_mem_childIds hchild
    obtain ⟨m, hm, rfl, -⟩ := ht.mem_childIds_iff.mp hchild
    exact (reachable (ht.id_lt_size hm)).tail hchild
termination_by t.size - id
decreasing_by have := ht.id_lt_size hm; omega

end Numbered

/-! ### One tree -/

/-- The numbered nodes are one tree over the text. -/
structure IsOneTree (t : Tree) : Prop where
  /-- Reading into an arena puts these nodes there and no others, with the same numbers and parents. -/
  allocated : Arena.ofTokens t.stream = (t.root.id, t.entries.toList.map Entry.cell)
  /-- Every number below the size is that of a node. -/
  node : ∀ id < t.size, ∃ n, t.node? id = some n ∧ n.id = id
  /-- The root has the largest number and no parent, and it is nowhere among the children. -/
  root : t.root.id + 1 = t.size ∧ t.node? t.root.id = some t.root ∧ t.parent? t.root.id = none ∧
    ∀ p, t.root.id ∉ t.childIds p
  /-- The root alone is the node of a whole text. -/
  sourceFile : ∀ id n, t.node? id = some n → ((∃ ss, n.kind = .sourceFile ss) ↔ id = t.root.id)
  /-- Every other node has a parent with a larger number, and is listed among the children of its parent
  once and nowhere else. -/
  parent : ∀ id < t.size, id ≠ t.root.id → ∃ p, t.parent? id = some p ∧ id < p ∧ p < t.size ∧
    ∀ q, (t.childIds q).count id = if q = p then 1 else 0
  /-- Up from a node, every number is that of the parent of the one before, and the last is the root's. -/
  ancestors : ∀ id < t.size, (t.ancestors id).head? = some id ∧
    (t.ancestors id).IsChain (fun a b => t.parent? a = some b) ∧
    (t.ancestors id).getLast? = some t.root.id
  /-- Down from the root, children lead to every node. -/
  reachable : ∀ id < t.size, ReflTransGen (fun p c => c ∈ t.childIds p) t.root.id id
  /-- What a node covers lies in the text, and cuts no character. -/
  span : ∀ id n, t.node? id = some n → n.span.start ≤ n.span.stop ∧
    n.span.stop ≤ byteLength t.text.toList ∧ IsBoundary t.text.toList n.span.start ∧
    IsBoundary t.text.toList n.span.stop

/-- A node of a file is a whole text when it is the root. -/
theorem fits_file_iff (fileName text : String) {n : Node Place}
    (h : n ∈ (Tree.parse fileName text).root.nodes) :
    n.kind.fits .file = true ↔ n = (Tree.parse fileName text).root := by
  have hformed := formed_root_parse fileName text
  rcases Node.mem_nodes_iff.mp h with hinner | rfl
  · have hnot := hformed.not_fits_of_mem_inner hinner
    refine ⟨fun hfits => absurd hfits (by simp [hnot]), ?_⟩
    rintro rfl
    exact hformed.fits_kind
  · exact ⟨fun _ => rfl, fun _ => hformed.fits_kind⟩

/-- **The nodes of every file are one tree**: none is without a parent but the root, and none has two. -/
theorem isOneTree_parse (fileName text : String) : (Tree.parse fileName text).IsOneTree := by
  have ht := numbered_parse fileName text
  refine ⟨ofTokens_parse fileName text, ?_,
    ⟨ht.id_root_add_one, ht.node?_root, ht.parent?_root, ht.root_notMem_childIds⟩, ?_, ?_, ?_, ?_, ?_⟩
  · intro id hid
    obtain ⟨n, hn⟩ := ht.exists_node hid
    exact ⟨n, hn, (ht.node?_iff.mp hn).2⟩
  · intro id n hn
    obtain ⟨hmem, rfl⟩ := ht.node?_iff.mp hn
    rw [← Kind.fits_file_iff, fits_file_iff fileName text hmem]
    refine ⟨fun h => h ▸ rfl, fun h => ?_⟩
    rw [h, ht.node?_root] at hn
    exact (Option.some.inj hn).symm
  · intro id hid hne
    obtain ⟨p, hp, hchild⟩ := ht.exists_parent hid hne
    obtain ⟨m, hm, rfl, -⟩ := ht.mem_childIds_iff.mp hchild
    exact ⟨m.id, hp, ht.lt_of_mem_childIds hchild, ht.id_lt_size hm, ht.count_childIds hchild⟩
  · exact fun id hid => ht.ancestorsWithin_of_le hid (Nat.sub_le ..)
  · exact fun id hid => ht.reachable hid
  · intro id n hn
    have hsits := sits_span (ht.node?_iff.mp hn).1
    exact ⟨hsits.le, hsits.stop.le_byteLength, hsits.start, hsits.stop⟩

end Tree

end ScriptAnalysis.Syntax

import ScriptAnalysis.Proofs.Ast.Nodes

/-!
# The numbers of a common tree

A common tree lists its nodes in the order of their numbers (`Numbered`). So a number leads to one node, the
recorded parent of a number is the node that has it among its children (`parent?_eq_some_iff`), a child has
a smaller number than its parent, and going through the tree from the root meets every number once
(`perm_preorder`).
-/

namespace ScriptAnalysis.Ast

open Syntax (numbered length_numbered)

variable {α : Type}

namespace Node

/-- An entry of a tree is the tree itself or a child under its parent. -/
theorem of_mem_entriesOnto {n : Node Place} {parent? : Option NodeId} {listed : Array Entry} {e : Entry}
    (h : e ∈ n.entriesOnto parent? listed) :
    e ∈ listed ∨ e = ⟨n, parent?⟩ ∨ ∃ m ∈ n.nodes, ∃ c ∈ m.children, e = ⟨c, some m.id⟩ := by
  induction n using induction_children generalizing parent? listed with
  | h n ih =>
    have hfold : ∀ (cs : List (Node Place)) (listed : Array Entry), (∀ c ∈ cs, c ∈ n.children) →
        e ∈ cs.foldl (fun listed c => c.entriesOnto (some n.id) listed) listed →
        e ∈ listed ∨ ∃ m ∈ n.nodes, ∃ c ∈ m.children, e = ⟨c, some m.id⟩ := by
      intro cs
      induction cs with
      | nil => exact fun listed _ h => .inl h
      | cons c cs ihs =>
        intro listed hcs h
        rcases ihs _ (fun c' hc' => hcs c' (List.mem_cons_of_mem _ hc')) h with h | h
        · have hc := hcs c List.mem_cons_self
          rcases ih c hc h with h | rfl | ⟨m, hm, h⟩
          · exact .inl h
          · exact .inr ⟨n, n.mem_nodes_self, c, hc, rfl⟩
          · exact .inr ⟨m, nodes_subset_of_mem_children hc hm, h⟩
        · exact .inr h
    rw [entriesOnto_eq, Array.mem_push] at h
    rcases h with h | rfl
    · exact (hfold _ _ (fun _ hc => hc) h).imp_right .inr
    · exact .inr (.inl rfl)

theorem map_id_labels (n : Node Place) : n.labels.map Place.id = n.nodes.map id := by
  rw [labels, List.map_map]
  rfl

/-- The nodes of a node of a tree stand together in the nodes of the tree. -/
theorem sublist_nodes_of_mem {n m : Node α} (h : m ∈ n.nodes) : m.nodes.Sublist n.nodes := by
  induction n using induction_children with
  | h n ih =>
    rcases mem_nodes_iff.mp h with h | rfl
    · obtain ⟨c, hc, hm⟩ := mem_inner_iff.mp h
      have hchild : c.nodes.Sublist (n.children.map nodes).flatten :=
        List.sublist_flatten_of_mem (List.mem_map_of_mem hc)
      rw [nodes_eq n]
      exact ((ih c hc hm).trans hchild).trans (List.sublist_append_left ..)
    · exact List.Sublist.refl _

/-- The children of the nodes of a tree, with the tree itself, are the nodes of the tree. -/
theorem perm_nodes (n : Node α) : (n.nodes.flatMap children ++ [n]).Perm n.nodes := by
  induction n using induction_children with
  | h n ih =>
    have hbelow : ∀ cs : List (Node α), (∀ c ∈ cs, c ∈ n.children) →
        ((cs.map nodes).flatten.flatMap children ++ cs).Perm (cs.map nodes).flatten := by
      intro cs
      induction cs with
      | nil => exact fun _ => .refl _
      | cons c cs ihs =>
        intro hcs
        have hc := ih c (hcs c List.mem_cons_self)
        have hrest := ihs fun c' hc' => hcs c' (List.mem_cons_of_mem _ hc')
        rw [List.map_cons, List.flatten_cons, List.flatMap_append]
        refine .trans ?_ (hc.append hrest)
        simp only [List.append_assoc, List.singleton_append]
        exact .append_left _ List.perm_middle
    rw [nodes_eq n, List.flatMap_append, List.flatMap_singleton]
    exact .append_right _ (hbelow _ fun _ hc => hc)

/-! ### Parents before their children -/

theorem preorderOnto_eq (n : Node Place) (rest : List NodeId) :
    n.preorderOnto rest = n.id :: n.children.foldr (fun c rest => c.preorderOnto rest) rest := by
  rw [preorderOnto, fold_eq, Kind.children_map, List.foldr_map]
  rfl

/-- Going through a tree meets the numbers of its nodes. -/
theorem perm_preorderOnto (n : Node Place) (rest : List NodeId) :
    (n.preorderOnto rest).Perm (n.nodes.map id ++ rest) := by
  induction n using induction_children generalizing rest with
  | h n ih =>
    have hfold : ∀ cs : List (Node Place), (∀ c ∈ cs, c ∈ n.children) →
        (cs.foldr (fun c rest => c.preorderOnto rest) rest).Perm
          ((cs.map nodes).flatten.map id ++ rest) := by
      intro cs
      induction cs with
      | nil => exact fun _ => .refl _
      | cons c cs ihs =>
        intro hcs
        have hrest := ihs fun c' hc' => hcs c' (List.mem_cons_of_mem _ hc')
        rw [List.foldr_cons, List.map_cons, List.flatten_cons, List.map_append, List.append_assoc]
        exact (ih c (hcs c List.mem_cons_self) _).trans (hrest.append_left _)
    rw [preorderOnto_eq, nodes_eq, List.map_append, List.map_singleton, List.append_assoc,
      List.singleton_append]
    exact ((hfold _ fun _ hc => hc).cons n.id).trans List.perm_middle.symm

end Node

namespace Tree

/-- The numbers of a node's children in source order. -/
def childIds (t : Tree) (id : NodeId) : List NodeId :=
  match t.node? id with
  | none => []
  | some n => n.children.map Node.id

/-- The entries of a tree are its nodes, and every node has its place among them as its number. -/
structure Numbered (t : Tree) : Prop where
  entries_eq : t.entries = t.root.entries
  map_id : t.root.nodes.map Node.id = List.range t.size

namespace Numbered

variable {t : Tree} (ht : t.Numbered)

include ht

theorem map_node_entries : t.entries.toList.map (·.node) = t.root.nodes := by
  rw [ht.entries_eq, Node.map_node_entries]

theorem length_nodes : t.root.nodes.length = t.size := by
  rw [← List.length_map Node.id, ht.map_id, List.length_range]

/-- The number of a node leads to the node. -/
theorem node?_iff {id : NodeId} {n : Node Place} : t.node? id = some n ↔ n ∈ t.root.nodes ∧ n.id = id := by
  have hget : t.node? id = t.root.nodes[id]? := by
    rw [← ht.map_node_entries, List.getElem?_map, Array.getElem?_toList]
    rfl
  have hid : ∀ {i : Nat} {m : Node Place}, t.root.nodes[i]? = some m → m.id = i := by
    intro i m hm
    have h := congrArg (·[i]?) ht.map_id
    simp only [List.getElem?_map, hm, Option.map_some] at h
    obtain ⟨hi, hid⟩ := List.getElem?_eq_some_iff.mp h.symm
    exact hid.symm.trans (List.getElem_range hi)
  rw [hget]
  constructor
  · exact fun h => ⟨List.mem_of_getElem? h, hid h⟩
  · rintro ⟨hn, rfl⟩
    obtain ⟨j, hj⟩ := List.getElem?_of_mem hn
    rw [hid hj, hj]

theorem node?_id {n : Node Place} (h : n ∈ t.root.nodes) : t.node? n.id = some n := ht.node?_iff.mpr ⟨h, rfl⟩

/-- The nodes have different numbers. -/
theorem nodup_ids : (t.root.nodes.map Node.id).Nodup := by
  rw [ht.map_id]
  exact List.nodup_range

/-- No number stands among the children of two nodes, or twice among those of one. -/
theorem nodup_children : ((t.root.nodes.flatMap Node.children).map Node.id).Nodup := by
  have h := ((t.root.perm_nodes.map Node.id).nodup_iff).mpr ht.nodup_ids
  rw [List.map_append] at h
  exact (List.nodup_append.mp h).1

theorem exists_node {id : NodeId} (h : id < t.size) : ∃ n, t.node? id = some n := by
  rw [← List.mem_range, ← ht.map_id] at h
  obtain ⟨n, hn, rfl⟩ := List.mem_map.mp h
  exact ⟨n, ht.node?_id hn⟩

theorem id_lt_size {n : Node Place} (h : n ∈ t.root.nodes) : n.id < t.size := by
  rw [← List.mem_range, ← ht.map_id]
  exact List.mem_map_of_mem h

/-! ### Parents and children -/

/-- A number is listed among the children of a node when a child of the node has it. -/
theorem mem_childIds_iff {id p : NodeId} :
    id ∈ t.childIds p ↔ ∃ n ∈ t.root.nodes, n.id = p ∧ ∃ c ∈ n.children, c.id = id := by
  constructor
  · intro h
    rw [childIds] at h
    split at h
    · simp at h
    · rename_i n hn
      obtain ⟨hmem, hid⟩ := ht.node?_iff.mp hn
      exact ⟨n, hmem, hid, List.mem_map.mp h⟩
  · rintro ⟨n, hn, rfl, hc⟩
    rw [childIds, ht.node?_id hn]
    exact List.mem_map.mpr hc

/-- Children have smaller numbers than their parent. -/
theorem id_lt_of_mem_children {n c : Node Place} (hn : n ∈ t.root.nodes) (hc : c ∈ n.children) :
    (c.id : Nat) < n.id := by
  have hordered : (t.root.nodes.map Node.id).Pairwise (· < ·) := ht.map_id ▸ List.pairwise_lt_range
  have hbelow := (List.pairwise_map.mp hordered).sublist (Node.sublist_nodes_of_mem hn)
  rw [Node.nodes_eq] at hbelow
  refine (List.pairwise_append.mp hbelow).2.2 c ?_ n (List.mem_singleton_self n)
  exact Node.mem_inner_iff.mpr ⟨c, hc, c.mem_nodes_self⟩

theorem lt_of_mem_childIds {id p : NodeId} (h : id ∈ t.childIds p) : (id : Nat) < p := by
  obtain ⟨n, hn, rfl, c, hc, rfl⟩ := ht.mem_childIds_iff.mp h
  exact ht.id_lt_of_mem_children hn hc

/-- What is recorded as the parent of a node is what has the node among its children. -/
theorem parent?_eq_some_iff {id p : NodeId} : t.parent? id = some p ↔ id ∈ t.childIds p := by
  rw [ht.mem_childIds_iff]
  constructor
  · intro h
    obtain ⟨e, he, hparent⟩ := Option.bind_eq_some_iff.mp h
    have hid : e.node.id = id := (ht.node?_iff.mp (congrArg (Option.map Entry.node) he)).2
    have hmem : e ∈ t.root.entriesOnto none #[] := by
      rw [← Node.entries, ← ht.entries_eq]
      exact Array.mem_of_getElem? he
    rcases Node.of_mem_entriesOnto hmem with hmem | rfl | ⟨m, hm, c, hc, rfl⟩
    · simp at hmem
    · cases hparent
    · exact ⟨m, hm, Option.some.inj hparent, c, hc, hid⟩
  · rintro ⟨n, hn, rfl, c, hc, rfl⟩
    have hmem : (⟨c, some n.id⟩ : Entry) ∈ t.entries := by
      rw [ht.entries_eq]
      exact Node.mem_entriesOnto (.inr (.inr ⟨n, hn, c, hc, rfl⟩))
    obtain ⟨j, hj⟩ := Array.getElem?_of_mem hmem
    have hnode : t.node? j = some c := congrArg (Option.map Entry.node) hj
    rw [(ht.node?_iff.mp hnode).2, parent?, hj]
    rfl

theorem parent?_id {n c : Node Place} (hn : n ∈ t.root.nodes) (hc : c ∈ n.children) :
    t.parent? c.id = some n.id :=
  ht.parent?_eq_some_iff.mpr (ht.mem_childIds_iff.mpr ⟨n, hn, rfl, c, hc, rfl⟩)

/-- The program is in no other node. -/
theorem parent?_root : t.parent? t.root.id = none := by
  cases h : t.parent? t.root.id with
  | none => rfl
  | some p =>
    rw [ht.parent?_eq_some_iff, ht.mem_childIds_iff] at h
    obtain ⟨n, hn, rfl, c, hc, hid⟩ := h
    have hlt := ht.id_lt_of_mem_children hn hc
    -- the root has the largest number
    have hordered : (t.root.nodes.map Node.id).Pairwise (· < ·) := ht.map_id ▸ List.pairwise_lt_range
    have hlast := List.pairwise_map.mp hordered
    rw [Node.nodes_eq] at hlast
    rcases Node.mem_nodes_iff.mp hn with hn | rfl
    · have hroot := (List.pairwise_append.mp hlast).2.2 n hn t.root (List.mem_singleton_self _)
      rw [hid] at hlt
      exact absurd hroot (Nat.lt_asymm hlt)
    · exact absurd hid (Nat.ne_of_lt hlt)

/-- Going through the tree meets every number once, the program first. -/
theorem perm_preorder : t.preorder.Perm (List.range t.size) ∧ t.preorder.head? = some t.root.id := by
  refine ⟨?_, ?_⟩
  · rw [← ht.map_id, ← List.append_nil (t.root.nodes.map Node.id)]
    exact t.root.perm_preorderOnto []
  · rw [preorder, Node.preorderOnto_eq, List.head?_cons]

end Numbered

end Tree

/-- The common tree of a file lists its nodes by their numbers. -/
theorem Conversion.numbered_ofTree {tree : Syntax.Tree} {settings : Settings} {conversion : Conversion}
    (h : ofTree tree settings = .ok conversion) : conversion.tree.Numbered := by
  obtain ⟨f, hf, hroot, hentries, -⟩ := of_ofTree_eq_ok h
  have hids : conversion.tree.root.labels.map Place.id = List.range conversion.tree.root.labels.length := by
    rw [hroot, Node.labels_number, length_numbered, List.range_eq_range']
    generalize (0 : Nat) = i
    induction (program tree).labels generalizing i with
    | nil => rfl
    | cons l ls ih => rw [numbered, List.map_cons, (hf i l).1, ih, List.length_cons, List.range'_succ]
  rw [Node.map_id_labels, Node.labels, List.length_map] at hids
  refine ⟨hroot ▸ hentries, hids.trans (congrArg List.range ?_)⟩
  rw [← Node.map_node_entries, List.length_map, Array.length_toList, Tree.size, hentries, ← hroot]

end ScriptAnalysis.Ast

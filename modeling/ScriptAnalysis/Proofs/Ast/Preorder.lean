import ScriptAnalysis.Proofs.Ast.Allocation
import ScriptAnalysis.Proofs.Ast.Nesting

/-!
# Going through a common tree

The common tree of a file is a tree in its numbers and in its places (`WellNested`): parents and children
agree, every child lies inside its parent, and children of one node stand in order. So going through the
tree, parents first, meets the nodes in the order in which they start.

`preorder` goes through the nodes themselves; `walk` goes through their numbers with a stack, and meets the
same numbers (`walk_eq_preorder`).
-/

namespace ScriptAnalysis.Ast

variable {α : Type}

namespace Node

/-- The nodes of a tree, parents before their children. -/
def preorder (n : Node α) : List (Node α) := n.fold fun n k => n :: k.children.flatten

theorem preorder_eq (n : Node α) : n.preorder = n :: (n.children.map preorder).flatten := by
  rw [preorder, fold_eq, Kind.children_map]
  rfl

theorem mem_preorder_iff {n m : Node α} : m ∈ n.preorder ↔ m ∈ n.nodes := by
  induction n using induction_children with
  | h n ih =>
    rw [preorder_eq, List.mem_cons, mem_nodes_iff, mem_inner_iff, ← List.flatMap_def, List.mem_flatMap,
      or_comm]
    exact or_congr_left (exists_congr fun c => and_congr_right (ih c))

theorem preorderOnto_eq_append (n : Node Place) (rest : List NodeId) :
    n.preorderOnto rest = n.preorder.map id ++ rest := by
  induction n using induction_children generalizing rest with
  | h n ih =>
    have hfold : ∀ cs : List (Node Place), (∀ c ∈ cs, c ∈ n.children) →
        cs.foldr (fun c rest => c.preorderOnto rest) rest = (cs.map preorder).flatten.map id ++ rest := by
      intro cs
      induction cs with
      | nil => exact fun _ => rfl
      | cons c cs ihs =>
        intro hcs
        rw [List.foldr_cons, ihs fun c' hc' => hcs c' (List.mem_cons_of_mem _ hc'),
          ih c (hcs c List.mem_cons_self), List.map_cons, List.flatten_cons, List.map_append, List.append_assoc]
    rw [preorderOnto_eq, preorder_eq, hfold _ fun _ hc => hc]
    rfl

/-! ### Nested trees -/

variable {f : α → Span} {n : Node α}

theorem Nested.of_mem_nodes (h : n.Nested f) {m : Node α} (hm : m ∈ n.nodes) : m.Nested f :=
  fun l hl => h l (nodes_subset_of_mem_nodes hm hl)

/-- A node inside another covers characters and lies inside what the other covers. -/
theorem Nested.of_mem_inner (h : n.Nested f) {m : Node α} (hm : m ∈ n.inner) :
    (f n.label).start ≤ (f m.label).start ∧ (f m.label).start < (f m.label).stop ∧
      (f m.label).stop ≤ (f n.label).stop := by
  induction n using induction_children with
  | h n ih =>
    obtain ⟨c, hc, hm⟩ := mem_inner_iff.mp hm
    obtain ⟨hrow, hbelow⟩ := nested_iff.mp h
    obtain ⟨hstart, hlt, hstop⟩ := hrow.of_mem (List.mem_map_of_mem (f := fun c => f c.label) hc)
    rcases mem_nodes_iff.mp hm with hm | rfl
    · obtain ⟨hstart', hlt', hstop'⟩ := ih c hc (hbelow c hc) hm
      exact ⟨Nat.le_trans hstart hstart', hlt', Nat.le_trans hstop' hstop⟩
    · exact ⟨hstart, hlt, hstop⟩

/-- Parents first, the nodes of a nested tree stand in the order in which they start. -/
theorem Nested.pairwise_preorder (h : n.Nested f) :
    n.preorder.Pairwise fun a b => (f a.label).start ≤ (f b.label).start := by
  induction n using induction_children with
  | h n ih =>
    obtain ⟨hrow, hbelow⟩ := nested_iff.mp h
    rw [preorder_eq, List.pairwise_cons, List.pairwise_flatten, List.forall_mem_map]
    refine ⟨fun m hm => ?_, fun c hc => ih c hc (hbelow c hc), ?_⟩
    · rw [← List.flatMap_def, List.mem_flatMap] at hm
      obtain ⟨c, hc, hm⟩ := hm
      exact (h.of_mem_inner (mem_inner_iff.mpr ⟨c, hc, mem_preorder_iff.mp hm⟩)).1
    · -- what is inside a child stands before what is inside a later one
      have hapart := List.pairwise_map.mp hrow.pairwise
      rw [List.pairwise_map]
      refine hapart.imp_of_mem fun {c c'} hc hc' hle a ha b hb => ?_
      have hbounds : ∀ {c m}, c ∈ n.children → m ∈ c.preorder →
          (f c.label).start ≤ (f m.label).start ∧ (f m.label).start < (f m.label).stop ∧
            (f m.label).stop ≤ (f c.label).stop := by
        intro c m hc hm
        rcases mem_nodes_iff.mp (mem_preorder_iff.mp hm) with hm | rfl
        · exact (hbelow c hc).of_mem_inner hm
        · have hmem := hrow.of_mem (List.mem_map_of_mem (f := fun c => f c.label) hc)
          exact ⟨Nat.le_refl _, hmem.2.1, Nat.le_refl _⟩
      have hfirst := hbounds hc ha
      have hsecond := hbounds hc' hb
      omega

end Node

/-! ### Numbers on a stack -/

namespace Tree

/-- The numbers met within a number of steps: a step takes a number from the stack and puts its children's
numbers there. -/
def walk (t : Tree) : Nat → List NodeId → List NodeId
  | 0, _ | _ + 1, [] => []
  | steps + 1, id :: stack => id :: t.walk steps (t.childIds id ++ stack)

/-- What a node covers. -/
def range? (t : Tree) (id : NodeId) : Option Span := (t.node? id).map (·.location.range)

namespace Numbered

variable {t : Tree} (ht : t.Numbered)

include ht

theorem childIds_id {n : Node Place} (hn : n ∈ t.root.nodes) : t.childIds n.id = n.children.map Node.id := by
  rw [childIds, ht.node?_id hn]

theorem range?_id {n : Node Place} (hn : n ∈ t.root.nodes) : t.range? n.id = some n.location.range := by
  rw [range?, ht.node?_id hn]
  rfl

/-- A number on the stack is gone through with everything below it. -/
theorem walk_cons {n : Node Place} (hn : n ∈ t.root.nodes) (steps : Nat) (stack : List NodeId) :
    t.walk (n.preorder.length + steps) (n.id :: stack) = n.preorder.map Node.id ++ t.walk steps stack := by
  induction n using Node.induction_children generalizing steps stack with
  | h n ih =>
    have hchildren : ∀ cs : List (Node Place), (∀ c ∈ cs, c ∈ n.children) →
        t.walk ((cs.map Node.preorder).flatten.length + steps) (cs.map Node.id ++ stack) =
          (cs.map Node.preorder).flatten.map Node.id ++ t.walk steps stack := by
      intro cs
      induction cs with
      | nil => intro; simp
      | cons c cs ihs =>
        intro hcs
        obtain ⟨hc, hcs⟩ := List.forall_mem_cons.mp hcs
        have hmem := Node.nodes_subset_of_mem_nodes hn (Node.nodes_subset_of_mem_children hc c.mem_nodes_self)
        rw [List.map_cons, List.map_cons, List.flatten_cons, List.length_append, Nat.add_assoc,
          List.cons_append, ih c hc hmem, ihs hcs, List.map_append, List.append_assoc]
    rw [Node.preorder_eq, List.length_cons, Nat.add_right_comm, walk, ht.childIds_id hn,
      hchildren _ fun _ hc => hc]
    rfl

/-- Going through the numbers with a stack gives the order of the tree. -/
theorem walk_eq_preorder : t.walk t.size [t.root.id] = t.preorder := by
  have hlength : t.root.preorder.length = t.size := by
    have h := ht.perm_preorder.1.length_eq
    rwa [Tree.preorder, Node.preorderOnto_eq_append, List.append_nil, List.length_map, List.length_range] at h
  have h := ht.walk_cons t.root.mem_nodes_self 0 []
  rw [hlength] at h
  rw [Tree.preorder, Node.preorderOnto_eq_append]
  exact h

end Numbered

/-! ### The whole tree -/

/-- A common tree is a tree in its numbers and in its places. -/
structure WellNested (t : Tree) : Prop where
  /-- The nodes have the numbers below the size of the tree. -/
  node : ∀ id, (t.node? id).isSome = true ↔ id < t.size
  /-- Going through the tree meets every number once. -/
  perm : t.preorder.Perm (List.range t.size)
  /-- The program comes first. -/
  first : t.preorder.head? = some t.root.id
  /-- Going through the numbers with a stack meets them in the same order. -/
  walk : t.walk t.size [t.root.id] = t.preorder
  /-- The parent of a node is what has it among its children. -/
  parent : ∀ c p, t.parent? c = some p ↔ c ∈ t.childIds p
  /-- Children have smaller numbers than their parent. -/
  lt : ∀ c p, c ∈ t.childIds p → c < p
  /-- Children cover characters, and lie inside their parent. -/
  inside : ∀ c p, c ∈ t.childIds p → ∃ inner outer,
    t.range? c = some inner ∧ t.range? p = some outer ∧
      outer.start ≤ inner.start ∧ inner.start < inner.stop ∧ inner.stop ≤ outer.stop
  /-- The children of a node do not overlap, and stand in order. -/
  apart : ∀ p, (t.childIds p).Pairwise fun a b =>
    ∀ first ∈ t.range? a, ∀ second ∈ t.range? b, first.stop ≤ second.start
  /-- Parents first, the nodes stand in the order in which they start. -/
  ordered : t.preorder.Pairwise fun a b =>
    ∀ first ∈ t.range? a, ∀ second ∈ t.range? b, first.start ≤ second.start

/-- A tree that is numbered and whose nodes are nested is a tree in both ways. -/
theorem Numbered.wellNested {t : Tree} (ht : t.Numbered) (hnested : t.root.Nested (·.location.range)) :
    t.WellNested where
  node id := by
    constructor
    · intro h
      obtain ⟨n, hn⟩ := Option.isSome_iff_exists.mp h
      obtain ⟨hmem, rfl⟩ := ht.node?_iff.mp hn
      exact ht.id_lt_size hmem
    · intro h
      obtain ⟨n, hn⟩ := ht.exists_node h
      exact Option.isSome_of_eq_some hn
  perm := ht.perm_preorder.1
  first := ht.perm_preorder.2
  walk := ht.walk_eq_preorder
  parent _ _ := ht.parent?_eq_some_iff
  lt _ _ := ht.lt_of_mem_childIds
  inside c p h := by
    obtain ⟨n, hn, rfl, c, hc, rfl⟩ := ht.mem_childIds_iff.mp h
    have hmem := Node.nodes_subset_of_mem_nodes hn (Node.nodes_subset_of_mem_children hc c.mem_nodes_self)
    exact ⟨_, _, ht.range?_id hmem, ht.range?_id hn,
      (hnested.of_mem_nodes hn).of_mem_inner (Node.mem_inner_iff.mpr ⟨c, hc, c.mem_nodes_self⟩)⟩
  apart p := by
    rw [childIds]
    split
    · exact .nil
    · rename_i n hnode
      have hn := (ht.node?_iff.mp hnode).1
      have hrow := (Node.nested_iff.mp (hnested.of_mem_nodes hn)).1
      rw [List.pairwise_map]
      refine (List.pairwise_map.mp hrow.pairwise).imp_of_mem fun {a b} ha hb hle => ?_
      have hmem : ∀ {c}, c ∈ n.children → c ∈ t.root.nodes := fun hc =>
        Node.nodes_subset_of_mem_nodes hn (Node.nodes_subset_of_mem_children hc (Node.mem_nodes_self _))
      rw [ht.range?_id (hmem ha), ht.range?_id (hmem hb)]
      rintro _ ⟨⟩ _ ⟨⟩
      exact hle
  ordered := by
    rw [Tree.preorder, Node.preorderOnto_eq_append, List.append_nil, List.pairwise_map]
    refine hnested.pairwise_preorder.imp_of_mem fun {a b} ha hb hle => ?_
    rw [ht.range?_id (Node.mem_preorder_iff.mp ha), ht.range?_id (Node.mem_preorder_iff.mp hb)]
    rintro _ ⟨⟩ _ ⟨⟩
    exact hle

end Tree

/-- With offsets asked for, what a node covers is what the change of shape says. -/
theorem Conversion.map_range_root {tree : Syntax.Tree} {settings : Settings} {conversion : Conversion}
    (h : ofTree tree settings = .ok conversion) (hranges : settings.ranges = true) :
    conversion.tree.root.map (·.location.range) = (program tree).map Origin.span :=
  map_root h fun _ _ => if_pos hranges

end ScriptAnalysis.Ast

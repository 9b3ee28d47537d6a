import ScriptAnalysis.Proofs.Syntax.Bare
import ScriptAnalysis.Syntax.Tree

/-!
# The nodes of a tree and their numbers

`Node.nodes` lists the nodes of a tree, children before their parent and in source order. Numbering gives
every node its place in that list as its number (`labels_number`), and the entries of a file are that list
(`map_node_entries`); so the number of a node leads back to the node (`node?_id`).
-/

namespace ScriptAnalysis.Syntax

variable {α β : Type}

/-! ### Numbering a list -/

/-- The labels changed by `f`, which also gets their numbers, counted from `i`. -/
def numbered (f : Nat → α → β) (i : Nat) : List α → List β
  | [] => []
  | l :: ls => f i l :: numbered f (i + 1) ls

section

variable (f : Nat → α → β)

@[simp] theorem length_numbered (i : Nat) (ls : List α) : (numbered f i ls).length = ls.length := by
  induction ls generalizing i with
  | nil => rfl
  | cons l ls ih => simp [numbered, ih]

theorem numbered_append (i : Nat) (ls ls' : List α) :
    numbered f i (ls ++ ls') = numbered f i ls ++ numbered f (i + ls.length) ls' := by
  induction ls generalizing i with
  | nil => rfl
  | cons l ls ih =>
    rw [List.cons_append, numbered, numbered, ih, List.length_cons, Nat.add_right_comm, Nat.add_assoc]
    rfl

theorem getElem?_numbered (i j : Nat) (ls : List α) :
    (numbered f i ls)[j]? = ls[j]?.map (f (i + j)) := by
  induction ls generalizing i j with
  | nil => rfl
  | cons l ls ih =>
    cases j with
    | zero => rfl
    | succ j =>
      rw [numbered, List.getElem?_cons_succ, List.getElem?_cons_succ, ih, Nat.add_right_comm,
        Nat.add_assoc]

end

namespace Node

/-! ### The nodes of a tree -/

/-- The nodes of a tree, children before their parent and in source order. -/
def nodes (n : Node α) : List (Node α) := n.fold fun n k => k.children.flatten ++ [n]

/-- The labels of the nodes of a tree. -/
def labels (n : Node α) : List α := n.nodes.map label

theorem nodes_eq (n : Node α) : n.nodes = (n.children.map nodes).flatten ++ [n] := by
  rw [nodes, fold_eq, Kind.children_map]
  rfl

theorem labels_eq (n : Node α) : n.labels = (n.children.map labels).flatten ++ [n.label] := by
  rw [labels, nodes_eq, List.map_append, List.map_flatten, List.map_map]
  rfl

theorem mem_nodes_self (n : Node α) : n ∈ n.nodes := by
  rw [nodes_eq]
  simp

/-- The nodes of a child are nodes of the tree. -/
theorem nodes_subset_of_mem_children {n c : Node α} (h : c ∈ n.children) : c.nodes ⊆ n.nodes := by
  intro m hm
  rw [nodes_eq n, List.mem_append]
  exact .inl (List.mem_flatten.mpr ⟨_, List.mem_map_of_mem h, hm⟩)

/-- The nodes of a tree without the tree itself. -/
def inner (n : Node α) : List (Node α) := (n.children.map nodes).flatten

theorem mem_inner_iff {n m : Node α} : m ∈ n.inner ↔ ∃ c ∈ n.children, m ∈ c.nodes := by
  rw [inner, ← List.flatMap_def, List.mem_flatMap]

theorem mem_nodes_iff {n m : Node α} : m ∈ n.nodes ↔ m ∈ n.inner ∨ m = n := by
  rw [nodes_eq, List.mem_append, List.mem_singleton]
  rfl

/-! ### Numbering a tree -/

/-- The labels below a kind. -/
def labelsBelow (k : Kind (Ident α) (Node α)) : List α :=
  (k.map (fun i => [i.label]) labels).children.flatten

@[simp] theorem labels_toNode (i : Ident α) : i.toNode.labels = [i.label] := rfl

@[simp] theorem labels_mk (l : α) (k : Kind (Ident α) (Node α)) :
    (mk l k).labels = labelsBelow k ++ [l] := by
  rw [labels_eq, labelsBelow, children, ← Kind.children_map, shape, Kind.map_map]
  rfl

/-- A step of numbering: the label changed by `f`, which gets the next number. -/
def tick (f : Nat → α → β) (a : α) : StateM Nat β := do
  let next ← getModify (· + 1)
  pure (f next a)

@[simp] theorem run_tick (f : Nat → α → β) (a : α) (i : Nat) :
    (tick f a).run i = (f i a, i + 1) := rfl

theorem snd_pure_id {σ : Type} (x : β × σ) : (pure x : Id (β × σ)).snd = x.snd := rfl

theorem snd_bind_id {σ : Type} (g : α × σ → Id (β × σ)) (x : Id (α × σ)) :
    (x >>= g).snd = Prod.snd (g x) := rfl

mutual

theorem run_mapM_tick (f : Nat → α → β) :
    (n : Node α) → (i : Nat) →
      ((n.mapM (tick f)).run i).1.labels = numbered f i n.labels ∧
        ((n.mapM (tick f)).run i).2 = i + n.labels.length
  | .mk l k, i => by
    obtain ⟨h1, h2⟩ := run_mapKindM_tick f k i
    have h1' : ((mapM (tick f) (mk l k)).run i).1 =
      mk (f ((mapKindM (tick f) k).run i).2 l) ((mapKindM (tick f) k).run i).1 := rfl
    have h2' : ((mapM (tick f) (mk l k)).run i).2 = ((mapKindM (tick f) k).run i).2 + 1 := rfl
    rw [h1', h2', labels_mk, labels_mk, h1, h2, numbered_append]
    simp [numbered, Nat.add_assoc]

theorem run_mapKindM_tick (f : Nat → α → β) :
    (k : Kind (Ident α) (Node α)) → (i : Nat) →
      labelsBelow ((mapKindM (tick f) k).run i).1 = numbered f i (labelsBelow k) ∧
        ((mapKindM (tick f) k).run i).2 = i + (labelsBelow k).length
  | k, i => by
    cases k <;>
      simp [-bind_pure_comp, mapKindM, labelsBelow, Kind.map, Kind.children, Ident.mapM, fst_pure_id,
        fst_bind_id, snd_pure_id, snd_bind_id, run_mapM_tick f, run_mapListM_tick f,
        run_mapOptionM_tick f, numbered, numbered_append, Nat.add_assoc] <;>
      omega

theorem run_mapListM_tick (f : Nat → α → β) :
    (ns : List (Node α)) → (i : Nat) →
      (((mapListM (tick f) ns).run i).1.map labels).flatten =
          numbered f i (ns.map labels).flatten ∧
        ((mapListM (tick f) ns).run i).2 = i + (ns.map labels).flatten.length
  | [], i => ⟨rfl, rfl⟩
  | n :: ns, i => by
    obtain ⟨h1, h2⟩ := run_mapM_tick f n i
    obtain ⟨h1', h2'⟩ := run_mapListM_tick f ns (i + n.labels.length)
    have h3 : (mapListM (tick f) (n :: ns)).run i =
      (((n.mapM (tick f)).run i).1 :: ((mapListM (tick f) ns).run ((n.mapM (tick f)).run i).2).1,
        ((mapListM (tick f) ns).run ((n.mapM (tick f)).run i).2).2) := rfl
    rw [h3, h2]
    simp only [List.map_cons, List.flatten_cons, List.length_append, numbered_append, h1, h1', h2']
    exact ⟨trivial, Nat.add_assoc ..⟩

theorem run_mapOptionM_tick (f : Nat → α → β) :
    (n? : Option (Node α)) → (i : Nat) →
      ((((mapOptionM (tick f) n?).run i).1.map labels).toList).flatten =
          numbered f i (n?.map labels).toList.flatten ∧
        ((mapOptionM (tick f) n?).run i).2 = i + (n?.map labels).toList.flatten.length
  | none, i => ⟨rfl, rfl⟩
  | some n, i => by
    obtain ⟨h1, h2⟩ := run_mapM_tick f n i
    have h3 : (mapOptionM (tick f) (some n)).run i =
      (some ((n.mapM (tick f)).run i).1, ((n.mapM (tick f)).run i).2) := rfl
    rw [h3]
    simp [h1, h2]

end

/-- Numbering gives every label its place in the list of labels. -/
theorem labels_number (f : Nat → α → β) (n : Node α) :
    (n.number f).labels = numbered f 0 n.labels :=
  (run_mapM_tick f n 0).1

/-! ### The entries of a file -/

theorem entriesOnto_eq (n : Node Place) (parent? : Option NodeId) (listed : Array Entry) :
    n.entriesOnto parent? listed =
      (n.children.foldl (fun listed c => c.entriesOnto (some n.id) listed) listed).push
        ⟨n, parent?⟩ := by
  rw [entriesOnto, fold_eq, Kind.children_map, List.foldl_map]
  rfl

theorem lt_foldr_add {sizes : List Nat} {s : Nat} (h : s ∈ sizes) : s < sizes.foldr (· + ·) 1 := by
  have hpos : ∀ sizes : List Nat, 0 < sizes.foldr (· + ·) 1 := by
    intro sizes
    induction sizes with
    | nil => exact Nat.one_pos
    | cons first sizes ih =>
      rw [List.foldr_cons]
      omega
  induction sizes with
  | nil => simp at h
  | cons first sizes ih =>
    rw [List.foldr_cons]
    rcases List.mem_cons.mp h with rfl | h
    · have := hpos sizes
      omega
    · have := ih h
      omega

theorem size_lt_of_mem_children {n c : Node α} (h : c ∈ n.children) : c.size < n.size := by
  rw [size_eq n]
  exact lt_foldr_add (List.mem_map_of_mem h)

/-- A property of trees holds of all when it holds of a node whenever it holds of the children. -/
theorem induction_children {P : Node α → Prop} (h : ∀ n, (∀ c ∈ n.children, P c) → P n)
    (n : Node α) : P n := by
  refine h n fun c hc => ?_
  have := size_lt_of_mem_children hc
  exact induction_children h c
termination_by n.size

/-- The nodes of a node of a tree are nodes of the tree. -/
theorem nodes_subset_of_mem_nodes {n m : Node α} (h : m ∈ n.nodes) : m.nodes ⊆ n.nodes := by
  induction n using induction_children with
  | h n ih =>
    rcases mem_nodes_iff.mp h with h | rfl
    · obtain ⟨c, hc, hm⟩ := mem_inner_iff.mp h
      exact fun x hx => nodes_subset_of_mem_children hc (ih c hc hm hx)
    · exact fun x hx => hx

theorem map_node_entriesOnto (n : Node Place) (parent? : Option NodeId) (listed : Array Entry) :
    (n.entriesOnto parent? listed).toList.map (·.node) = listed.toList.map (·.node) ++ n.nodes := by
  induction n using induction_children generalizing parent? listed with
  | h n ih =>
    have hfold : ∀ (cs : List (Node Place)) (listed : Array Entry), (∀ c ∈ cs, c ∈ n.children) →
        (cs.foldl (fun listed c => c.entriesOnto (some n.id) listed) listed).toList.map (·.node) =
          listed.toList.map (·.node) ++ (cs.map nodes).flatten := by
      intro cs
      induction cs with
      | nil => simp
      | cons c cs ihs =>
        intro listed hcs
        rw [List.foldl_cons, ihs _ fun c' hc' => hcs c' (List.mem_cons_of_mem _ hc'),
          ih c (hcs c List.mem_cons_self), List.map_cons, List.flatten_cons, List.append_assoc]
    rw [entriesOnto_eq, nodes_eq, Array.toList_push, List.map_append,
      hfold _ _ fun _ hc => hc, List.append_assoc]
    rfl

/-- The entries of a tree are its nodes. -/
theorem map_node_entries (n : Node Place) : n.entries.toList.map (·.node) = n.nodes :=
  map_node_entriesOnto n none #[]

/-- An entry of a tree is the tree itself or a child under its parent. -/
theorem of_mem_entriesOnto {n : Node Place} {parent? : Option NodeId} {listed : Array Entry} {e : Entry}
    (h : e ∈ n.entriesOnto parent? listed) :
    e ∈ listed ∨ e = ⟨n, parent?⟩ ∨ ∃ m ∈ n.nodes, ∃ c ∈ m.children, e = ⟨c, some m.id⟩ := by
  induction n using induction_children generalizing parent? listed with
  | h n ih =>
    have hfold : ∀ (cs : List (Node Place)) (listed : Array Entry), (∀ c ∈ cs, c ∈ n.children) →
        e ∈ cs.foldl (fun listed c => c.entriesOnto (some n.id) listed) listed →
        e ∈ listed ∨ ∃ m ∈ n.nodes, ∃ c ∈ m.children, e = ⟨c, some m.id⟩ := by
      intro cs
      induction cs with
      | nil => exact fun listed _ h => .inl h
      | cons c cs ihs =>
        intro listed hcs h
        rcases ihs _ (fun c' hc' => hcs c' (List.mem_cons_of_mem _ hc')) h with h | h
        · have hc := hcs c List.mem_cons_self
          rcases ih c hc h with h | rfl | ⟨m, hm, h⟩
          · exact .inl h
          · exact .inr ⟨n, n.mem_nodes_self, c, hc, rfl⟩
          · exact .inr ⟨m, nodes_subset_of_mem_children hc hm, h⟩
        · exact .inr h
    rw [entriesOnto_eq, Array.mem_push] at h
    rcases h with h | rfl
    · exact (hfold _ _ (fun _ hc => hc) h).imp_right .inr
    · exact .inr (.inl rfl)

/-- The numbers of numbered labels count from the first one on. -/
theorem map_id_numbered (f : Nat → α → Place) (hf : ∀ i a, (f i a).id = i) (i : Nat) (ls : List α) :
    (numbered f i ls).map Place.id = List.range' i ls.length := by
  induction ls generalizing i with
  | nil => rfl
  | cons l ls ih => rw [numbered, List.map_cons, hf, ih, List.length_cons, List.range'_succ]

/-- The number of a node of a numbered tree is its place among the nodes. -/
theorem map_id_labels_number (f : Nat → α → Place) (hf : ∀ i a, (f i a).id = i) (n : Node α) :
    (n.number f).labels.map Place.id = List.range (n.number f).labels.length := by
  rw [labels_number, map_id_numbered f hf, length_numbered, List.range_eq_range']

/-- The nodes of a numbered tree have different numbers. -/
theorem nodup_map_id_labels (f : Nat → α → Place) (hf : ∀ i a, (f i a).id = i) (n : Node α) :
    ((n.number f).labels.map Place.id).Nodup := by
  rw [map_id_labels_number f hf]
  exact List.nodup_range

end Node

namespace Tree

/-! ### The nodes of a file -/

theorem root_parse (fileName text : String) :
    (Tree.parse fileName text).root = (parseTokens (.ofChars text.toList)).1.number Place.mk :=
  rfl

theorem entries_parse (fileName text : String) :
    (Tree.parse fileName text).entries = (Tree.parse fileName text).root.entries :=
  rfl

/-- The entries of the tree are its nodes, and every node has its place among them as its number. -/
structure Numbered (t : Tree) : Prop where
  entries_eq : t.entries = t.root.entries
  map_id : t.root.nodes.map Node.id = List.range t.size

theorem Numbered.map_node_entries {t : Tree} (ht : t.Numbered) :
    t.entries.toList.map (·.node) = t.root.nodes := by
  rw [ht.entries_eq, Node.map_node_entries]

/-- The number of a node leads to the node. -/
theorem Numbered.node?_iff {t : Tree} (ht : t.Numbered) {id : NodeId} {n : Node Place} :
    t.node? id = some n ↔ n ∈ t.root.nodes ∧ n.id = id := by
  have hget : t.node? id = t.root.nodes[id]? := by
    rw [← ht.map_node_entries, List.getElem?_map, Array.getElem?_toList]
    rfl
  have hid : ∀ {i : Nat} {m : Node Place}, t.root.nodes[i]? = some m → m.id = i := by
    intro i m hm
    have h := congrArg (·[i]?) ht.map_id
    simp only [List.getElem?_map, hm, Option.map_some] at h
    obtain ⟨hi, hid⟩ := List.getElem?_eq_some_iff.mp h.symm
    exact hid.symm.trans (List.getElem_range hi)
  rw [hget]
  constructor
  · exact fun h => ⟨List.mem_of_getElem? h, hid h⟩
  · rintro ⟨hn, rfl⟩
    obtain ⟨j, hj⟩ := List.getElem?_of_mem hn
    rw [hid hj, hj]

theorem numbered_parse (fileName text : String) : (Tree.parse fileName text).Numbered := by
  have hids := Node.map_id_labels_number Place.mk (fun _ _ => rfl) (parseTokens (.ofChars text.toList)).1
  rw [← root_parse fileName text, Node.labels, List.map_map, List.length_map] at hids
  have hlength : (Tree.parse fileName text).root.nodes.length = (Tree.parse fileName text).size := by
    rw [← Node.map_node_entries, List.length_map, Array.length_toList, size, entries_parse]
  exact ⟨entries_parse fileName text, hlength ▸ hids⟩

/-- The number of a node of a file leads back to the node. -/
theorem node?_id (fileName text : String) {n : Node Place}
    (h : n ∈ (Tree.parse fileName text).root.nodes) :
    (Tree.parse fileName text).node? n.id = some n :=
  (numbered_parse fileName text).node?_iff.mpr ⟨h, rfl⟩

/-- A number leads to the node with that number. -/
theorem of_node?_eq_some {fileName text : String} {id : NodeId} {n : Node Place}
    (h : (Tree.parse fileName text).node? id = some n) :
    n ∈ (Tree.parse fileName text).root.nodes ∧ n.id = id :=
  (numbered_parse fileName text).node?_iff.mp h

/-! ### The nodes above a node -/

/-- The first node is above the second. -/
def Above (t : Tree) (a b : NodeId) : Prop :=
  Relation.TransGen (fun id parent => t.parent? id = some parent) b a

/-- A node is a child of its parent. -/
theorem mem_children_of_parent? {fileName text : String} {id parent : NodeId}
    (h : (Tree.parse fileName text).parent? id = some parent) :
    ∃ n ∈ (Tree.parse fileName text).root.nodes, n.id = parent ∧ ∃ c ∈ n.children, c.id = id := by
  obtain ⟨e, he, hparent⟩ := Option.bind_eq_some_iff.mp h
  have hid : e.node.id = id := (of_node?_eq_some (congrArg (Option.map Entry.node) he)).2
  rcases Node.of_mem_entriesOnto (Array.mem_of_getElem? he) with h | rfl | ⟨m, hm, c, hc, rfl⟩
  · simp at h
  · cases hparent
  · exact ⟨m, hm, Option.some.inj hparent, c, hc, hid⟩

/-- What is above a node has the node below it. -/
theorem mem_inner_of_above {fileName text : String} {a b : NodeId}
    (h : (Tree.parse fileName text).Above a b) :
    ∃ n ∈ (Tree.parse fileName text).root.nodes, n.id = a ∧ ∃ m ∈ n.inner, m.id = b := by
  induction h with
  | single h =>
    obtain ⟨n, hn, hid, c, hc, hcid⟩ := mem_children_of_parent? h
    exact ⟨n, hn, hid, c, Node.mem_inner_iff.mpr ⟨c, hc, c.mem_nodes_self⟩, hcid⟩
  | tail _ h ih =>
    obtain ⟨x, hx, hxid, m, hm, hmid⟩ := ih
    obtain ⟨n, hn, hid, c, hc, hcid⟩ := mem_children_of_parent? h
    have hcx : c = x := by
      have hcget := node?_id fileName text (Node.nodes_subset_of_mem_nodes hn
        (Node.nodes_subset_of_mem_children hc c.mem_nodes_self))
      rw [hcid, ← hxid, node?_id fileName text hx] at hcget
      exact (Option.some.inj hcget).symm
    refine ⟨n, hn, hid, m, Node.mem_inner_iff.mpr ⟨c, hc, ?_⟩, hmid⟩
    exact hcx ▸ Node.mem_nodes_iff.mpr (.inl hm)

end Tree

end ScriptAnalysis.Syntax

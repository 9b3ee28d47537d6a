import ScriptAnalysis.Ast.Conversion
import ScriptAnalysis.Proofs.Syntax.Nodes

/-!
# The nodes of a common tree and their numbers

As with the trees that are read from text, `Node.nodes` lists the nodes, children before their parent, and
numbering gives every node its place in that list. `Node.map` changes labels one by one; numbering a tree
and then dropping the numbers again is such a change (`map_number`). The maps of a conversion lead from
the number of a node back to its origin (`origin?_id`).
-/

namespace ScriptAnalysis.Ast

open Syntax (numbered numbered_append getElem?_numbered length_numbered)
open Syntax.Node (tick fst_pure_id fst_bind_id snd_pure_id snd_bind_id)

variable {α β γ : Type}

theorem Kind.map_map {ν ν' ν'' β'' β' : Type} (f : ν → ν') (g : β → β') (f' : ν' → ν'')
    (g' : β' → β'') (k : Kind ν β) :
    (k.map f g).map f' g' = k.map (fun n => f' (f n)) (fun c => g' (g c)) := by
  cases k <;> simp [map, Function.comp_def]

namespace Node

/-- The value of a node from the values of its names and its other children. -/
theorem fold_mk (f : Node α → Kind β β → β) (l : α) (k : Kind (Name α (Node α)) (Node α)) :
    (mk l k).fold f = f (mk l k) (k.map (fun n => n.toNode.fold f) (fold f)) := by
  rw [fold, foldKind_eq_map]

/-! ### The nodes of a tree -/

/-- The nodes of a tree, children before their parent and in source order. -/
def nodes (n : Node α) : List (Node α) := n.fold fun n k => k.children.flatten ++ [n]

/-- The labels of the nodes of a tree. -/
def labels (n : Node α) : List α := n.nodes.map label

theorem nodes_eq (n : Node α) : n.nodes = (n.children.map nodes).flatten ++ [n] := by
  rw [nodes, fold_eq, Kind.children_map]
  rfl

theorem labels_eq (n : Node α) : n.labels = (n.children.map labels).flatten ++ [n.label] := by
  rw [labels, nodes_eq, List.map_append, List.map_flatten, List.map_map]
  rfl

theorem mem_nodes_self (n : Node α) : n ∈ n.nodes := by
  rw [nodes_eq]
  simp

/-- The nodes of a child are nodes of the tree. -/
theorem nodes_subset_of_mem_children {n c : Node α} (h : c ∈ n.children) : c.nodes ⊆ n.nodes := by
  intro m hm
  rw [nodes_eq n, List.mem_append]
  exact .inl (List.mem_flatten.mpr ⟨_, List.mem_map_of_mem h, hm⟩)

/-- The nodes of a tree without the tree itself. -/
def inner (n : Node α) : List (Node α) := (n.children.map nodes).flatten

theorem mem_inner_iff {n m : Node α} : m ∈ n.inner ↔ ∃ c ∈ n.children, m ∈ c.nodes := by
  rw [inner, ← List.flatMap_def, List.mem_flatMap]

theorem mem_nodes_iff {n m : Node α} : m ∈ n.nodes ↔ m ∈ n.inner ∨ m = n := by
  rw [nodes_eq, List.mem_append, List.mem_singleton]
  rfl

theorem size_lt_of_mem_children {n c : Node α} (h : c ∈ n.children) : c.size < n.size := by
  rw [size_eq n]
  exact Syntax.Node.lt_foldr_add (List.mem_map_of_mem h)

/-- A property of trees holds of all when it holds of a node whenever it holds of the children. -/
theorem induction_children {P : Node α → Prop} (h : ∀ n, (∀ c ∈ n.children, P c) → P n)
    (n : Node α) : P n := by
  refine h n fun c hc => ?_
  have := size_lt_of_mem_children hc
  exact induction_children h c
termination_by n.size

/-- The nodes of a node of a tree are nodes of the tree. -/
theorem nodes_subset_of_mem_nodes {n m : Node α} (h : m ∈ n.nodes) : m.nodes ⊆ n.nodes := by
  induction n using induction_children with
  | h n ih =>
    rcases mem_nodes_iff.mp h with h | rfl
    · obtain ⟨c, hc, hm⟩ := mem_inner_iff.mp h
      exact fun x hx => nodes_subset_of_mem_children hc (ih c hc hm hx)
    · exact fun x hx => hx

/-! ### Numbering a tree -/

/-- The labels below a kind. -/
def labelsBelow (k : Kind (Name α (Node α)) (Node α)) : List α :=
  (k.map (fun n => n.toNode.labels) labels).children.flatten

@[simp] theorem labels_mk (l : α) (k : Kind (Name α (Node α)) (Node α)) :
    (mk l k).labels = labelsBelow k ++ [l] := by
  rw [labels_eq, labelsBelow, children, ← Kind.children_map, shape, Kind.map_map]
  rfl

@[simp] theorem labels_toNode (n : Name α (Node α)) :
    n.toNode.labels = (n.ascription?.map labels).toList.flatten ++ [n.label] := by
  rw [Name.toNode, labels_mk]
  rfl

mutual

theorem run_mapM_tick (f : Nat → α → β) :
    (n : Node α) → (i : Nat) →
      ((n.mapM (tick f)).run i).1.labels = numbered f i n.labels ∧
        ((n.mapM (tick f)).run i).2 = i + n.labels.length
  | .mk l k, i => by
    obtain ⟨h1, h2⟩ := run_mapKindM_tick f k i
    have h1' : ((mapM (tick f) (mk l k)).run i).1 =
      mk (f ((mapKindM (tick f) k).run i).2 l) ((mapKindM (tick f) k).run i).1 := rfl
    have h2' : ((mapM (tick f) (mk l k)).run i).2 = ((mapKindM (tick f) k).run i).2 + 1 := rfl
    rw [h1', h2', labels_mk, labels_mk, h1, h2, numbered_append]
    simp [numbered, Nat.add_assoc]

theorem run_mapKindM_tick (f : Nat → α → β) :
    (k : Kind (Name α (Node α)) (Node α)) → (i : Nat) →
      labelsBelow ((mapKindM (tick f) k).run i).1 = numbered f i (labelsBelow k) ∧
        ((mapKindM (tick f) k).run i).2 = i + (labelsBelow k).length
  | k, i => by
    cases k <;>
      simp [-bind_pure_comp, -labels_toNode, mapKindM, labelsBelow, Kind.map, Kind.children,
        fst_pure_id, fst_bind_id, snd_pure_id, snd_bind_id, run_mapM_tick f, run_mapNameM_tick f,
        run_mapListM_tick f, run_mapOptionM_tick f, numbered, numbered_append, Nat.add_assoc]

theorem run_mapNameM_tick (f : Nat → α → β) :
    (n : Name α (Node α)) → (i : Nat) →
      ((mapNameM (tick f) n).run i).1.toNode.labels = numbered f i n.toNode.labels ∧
        ((mapNameM (tick f) n).run i).2 = i + n.toNode.labels.length
  | ⟨l, s, t⟩, i => by
    obtain ⟨h1, h2⟩ := run_mapOptionM_tick f t i
    have h3 : (mapNameM (tick f) ⟨l, s, t⟩).run i =
      (⟨f ((mapOptionM (tick f) t).run i).2 l, s, ((mapOptionM (tick f) t).run i).1⟩,
        ((mapOptionM (tick f) t).run i).2 + 1) := rfl
    rw [h3, labels_toNode, labels_toNode, h1, h2, numbered_append]
    simp [numbered, Nat.add_assoc]

theorem run_mapListM_tick (f : Nat → α → β) :
    (ns : List (Node α)) → (i : Nat) →
      (((mapListM (tick f) ns).run i).1.map labels).flatten =
          numbered f i (ns.map labels).flatten ∧
        ((mapListM (tick f) ns).run i).2 = i + (ns.map labels).flatten.length
  | [], i => ⟨rfl, rfl⟩
  | n :: ns, i => by
    obtain ⟨h1, h2⟩ := run_mapM_tick f n i
    obtain ⟨h1', h2'⟩ := run_mapListM_tick f ns (i + n.labels.length)
    have h3 : (mapListM (tick f) (n :: ns)).run i =
      (((n.mapM (tick f)).run i).1 :: ((mapListM (tick f) ns).run ((n.mapM (tick f)).run i).2).1,
        ((mapListM (tick f) ns).run ((n.mapM (tick f)).run i).2).2) := rfl
    rw [h3, h2]
    simp only [List.map_cons, List.flatten_cons, List.length_append, numbered_append, h1, h1', h2']
    exact ⟨trivial, Nat.add_assoc ..⟩

theorem run_mapOptionM_tick (f : Nat → α → β) :
    (n? : Option (Node α)) → (i : Nat) →
      ((((mapOptionM (tick f) n?).run i).1.map labels).toList).flatten =
          numbered f i (n?.map labels).toList.flatten ∧
        ((mapOptionM (tick f) n?).run i).2 = i + (n?.map labels).toList.flatten.length
  | none, i => ⟨rfl, rfl⟩
  | some n, i => by
    obtain ⟨h1, h2⟩ := run_mapM_tick f n i
    have h3 : (mapOptionM (tick f) (some n)).run i =
      (some ((n.mapM (tick f)).run i).1, ((n.mapM (tick f)).run i).2) := rfl
    rw [h3]
    simp [h1, h2]

end

/-- Numbering gives every label its place in the list of labels. -/
theorem labels_number (f : Nat → α → β) (n : Node α) :
    (n.number f).labels = numbered f 0 n.labels :=
  (run_mapM_tick f n 0).1

/-! ### Changing labels one by one -/

/-- The name that the node of a name holds. -/
def toName (n : Node α) : Name α (Node α) :=
  match n.kind with
  | .identifier text ascription? => ⟨n.label, text, ascription?⟩
  | _ => ⟨n.label, "", none⟩

/-- The tree with every label changed by `f`. -/
def map (f : α → β) (n : Node α) : Node β :=
  n.fold fun n k => mk (f n.label) (k.map toName fun n => n)

end Node

/-- The name with its labels changed by `f`. -/
def Name.map (f : α → β) (n : Name α (Node α)) : Name β (Node β) :=
  ⟨f n.label, n.text, n.ascription?.map (Node.map f)⟩

@[simp] theorem Name.label_map (f : α → β) (n : Name α (Node α)) :
    (n.map f).label = f n.label := rfl

@[simp] theorem Name.text_map (f : α → β) (n : Name α (Node α)) : (n.map f).text = n.text := rfl

@[simp] theorem Name.ascription?_map (f : α → β) (n : Name α (Node α)) :
    (n.map f).ascription? = n.ascription?.map (Node.map f) := rfl

namespace Node

@[simp] theorem map_mk (f : α → β) (l : α) (k : Kind (Name α (Node α)) (Node α)) :
    (mk l k).map f = mk (f l) (k.map (Name.map f) (map f)) := by
  have hname : ∀ n : Name α (Node α), (n.toNode.map f).toName = n.map f := by
    rintro ⟨l, s, t⟩
    rw [Name.toNode, map, fold_mk, Kind.map_map]
    rfl
  rw [map, fold_mk, Kind.map_map]
  show mk (f l) (k.map (fun n => (n.toNode.map f).toName) (map f)) = _
  simp only [hname]

theorem map_toNode (f : α → β) (n : Name α (Node α)) : n.toNode.map f = (n.map f).toNode := by
  rw [Name.toNode, map_mk]
  rfl

theorem shape_map (f : α → β) (n : Node α) : (n.map f).shape = n.shape.map (map f) (map f) := by
  obtain ⟨l, k⟩ := n
  simp only [shape, map_mk, kind_mk, Kind.map_map, map_toNode]
  rfl

theorem children_map (f : α → β) (n : Node α) : (n.map f).children = n.children.map (map f) := by
  rw [children, shape_map, Kind.children_map]
  rfl

theorem label_map (f : α → β) (n : Node α) : (n.map f).label = f n.label := by
  obtain ⟨l, k⟩ := n
  rw [map_mk]
  rfl

theorem nodes_map (f : α → β) (n : Node α) : (n.map f).nodes = n.nodes.map (map f) := by
  induction n using induction_children with
  | h n ih =>
    have hchildren : (n.map f).children.map nodes = (n.children.map nodes).map (List.map (map f)) := by
      rw [children_map, List.map_map, List.map_map]
      exact List.map_congr_left ih
    rw [nodes_eq, nodes_eq n, hchildren, ← List.map_flatten, List.map_append]
    rfl

theorem inner_map (f : α → β) (n : Node α) : (n.map f).inner = n.inner.map (map f) := by
  rw [inner, inner, children_map, List.map_flatten, List.map_map, List.map_map]
  exact congrArg _ (List.map_congr_left fun c _ => nodes_map f c)

theorem isAscription_map (f : α → β) (n : Node α) : (n.map f).kind.isAscription = n.kind.isAscription := by
  obtain ⟨l, k⟩ := n
  rw [map_mk]
  cases k <;> rfl

section

variable {σ : Type} {f : α → StateM σ β} {g : β → γ} {h : α → γ}

mutual

/-- Labels that are computed with a state may be changed without it when what is kept of them does not
depend on the state. -/
theorem map_mapM (hf : ∀ a s, g ((f a).run s).1 = h a) :
    (n : Node α) → (s : σ) → ((n.mapM f).run s).1.map g = n.map h
  | .mk l k, s => by
    have h1 : ((mapM f (mk l k)).run s).1 =
      mk ((f l).run ((mapKindM f k).run s).2).1 ((mapKindM f k).run s).1 := rfl
    rw [h1, map_mk, map_mk, hf, map_mapKindM hf k s]

theorem map_mapKindM (hf : ∀ a s, g ((f a).run s).1 = h a) :
    (k : Kind (Name α (Node α)) (Node α)) → (s : σ) →
      ((mapKindM f k).run s).1.map (Name.map g) (map g) = k.map (Name.map h) (map h)
  | k, s => by
    cases k <;>
      simp [-bind_pure_comp, mapKindM, Kind.map, fst_pure_id, fst_bind_id, map_mapM hf, map_mapNameM hf,
        map_mapListM hf, map_mapOptionM hf]

theorem map_mapNameM (hf : ∀ a s, g ((f a).run s).1 = h a) :
    (n : Name α (Node α)) → (s : σ) → ((mapNameM f n).run s).1.map g = n.map h
  | ⟨l, t, a⟩, s => by
    have h1 : ((mapNameM f ⟨l, t, a⟩).run s).1 =
      ⟨((f l).run ((mapOptionM f a).run s).2).1, t, ((mapOptionM f a).run s).1⟩ := rfl
    rw [h1, Name.map, Name.map, hf, map_mapOptionM hf a s]

theorem map_mapListM (hf : ∀ a s, g ((f a).run s).1 = h a) :
    (ns : List (Node α)) → (s : σ) → ((mapListM f ns).run s).1.map (map g) = ns.map (map h)
  | [], s => rfl
  | n :: ns, s => by
    show (((n.mapM f).run s).1 :: ((mapListM f ns).run ((n.mapM f).run s).2).1).map (map g) = _
    rw [List.map_cons, List.map_cons, map_mapM hf n s, map_mapListM hf ns _]

theorem map_mapOptionM (hf : ∀ a s, g ((f a).run s).1 = h a) :
    (n? : Option (Node α)) → (s : σ) → ((mapOptionM f n?).run s).1.map (map g) = n?.map (map h)
  | none, s => rfl
  | some n, s => by
    show (some ((n.mapM f).run s).1).map (map g) = _
    rw [Option.map_some, Option.map_some, map_mapM hf n s]

end

end

/-- What is kept of the labels of a numbered tree may be got without numbering. -/
theorem map_number (f : Nat → α → β) (g : β → γ) (h : α → γ) (hf : ∀ i a, g (f i a) = h a)
    (n : Node α) : (n.number f).map g = n.map h :=
  map_mapM (f := tick f) (fun a i => hf i a) n 0

/-- Changes that agree on the labels of a tree change it alike. -/
theorem map_congr {f g : α → β} {n : Node α} (h : ∀ l ∈ n.labels, f l = g l) : n.map f = n.map g := by
  induction n using induction_children with
  | h n ih =>
    obtain ⟨l, k⟩ := n
    have hl : f l = g l := h l (by simp)
    have hchild : ∀ c ∈ (mk l k).children, c.map f = c.map g := by
      intro c hc
      refine ih c hc fun l' hl' => h l' ?_
      obtain ⟨m, hm, rfl⟩ := List.mem_map.mp hl'
      exact List.mem_map_of_mem (nodes_subset_of_mem_children hc hm)
    have hname : ∀ {m : Name α (Node α)}, m.toNode.map f = m.toNode.map g → m.map f = m.map g := by
      intro m hm
      rw [map_toNode, map_toNode] at hm
      simpa [Name.toNode, Name.map] using hm
    have hoption : ∀ {m? : Option (Node α)}, (∀ m, m? = some m → m.map f = m.map g) →
        m?.map (map f) = m?.map (map g) := Option.map_congr
    rw [map_mk, map_mk, hl]
    congr 1
    cases k <;> simp_all [children, shape, Kind.map, Kind.children]

/-! ### The entries of a common tree -/

theorem entriesOnto_eq (n : Node Place) (parent? : Option NodeId) (listed : Array Entry) :
    n.entriesOnto parent? listed =
      (n.children.foldl (fun listed c => c.entriesOnto (some n.id) listed) listed).push
        ⟨n, parent?⟩ := by
  rw [entriesOnto, fold_eq, Kind.children_map, List.foldl_map]
  rfl

theorem map_node_entriesOnto (n : Node Place) (parent? : Option NodeId) (listed : Array Entry) :
    (n.entriesOnto parent? listed).toList.map (·.node) = listed.toList.map (·.node) ++ n.nodes := by
  induction n using induction_children generalizing parent? listed with
  | h n ih =>
    have hfold : ∀ (cs : List (Node Place)) (listed : Array Entry), (∀ c ∈ cs, c ∈ n.children) →
        (cs.foldl (fun listed c => c.entriesOnto (some n.id) listed) listed).toList.map (·.node) =
          listed.toList.map (·.node) ++ (cs.map nodes).flatten := by
      intro cs
      induction cs with
      | nil => simp
      | cons c cs ihs =>
        intro listed hcs
        rw [List.foldl_cons, ihs _ fun c' hc' => hcs c' (List.mem_cons_of_mem _ hc'),
          ih c (hcs c List.mem_cons_self), List.map_cons, List.flatten_cons, List.append_assoc]
    rw [entriesOnto_eq, nodes_eq, Array.toList_push, List.map_append,
      hfold _ _ fun _ hc => hc, List.append_assoc]
    rfl

/-- The entries of a tree are its nodes. -/
theorem map_node_entries (n : Node Place) : n.entries.toList.map (·.node) = n.nodes :=
  map_node_entriesOnto n none #[]

/-- The tree itself and every child under its parent are entries of a tree. -/
theorem mem_entriesOnto {n : Node Place} {parent? : Option NodeId} {listed : Array Entry} {e : Entry}
    (h : e ∈ listed ∨ e = ⟨n, parent?⟩ ∨ ∃ m ∈ n.nodes, ∃ c ∈ m.children, e = ⟨c, some m.id⟩) :
    e ∈ n.entriesOnto parent? listed := by
  induction n using induction_children generalizing parent? listed with
  | h n ih =>
    have hfold : ∀ (cs : List (Node Place)) (listed : Array Entry), (∀ c ∈ cs, c ∈ n.children) →
        (e ∈ listed ∨ ∃ c ∈ cs, e = ⟨c, some n.id⟩ ∨ ∃ m ∈ c.nodes, ∃ c' ∈ m.children, e = ⟨c', some m.id⟩) →
        e ∈ cs.foldl (fun listed c => c.entriesOnto (some n.id) listed) listed := by
      intro cs
      induction cs with
      | nil => simp
      | cons c cs ihs =>
        intro listed hcs h
        refine ihs _ (fun c' hc' => hcs c' (List.mem_cons_of_mem _ hc')) ?_
        rcases h with h | ⟨c', hc', h⟩
        · exact .inl (ih c (hcs c List.mem_cons_self) (.inl h))
        · rcases List.mem_cons.mp hc' with rfl | hc'
          · exact .inl (ih c' (hcs c' List.mem_cons_self) (.inr h))
          · exact .inr ⟨c', hc', h⟩
    rw [entriesOnto_eq, Array.mem_push]
    rcases h with h | rfl | ⟨m, hm, c, hc, rfl⟩
    · exact .inl (hfold _ _ (fun _ hc => hc) (.inl h))
    · exact .inr rfl
    · refine .inl (hfold _ _ (fun _ hc => hc) (.inr ?_))
      rcases mem_nodes_iff.mp hm with hm | rfl
      · obtain ⟨c', hc', hm⟩ := mem_inner_iff.mp hm
        exact ⟨c', hc', .inr ⟨m, hm, c, hc, rfl⟩⟩
      · exact ⟨c, hc, .inl rfl⟩

/-- The number of a node of a numbered tree is its place among the nodes. -/
theorem id_of_getElem?_nodes {n m : Node Place} (f : Nat → α → Place) (hf : ∀ i a, (f i a).id = i)
    {n' : Node α} (hn : n = n'.number f) {j : Nat} (hj : n.nodes[j]? = some m) : m.id = j := by
  have hlabel : n.labels[j]? = some m.label := by
    rw [labels, List.getElem?_map, hj]
    rfl
  rw [hn, labels_number, getElem?_numbered, Nat.zero_add] at hlabel
  obtain ⟨a, -, ha⟩ := Option.map_eq_some_iff.mp hlabel
  rw [id, ← ha, hf]

end Node

/-! ### The maps of a conversion -/

/-- The number of a node of a numbered tree leads to the origin of the node. -/
theorem NodeMaps.origin?_id (f : Nat → α → Place) (hf : ∀ i a, (f i a).id = i) (n : Node α)
    (size : Nat) {l : Place} (hl : l ∈ (n.number f).labels) :
    (NodeMaps.ofEntries size (n.number f).entries).origin? l.id = some l.origin := by
  obtain ⟨m, hm, rfl⟩ := List.mem_map.mp hl
  obtain ⟨j, hj⟩ := List.getElem?_of_mem hm
  have hid : m.id = j := Node.id_of_getElem?_nodes f hf rfl hj
  rw [← Node.map_node_entries, List.getElem?_map] at hj
  obtain ⟨e, he, rfl⟩ := Option.map_eq_some_iff.mp hj
  rw [Array.getElem?_toList] at he
  rw [NodeMaps.ofEntries, NodeMaps.origin?, Array.getElem?_map]
  exact congrArg (Option.map _) (hid ▸ he)

/-! ### What a conversion gives -/

namespace Conversion

variable {tree : Syntax.Tree} {settings : Settings}

/-- A file without syntax errors has a common tree. -/
theorem exists_ofTree (herrors : tree.errors = []) (settings : Settings) :
    ∃ conversion, ofTree tree settings = .ok conversion := by
  rw [ofTree, herrors]
  exact ⟨_, rfl⟩

/-- The common tree is the numbered program, with the maps of its nodes. -/
theorem of_ofTree_eq_ok {conversion : Conversion} (h : ofTree tree settings = .ok conversion) :
    ∃ f : Nat → Origin → Place,
      (∀ i o, (f i o).id = i ∧ (f i o).origin = o.node) ∧
      conversion.tree.root = (program tree).number f ∧
      conversion.tree.entries = ((program tree).number f).entries ∧
      (settings.nodeMaps = true → conversion.maps =
        .ofEntries tree.size ((program tree).number f).entries) := by
  rw [ofTree] at h
  split at h
  · cases h
  · cases h
    exact ⟨_, fun _ _ => ⟨rfl, rfl⟩, rfl, rfl, fun hmaps => if_pos hmaps⟩

/-- Apart from its numbers the common tree is what the change of shape says. -/
theorem map_root {conversion : Conversion} (h : ofTree tree settings = .ok conversion) {γ : Type}
    {g : Place → γ} {g' : Origin → γ}
    (hg : ∀ id o, g ⟨id, o.node, settings.locate tree.lines o.span⟩ = g' o) :
    conversion.tree.root.map g = (program tree).map g' := by
  rw [ofTree] at h
  split at h
  · cases h
  · cases h
    exact Node.map_number _ g g' hg _

/-- The maps are those of the nodes, if they are asked for. -/
theorem maps_ofTree {conversion : Conversion} (h : ofTree tree settings = .ok conversion) : conversion.maps =
    if settings.nodeMaps then .ofEntries tree.size conversion.tree.entries else .empty := by
  rw [ofTree] at h
  split at h
  · cases h
  · cases h
    rfl

end Conversion

end ScriptAnalysis.Ast

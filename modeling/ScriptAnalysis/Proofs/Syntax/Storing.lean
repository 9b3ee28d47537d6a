import Mathlib.Data.List.Induction
import ScriptAnalysis.Proofs.Collections
import ScriptAnalysis.Proofs.Syntax.Nodes
import ScriptAnalysis.Syntax.Arena

/-!
# Storing a tree in an arena

A tree is stored in an arena by storing its children in source order and then putting a node with their
numbers. What this adds to the arena is the entries of the tree, numbered from the size of the arena
(`run_store`): nothing that was there before changes, and the node itself is the last one, without a parent.
-/

namespace ScriptAnalysis.Syntax

/-- The entry with the numbers of the children of its node. -/
def Entry.cell (e : Entry) : Cell := ⟨e.node.kind.map Ident.id Node.id, e.node.span, e.parent?⟩

namespace Node

/-! ### Storing -/

/-- Puts a node into the arena and returns its number. -/
def put (kind : Kind NodeId NodeId) (span : Span) : StateM Arena NodeId :=
  modifyGet fun arena => (arena.length, arena.put kind span)

/-- Stores a name. -/
def storeName (i : Ident Span) : StateM Arena NodeId := put (.identifier i.text) i.label

mutual

/-- Stores a tree, children before their parent and in source order. -/
def store : Node Span → StateM Arena NodeId
  | .mk l k => do
    let k ← storeKind k
    put k l

/-- Stores what is below a kind. -/
def storeKind : Kind (Ident Span) (Node Span) → StateM Arena (Kind NodeId NodeId)
  | .sourceFile ss => return .sourceFile (← storeList ss)
  | .variableStatement k ds => return .variableStatement k (← storeList ds)
  | .variableDeclaration n t i =>
    return .variableDeclaration (← storeName n) (← storeOption t) (← storeOption i)
  | .functionDeclaration n ps t b =>
    return .functionDeclaration (← storeName n) (← storeList ps) (← storeOption t) (← store b)
  | .parameter n t i => return .parameter (← storeName n) (← storeOption t) (← storeOption i)
  | .typeAlias n t => return .typeAlias (← storeName n) (← store t)
  | .block ss => return .block (← storeList ss)
  | .expressionStatement e => return .expressionStatement (← store e)
  | .returnStatement e => return .returnStatement (← storeOption e)
  | .ifStatement c t e => return .ifStatement (← store c) (← store t) (← storeOption e)
  | .whileStatement c b => return .whileStatement (← store c) (← store b)
  | .emptyStatement => pure .emptyStatement
  | .identifier s => pure (.identifier s)
  | .numericLiteral s => pure (.numericLiteral s)
  | .stringLiteral s => pure (.stringLiteral s)
  | .trueLiteral => pure .trueLiteral
  | .falseLiteral => pure .falseLiteral
  | .nullLiteral => pure .nullLiteral
  | .arrayLiteral es => return .arrayLiteral (← storeList es)
  | .parenthesized e => return .parenthesized (← store e)
  | .arrowFunction ps t b =>
    return .arrowFunction (← storeList ps) (← storeOption t) (← store b)
  | .call e as => return .call (← store e) (← storeList as)
  | .propertyAccess e n => return .propertyAccess (← store e) (← storeName n)
  | .prefixUnary o e => return .prefixUnary o (← store e)
  | .binary o l r => return .binary o (← store l) (← store r)
  | .keywordType k => pure (.keywordType k)
  | .typeReference n => return .typeReference (← storeName n)
  | .arrayType e => return .arrayType (← store e)
  | .unionType ts => return .unionType (← storeList ts)

/-- Stores several trees. -/
def storeList : List (Node Span) → StateM Arena (List NodeId)
  | [] => pure []
  | n :: ns => return (← store n) :: (← storeList ns)

/-- Stores a tree, if there is one. -/
def storeOption : Option (Node Span) → StateM Arena (Option NodeId)
  | none => pure none
  | some n => return some (← store n)

end

/-! ### The cells of a numbered tree -/

/-- The cells of a tree under a parent, children before their parent. -/
def cells (parent? : Option NodeId) (n : Node Place) : List Cell :=
  (n.entriesOnto parent? #[]).toList.map Entry.cell

theorem toList_entriesOnto (n : Node Place) (parent? : Option NodeId) (listed : Array Entry) :
    (n.entriesOnto parent? listed).toList = listed.toList ++ (n.entriesOnto parent? #[]).toList := by
  induction n using induction_children generalizing parent? listed with
  | h n ih =>
    have hfold : ∀ (cs : List (Node Place)) (listed : Array Entry), (∀ c ∈ cs, c ∈ n.children) →
        (cs.foldl (fun listed c => c.entriesOnto (some n.id) listed) listed).toList = listed.toList ++
          (cs.foldl (fun listed c => c.entriesOnto (some n.id) listed) #[]).toList := by
      intro cs
      induction cs with
      | nil => exact fun _ _ => by simp
      | cons c cs ihs =>
        intro listed hcs
        have hrest := fun listed => ihs listed fun c' hc' => hcs c' (List.mem_cons_of_mem _ hc')
        rw [List.foldl_cons, List.foldl_cons, hrest, hrest (c.entriesOnto _ #[]),
          ih c (hcs c List.mem_cons_self) _ listed, List.append_assoc]
    rw [entriesOnto_eq, entriesOnto_eq n _ #[], Array.toList_push, Array.toList_push,
      hfold _ _ fun _ hc => hc, List.append_assoc]

theorem cells_eq (n : Node Place) (parent? : Option NodeId) :
    n.cells parent? = n.children.flatMap (cells (some n.id)) ++ [Entry.cell ⟨n, parent?⟩] := by
  have hfold : ∀ cs : List (Node Place),
      (cs.foldl (fun listed c => c.entriesOnto (some n.id) listed) #[]).toList.map Entry.cell =
        cs.flatMap (cells (some n.id)) := by
    intro cs
    induction cs using List.reverseRecOn with
    | nil => rfl
    | append_singleton cs c ih =>
      rw [List.foldl_append, List.foldl_cons, List.foldl_nil, toList_entriesOnto, List.map_append, ih,
        List.flatMap_append, List.flatMap_singleton]
      rfl
  rw [cells, entriesOnto_eq, Array.toList_push, List.map_append, hfold]
  rfl

@[simp] theorem length_cells (n : Node Place) (parent? : Option NodeId) :
    (n.cells parent?).length = n.nodes.length := by
  have h := congrArg List.length (map_node_entriesOnto n parent? #[])
  simpa [cells] using h

theorem length_flatMap_cells (ns : List (Node Place)) (parent? : Option NodeId) :
    (ns.flatMap (cells parent?)).length = (ns.map nodes).flatten.length := by
  simp [List.length_flatMap, Function.comp_def]

/-! ### Adopting -/

theorem adopt_append (parent : NodeId) (A B : Arena) (cell : Cell) :
    Arena.adopt parent (A ++ cell :: B) A.length = A ++ { cell with parent? := some parent } :: B :=
  modify_append_cons A B cell _

/-- The nodes of the trees are numbered in order, from `i` on. -/
def NumberedFrom (i : Nat) (ns : List (Node Place)) : Prop :=
  (ns.flatMap nodes).map Node.id = List.range' i (ns.flatMap nodes).length

theorem numberedFrom_cons_iff {i : Nat} {n : Node Place} {ns : List (Node Place)} :
    NumberedFrom i (n :: ns) ↔
      n.nodes.map Node.id = List.range' i n.nodes.length ∧ NumberedFrom (i + n.nodes.length) ns := by
  rw [NumberedFrom, NumberedFrom, List.flatMap_cons, List.map_append, List.length_append,
    ← List.range'_append_1]
  refine ⟨fun h => List.append_inj h (by simp), fun ⟨hn, hns⟩ => ?_⟩
  rw [hn, hns]

theorem id_of_map_id_nodes {i : Nat} {n : Node Place}
    (h : n.nodes.map Node.id = List.range' i n.nodes.length) : n.id = i + n.inner.length := by
  rw [nodes_eq, List.map_append, List.length_append, ← List.range'_append_1] at h
  have hlast := List.append_inj_right' h rfl
  exact (List.cons.inj hlast).1

/-- Trees with nodes that are numbered from the size of the arena on all get their parent. -/
theorem foldl_adopt (parent : NodeId) (A : Arena) (cs : List (Node Place)) (h : NumberedFrom A.length cs) :
    (cs.map Node.id).foldl (Arena.adopt parent) (A ++ cs.flatMap (cells none)) =
      A ++ cs.flatMap (cells (some parent)) := by
  induction cs generalizing A with
  | nil => rfl
  | cons c cs ih =>
    obtain ⟨hc, hcs⟩ := numberedFrom_cons_iff.mp h
    have hfirst : Arena.adopt parent (A ++ (c :: cs).flatMap (cells none)) c.id =
        (A ++ c.cells (some parent)) ++ cs.flatMap (cells none) := by
      have hid : c.id = (A ++ c.children.flatMap (cells (some c.id))).length := by
        rw [id_of_map_id_nodes hc, List.length_append, length_flatMap_cells]
        rfl
      have hadopt := adopt_append parent (A ++ c.children.flatMap (cells (some c.id)))
        (cs.flatMap (cells none)) (Entry.cell ⟨c, none⟩)
      rw [← hid] at hadopt
      rw [List.flatMap_cons, cells_eq c none, cells_eq c (some parent)]
      simpa [Entry.cell] using hadopt
    rw [List.map_cons, List.foldl_cons, hfirst, ih _ (by simpa using hcs), List.flatMap_cons,
      List.append_assoc]

/-! ### What storing adds -/

theorem map_label_inner_mk {α : Type} (l : α) (k : Kind (Ident α) (Node α)) :
    (mk l k).inner.map label = labelsBelow k := by
  have h := labels_mk l k
  rw [labels, nodes_eq, List.map_append] at h
  exact List.append_inj_left' h rfl

section

variable (A : Arena) (l : Span) (k : Kind (Ident Span) (Node Span))

/-- The tree of a kind with the numbers that follow the nodes of an arena. -/
def numberedAfter : Node Place :=
  mk ⟨((mapKindM (tick Place.mk) k).run A.length).2, l⟩ ((mapKindM (tick Place.mk) k).run A.length).1

theorem map_id_inner_numberedAfter :
    (numberedAfter A l k).inner.map Node.id = List.range' A.length (labelsBelow k).length := by
  rw [← map_id_numbered Place.mk (fun _ _ => rfl), ← (run_mapKindM_tick Place.mk k A.length).1,
    ← map_label_inner_mk ⟨((mapKindM (tick Place.mk) k).run A.length).2, l⟩, List.map_map]
  rfl

theorem length_inner_numberedAfter :
    (numberedAfter A l k).inner.length = (labelsBelow k).length := by
  simpa using congrArg List.length (map_id_inner_numberedAfter A l k)

theorem id_numberedAfter :
    (numberedAfter A l k).id = A.length + (numberedAfter A l k).inner.length := by
  rw [length_inner_numberedAfter]
  exact (run_mapKindM_tick Place.mk k A.length).2

theorem numberedFrom_children : NumberedFrom A.length (numberedAfter A l k).children := by
  rw [NumberedFrom, List.flatMap_def]
  exact length_inner_numberedAfter A l k ▸ map_id_inner_numberedAfter A l k

/-- Putting a node whose children have been stored is storing the node. -/
theorem put_stored :
    (A ++ (numberedAfter A l k).children.flatMap (cells none)).length = (numberedAfter A l k).id ∧
      (A ++ (numberedAfter A l k).children.flatMap (cells none)).put
          ((numberedAfter A l k).kind.map Ident.id Node.id) l =
        A ++ (numberedAfter A l k).cells none := by
  have hnumbered := numberedFrom_children A l k
  have hchildren : ((numberedAfter A l k).kind.map Ident.id Node.id).children =
      (numberedAfter A l k).children.map Node.id := by
    rw [children, shape, ← Kind.children_map, Kind.map_map]
    rfl
  have hlength : (A ++ (numberedAfter A l k).children.flatMap (cells none)).length =
      (numberedAfter A l k).id := by
    rw [id_numberedAfter, List.length_append, length_flatMap_cells]
    rfl
  refine ⟨hlength, ?_⟩
  rw [Arena.put, hchildren, hlength, foldl_adopt _ _ _ hnumbered, cells_eq, List.append_assoc]
  rfl

end

/-! The next number is the length of what has been numbered. -/

theorem snd_mapM_tick (n : Node Span) (i : Nat) :
    ((n.mapM (tick Place.mk)).run i).2 = i + ((n.mapM (tick Place.mk)).run i).1.nodes.length := by
  obtain ⟨hlabels, hnext⟩ := run_mapM_tick Place.mk n i
  have h := congrArg List.length hlabels
  rw [labels, List.length_map, length_numbered] at h
  rw [hnext, h]

theorem snd_mapListM_tick (ns : List (Node Span)) (i : Nat) :
    ((mapListM (tick Place.mk) ns).run i).2 =
      i + (((mapListM (tick Place.mk) ns).run i).1.flatMap nodes).length := by
  induction ns generalizing i with
  | nil => rfl
  | cons n ns ih =>
    have hrun : ((mapListM (tick Place.mk) (n :: ns)).run i) =
      (((n.mapM (tick Place.mk)).run i).1 ::
        ((mapListM (tick Place.mk) ns).run ((n.mapM (tick Place.mk)).run i).2).1,
        ((mapListM (tick Place.mk) ns).run ((n.mapM (tick Place.mk)).run i).2).2) := rfl
    rw [hrun, ih, snd_mapM_tick, List.flatMap_cons, List.length_append, Nat.add_assoc]

theorem snd_mapOptionM_tick (n? : Option (Node Span)) (i : Nat) :
    ((mapOptionM (tick Place.mk) n?).run i).2 =
      i + (((mapOptionM (tick Place.mk) n?).run i).1.toList.flatMap nodes).length := by
  cases n? with
  | none => rfl
  | some n =>
    have hrun : (mapOptionM (tick Place.mk) (some n)).run i =
      (some ((n.mapM (tick Place.mk)).run i).1, ((n.mapM (tick Place.mk)).run i).2) := rfl
    rw [hrun, snd_mapM_tick, Option.toList_some, List.flatMap_singleton]

theorem nodes_toNode {α : Type} (i : Ident α) : i.toNode.nodes = [i.toNode] := rfl

theorem run_storeName (i : Ident Span) (A : Arena) :
    (storeName i).run A = (A.length, A ++ cells none (Ident.toNode ⟨⟨A.length, i.label⟩, i.text⟩)) := rfl

mutual

theorem run_store : (n : Node Span) → (A : Arena) →
    ((store n).run A).1 = ((n.mapM (tick Place.mk)).run A.length).1.id ∧
      ((store n).run A).2 = A ++ ((n.mapM (tick Place.mk)).run A.length).1.cells none
  | .mk l k, A => by
    obtain ⟨hids, hcells⟩ := run_storeKind l k A
    obtain ⟨hlength, hput⟩ := put_stored A l k
    have hrun : (store (mk l k)).run A = (((storeKind k).run A).2.length,
      ((storeKind k).run A).2.put ((storeKind k).run A).1 l) := rfl
    rw [hrun, hids, hcells]
    exact ⟨hlength, hput⟩

theorem run_storeKind (l : Span) : (k : Kind (Ident Span) (Node Span)) → (A : Arena) →
    ((storeKind k).run A).1 = (numberedAfter A l k).kind.map Ident.id Node.id ∧
      ((storeKind k).run A).2 = A ++ (numberedAfter A l k).children.flatMap (cells none)
  | k, A => by
    cases k <;>
      simp [-bind_pure_comp, numberedAfter, storeKind, mapKindM, children, shape, Kind.map,
        Kind.children, Ident.mapM, Ident.id, fst_pure_id, fst_bind_id, snd_pure_id, snd_bind_id,
        run_storeName, run_store, run_storeList, run_storeOption, snd_mapM_tick, snd_mapListM_tick,
        snd_mapOptionM_tick, nodes_toNode, Nat.add_assoc]

theorem run_storeList : (ns : List (Node Span)) → (A : Arena) →
    ((storeList ns).run A).1 = ((mapListM (tick Place.mk) ns).run A.length).1.map Node.id ∧
      ((storeList ns).run A).2 =
        A ++ ((mapListM (tick Place.mk) ns).run A.length).1.flatMap (cells none)
  | [], A => ⟨rfl, (List.append_nil A).symm⟩
  | n :: ns, A => by
    simp [-bind_pure_comp, storeList, mapListM, fst_pure_id, fst_bind_id, snd_pure_id, snd_bind_id,
      run_store, run_storeList, snd_mapM_tick]

theorem run_storeOption : (n? : Option (Node Span)) → (A : Arena) →
    ((storeOption n?).run A).1 = ((mapOptionM (tick Place.mk) n?).run A.length).1.map Node.id ∧
      ((storeOption n?).run A).2 =
        A ++ ((mapOptionM (tick Place.mk) n?).run A.length).1.toList.flatMap (cells none)
  | none, A => ⟨rfl, (List.append_nil A).symm⟩
  | some n, A => by
    simp [-bind_pure_comp, storeOption, mapOptionM, fst_pure_id, fst_bind_id, snd_pure_id, snd_bind_id,
      run_store]

end

/-- Stored from the start, a tree is in the arena as its entries. -/
theorem run_store_nil (n : Node Span) :
    (store n).run [] = ((n.number Place.mk).id, (n.number Place.mk).entries.toList.map Entry.cell) := by
  obtain ⟨hid, hcells⟩ := run_store n []
  exact Prod.ext hid hcells

theorem prefix_store (n : Node Span) (A : Arena) : A <+: ((store n).run A).2 :=
  (run_store n A).2 ▸ List.prefix_append ..

theorem prefix_storeOption (n? : Option (Node Span)) (A : Arena) : A <+: ((storeOption n?).run A).2 :=
  (run_storeOption n? A).2 ▸ List.prefix_append ..

theorem length_foldl_adopt (parent : NodeId) (ids : List NodeId) (A : Arena) :
    (ids.foldl (Arena.adopt parent) A).length = A.length := by
  induction ids generalizing A with
  | nil => rfl
  | cons id ids ih => rw [List.foldl_cons, ih, Arena.adopt, List.length_modify]

theorem getElem?_put (A more : Arena) (kind : Kind NodeId NodeId) (span : Span) :
    (A.put kind span ++ more)[A.length]? = some ⟨kind, span, none⟩ := by
  have hlength := length_foldl_adopt A.length kind.children A
  rw [Arena.put, List.append_assoc, List.getElem?_append_right (Nat.le_of_eq hlength), hlength,
    Nat.sub_self]
  rfl

/-- A node that has been stored is found under its number, also when more is stored behind it. -/
theorem getElem?_of_prefix {n : Node Span} {A B : Arena} (h : ((store n).run A).2 <+: B) :
    B[((store n).run A).1]? = some ⟨((storeKind n.kind).run A).1, n.label, none⟩ := by
  obtain ⟨l, k⟩ := n
  obtain ⟨more, rfl⟩ := h
  exact getElem?_put ((storeKind k).run A).2 more ((storeKind k).run A).1 l

end Node

end ScriptAnalysis.Syntax

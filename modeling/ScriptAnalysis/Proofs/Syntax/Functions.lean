import Mathlib.Data.List.Flatten
import ScriptAnalysis.Proofs.Syntax.OneTree

/-!
# The function that a node stands in

From a node, the recorded parents lead up to the nearest function (`Tree.NearestFunction`). Down from a function,
its own nodes are those that stand in no other function below it (`Node.own`). The two ways meet: the own nodes
of a function are those whose nearest function it is (`Numbered.nearestFunction_iff`), and it is found by going
through the nodes above one in order (`Numbered.find?_ancestors_iff`).
-/

namespace ScriptAnalysis.Syntax

variable {α : Type}

/-- The body of a function. -/
def Kind.body? {ν β : Type} : Kind ν β → Option β
  | functionDeclaration _ _ _ body | arrowFunction _ _ body => some body
  | _ => none

theorem Kind.isFunctionLike_of_body? {ν β : Type} {k : Kind ν β} {body : β} (h : k.body? = some body) :
    k.isFunctionLike = true := by
  cases k <;> simp [body?] at h <;> rfl

/-- The first function above a node. -/
inductive Tree.NearestFunction (t : Tree) : NodeId → Node Place → Prop where
  /-- The parent is a function. -/
  | parent {i p : NodeId} {f : Node Place} (hparent : t.parent? i = some p) (hf : t.node? p = some f)
    (hfunction : f.kind.isFunctionLike = true) : NearestFunction t i f
  /-- The parent is none. -/
  | above {i p : NodeId} {n f : Node Place} (hparent : t.parent? i = some p) (hn : t.node? p = some n)
    (hno : n.kind.isFunctionLike = false) (h : NearestFunction t p f) : NearestFunction t i f

namespace Node

/-! ### Down from a function -/

/-- The body of a function is a child of it. -/
theorem mem_children_of_body? {f body : Node α} (h : f.kind.body? = some body) : body ∈ f.children := by
  obtain ⟨l, k⟩ := f
  change k.body? = some body at h
  change body ∈ (k.map Ident.toNode fun n => n).children
  cases k <;> simp [Kind.body?] at h <;> simp [Kind.map, Kind.children, h]

/-- A block that is the body of a function is grammatical as one. -/
theorem Formed.of_body? {role : Role} {f body : Node α} (h : f.Formed role) (hbody : f.kind.body? = some body)
    (hblock : body.kind.isBlock = true) : body.Formed .block := by
  have hpart : ∃ role, (role, body) ∈ f.kind.parts := by
    cases hkind : f.kind <;> simp_all [Kind.body?, Kind.parts] <;> exact ⟨_, .inr (.inr rfl)⟩
  obtain ⟨role, hpart⟩ := hpart
  exact (h.of_mem_parts hpart).of_fits hblock

/-- The nodes of a tree that stand in no function of it, children before their parent and in source order. -/
def exposed (n : Node α) : List (Node α) :=
  n.fold fun n k => (if n.kind.isFunctionLike then [] else k.children.flatten) ++ [n]

/-- The nodes inside a function that stand in no other function inside it. -/
def own (f : Node α) : List (Node α) := f.children.flatMap exposed

theorem exposed_eq (n : Node α) :
    n.exposed = (if n.kind.isFunctionLike then [] else n.children.flatMap exposed) ++ [n] := by
  rw [exposed, fold_eq, Kind.children_map, List.flatMap_def]
  rfl

theorem mem_exposed_self (n : Node α) : n ∈ n.exposed := by
  rw [exposed_eq]
  exact List.mem_append_right _ (List.mem_singleton_self n)

theorem mem_exposed_iff {n m : Node α} :
    m ∈ n.exposed ↔ (n.kind.isFunctionLike = false ∧ ∃ c ∈ n.children, m ∈ c.exposed) ∨ m = n := by
  rw [exposed_eq, List.mem_append, List.mem_singleton]
  refine or_congr_left ?_
  cases n.kind.isFunctionLike <;> simp

/-- What stands in no function below a node goes on with the children of what is no function. -/
theorem mem_exposed_of_mem_children {n m c : Node α} (hm : m ∈ n.exposed) (hno : m.kind.isFunctionLike = false)
    (hc : c ∈ m.children) : c ∈ n.exposed := by
  induction n using induction_children with
  | h n ih =>
    rcases mem_exposed_iff.mp hm with ⟨hn, c', hc', hm⟩ | rfl
    · exact mem_exposed_iff.mpr (.inl ⟨hn, c', hc', ih c' hc' hm⟩)
    · exact mem_exposed_iff.mpr (.inl ⟨hno, c, hc, c.mem_exposed_self⟩)

/-- The nodes that stand in no function are among all nodes, in the same order. -/
theorem exposed_sublist (n : Node α) : n.exposed.Sublist n.nodes := by
  induction n using induction_children with
  | h n ih =>
    rw [exposed_eq, nodes_eq]
    refine List.Sublist.append ?_ (List.Sublist.refl _)
    split
    · exact List.nil_sublist _
    · rw [← List.flatMap_def]
      exact List.Sublist.flatMap_right _ ih

theorem own_sublist (f : Node α) : f.own.Sublist f.inner := by
  rw [inner, ← List.flatMap_def]
  exact List.Sublist.flatMap_right _ fun c _ => c.exposed_sublist

end Node

namespace Tree.Numbered

variable {t : Tree} (ht : t.Numbered) {n m f : Node Place}

include ht

/-! ### Up to a function -/

theorem nodup_nodes : t.root.nodes.Nodup := .of_map Node.id (ht.map_id ▸ List.nodup_range)

theorem eq_of_id_eq (hn : n ∈ t.root.nodes) (hm : m ∈ t.root.nodes) (hid : n.id = m.id) : n = m :=
  Option.some.inj ((ht.node?_iff.mpr ⟨hn, hid⟩).symm.trans (ht.node?_iff.mpr ⟨hm, rfl⟩))

/-- A node with a recorded parent is a child of it. -/
theorem mem_children_of_parent? (hm : m ∈ t.root.nodes) {p : NodeId} (hparent : t.parent? m.id = some p)
    (hn : t.node? p = some n) : m ∈ n.children := by
  rcases ht.parent?_cases (ht.id_lt_size hm) with ⟨-, hnone⟩ | ⟨q, hq, hchild⟩
  · cases hnone.symm.trans hparent
  · obtain rfl := Option.some.inj (hq.symm.trans hparent)
    obtain ⟨n', hn', hid, c, hc, hcid⟩ := ht.mem_childIds_iff.mp hchild
    obtain rfl := Option.some.inj ((ht.node?_iff.mpr ⟨hn', hid⟩).symm.trans hn)
    have hc' := Node.nodes_subset_of_mem_nodes hn' (Node.nodes_subset_of_mem_children hc c.mem_nodes_self)
    exact ht.eq_of_id_eq hc' hm hcid ▸ hc

/-- What stands in no function below a node has the nearest function that the node has. -/
theorem nearestFunction_of_mem_exposed (hn : n ∈ t.root.nodes) (h : t.NearestFunction n.id f)
    (hm : m ∈ n.exposed) : t.NearestFunction m.id f := by
  induction n using Node.induction_children with
  | h n ih =>
    rcases Node.mem_exposed_iff.mp hm with ⟨hno, c, hc, hm⟩ | rfl
    · have hc' := Node.nodes_subset_of_mem_nodes hn (Node.nodes_subset_of_mem_children hc c.mem_nodes_self)
      exact ih c hc hc' (.above (ht.parent?_id hn hc) (ht.node?_iff.mpr ⟨hn, rfl⟩) hno h) hm
    · exact h

/-- **The own nodes of a function are those whose nearest function it is.** -/
theorem nearestFunction_iff (hf : f ∈ t.root.nodes) (hfunction : f.kind.isFunctionLike = true)
    (hm : m ∈ t.root.nodes) : t.NearestFunction m.id f ↔ m ∈ f.own := by
  constructor
  · intro h
    generalize hid : m.id = i at h
    induction h generalizing m with
    | @parent i p f hparent hnode _ =>
      subst hid
      exact List.mem_flatMap.mpr ⟨m, ht.mem_children_of_parent? hm hparent hnode, m.mem_exposed_self⟩
    | @above i p n f hparent hn hno _ ih =>
      subst hid
      obtain ⟨hnode, hnid⟩ := ht.node?_iff.mp hn
      obtain ⟨c, hc, hnc⟩ := List.mem_flatMap.mp (ih hf hfunction hnode hnid)
      exact List.mem_flatMap.mpr
        ⟨c, hc, Node.mem_exposed_of_mem_children hnc hno (ht.mem_children_of_parent? hm hparent hn)⟩
  · intro h
    obtain ⟨c, hc, hmc⟩ := List.mem_flatMap.mp h
    have hc' := Node.nodes_subset_of_mem_nodes hf (Node.nodes_subset_of_mem_children hc c.mem_nodes_self)
    refine ht.nearestFunction_of_mem_exposed hc' ?_ hmc
    exact .parent (ht.parent?_id hf hc) (ht.node?_iff.mpr ⟨hf, rfl⟩) hfunction

/-- Going up from a node, the first function is the node itself or the nearest one above it. -/
theorem find?_ancestorsWithin_iff {k i : Nat} (hn : t.node? i = some n) (hk : t.size - i ≤ k) :
    ((t.ancestorsWithin k i).filterMap t.node?).find? (·.kind.isFunctionLike) = some f ↔
      if n.kind.isFunctionLike then n = f else t.NearestFunction i f := by
  induction k generalizing i n with
  | zero =>
    obtain ⟨hmem, rfl⟩ := ht.node?_iff.mp hn
    exact absurd (ht.id_lt_size hmem) (Nat.not_lt.mpr (Nat.sub_eq_zero_iff_le.mp (Nat.le_zero.mp hk)))
  | succ k ih =>
    rw [ancestorsWithin, List.filterMap_cons_some hn, List.find?_cons]
    cases hfunction : n.kind.isFunctionLike with
    | true => simp
    | false =>
      rw [if_neg Bool.false_ne_true]
      dsimp only
      cases hparent : t.parent? i with
      | none =>
        refine iff_of_false (by simp) fun h => ?_
        cases h with
        | parent hp => cases hparent.symm.trans hp
        | above hp => cases hparent.symm.trans hp
      | some p =>
        obtain ⟨hmem, rfl⟩ := ht.node?_iff.mp hn
        rcases ht.parent?_cases (ht.id_lt_size hmem) with ⟨-, hnone⟩ | ⟨q, hq, hchild⟩
        · cases hnone.symm.trans hparent
        obtain rfl := Option.some.inj (hq.symm.trans hparent)
        have hlt := ht.lt_of_mem_childIds hchild
        obtain ⟨m, hm, rfl, -⟩ := ht.mem_childIds_iff.mp hchild
        have hnode := ht.node?_iff.mpr ⟨hm, rfl⟩
        dsimp only
        rw [ih hnode (by omega)]
        split
        · rename_i hm'
          refine ⟨fun h => h ▸ .parent hparent hnode hm', fun h => ?_⟩
          cases h with
          | parent hp hf =>
            obtain rfl := Option.some.inj (hparent.symm.trans hp)
            exact Option.some.inj (hnode.symm.trans hf)
          | above hp hf hno =>
            obtain rfl := Option.some.inj (hparent.symm.trans hp)
            obtain rfl := Option.some.inj (hnode.symm.trans hf)
            exact absurd hm' (by simp [hno])
        · rename_i hm'
          refine ⟨fun h => .above hparent hnode (Bool.eq_false_iff.mpr hm') h, fun h => ?_⟩
          cases h with
          | parent hp hf hfunction' =>
            obtain rfl := Option.some.inj (hparent.symm.trans hp)
            obtain rfl := Option.some.inj (hnode.symm.trans hf)
            exact absurd hfunction' hm'
          | above hp _ _ h =>
            obtain rfl := Option.some.inj (hparent.symm.trans hp)
            exact h

/-- The first function among the nodes above one that is no function is its nearest function. -/
theorem find?_ancestors_iff {i : NodeId} (hn : t.node? i = some n) (hno : n.kind.isFunctionLike = false) :
    ((t.ancestors i).filterMap t.node?).find? (·.kind.isFunctionLike) = some f ↔ t.NearestFunction i f := by
  rw [ancestors, ht.find?_ancestorsWithin_iff hn (Nat.sub_le ..), if_neg (by simp [hno])]

end Tree.Numbered

end ScriptAnalysis.Syntax

import Mathlib.Data.List.Induction
import ScriptAnalysis.Ast.Arena
import ScriptAnalysis.Proofs.Ast.Numbers
import ScriptAnalysis.Proofs.Collections

/-!
# Storing a common tree in an arena

A tree is stored in an arena by storing its children in source order and then putting a node with their
numbers. When the nodes of the tree are numbered from the size of the arena on, the numbers that storing
gives them are their own, and what it adds is the entries and the links of the tree (`run_store`).
-/

namespace ScriptAnalysis.Ast

open Syntax.Node (fst_pure_id fst_bind_id snd_pure_id snd_bind_id)

variable {α β γ σ : Type} {m : Type → Type} [Monad m]

namespace Kind

/-- The kind with its children computed one after another, in source order. -/
def mapM (f : α → m β) : Kind α α → m (Kind β β)
  | program ss => return program (← ss.mapM f)
  | variableDeclaration k ds => return variableDeclaration k (← ds.mapM f)
  | variableDeclarator n i => return variableDeclarator (← f n) (← i.mapM f)
  | functionDeclaration n ps t b =>
    return functionDeclaration (← f n) (← ps.mapM f) (← t.mapM f) (← f b)
  | typeAlias n t => return typeAlias (← f n) (← f t)
  | blockStatement ss => return blockStatement (← ss.mapM f)
  | expressionStatement e => return expressionStatement (← f e)
  | returnStatement e => return returnStatement (← e.mapM f)
  | ifStatement c t e => return ifStatement (← f c) (← f t) (← e.mapM f)
  | whileStatement c b => return whileStatement (← f c) (← f b)
  | emptyStatement => pure emptyStatement
  | identifier s t => return identifier s (← t.mapM f)
  | literal v s => pure (literal v s)
  | arrayExpression es => return arrayExpression (← es.mapM f)
  | arrowFunction ps t b e => return arrowFunction (← ps.mapM f) (← t.mapM f) (← f b) e
  | callExpression e as => return callExpression (← f e) (← as.mapM f)
  | memberExpression e n => return memberExpression (← f e) (← f n)
  | unaryExpression o e => return unaryExpression o (← f e)
  | binaryExpression o l r => return binaryExpression o (← f l) (← f r)
  | assignmentPattern n e => return assignmentPattern (← f n) (← f e)
  | ascription t => return ascription (← f t)
  | typeReference n => return typeReference (← f n)
  | arrayType t => return arrayType (← f t)
  | unionType ts => return unionType (← ts.mapM f)
  | keywordType k => pure (keywordType k)

theorem mapM_map [LawfulMonad m] (f : β → m γ) (g : α → β) (k : Kind α α) :
    (k.map g g).mapM f = k.mapM (f ∘ g) := by
  have hoption : ∀ x? : Option α, (x?.map g).mapM f = x?.mapM (f ∘ g) := fun x? => by cases x? <;> rfl
  cases k <;> simp [map, mapM, List.mapM_map, hoption]

theorem mapM_congr [LawfulMonad m] {f g : α → m β} {k : Kind α α} (h : ∀ c ∈ k.children, f c = g c) :
    k.mapM f = k.mapM g := by
  have hlist : ∀ {cs : List α}, (∀ c ∈ cs, f c = g c) → cs.mapM f = cs.mapM g := by
    intro cs
    induction cs with
    | nil => simp
    | cons c cs ih => simp_all
  have hoption : ∀ {c? : Option α}, (∀ c ∈ c?, f c = g c) → c?.mapM f = c?.mapM g := by
    rintro (_ | c) h
    · rfl
    · exact congrArg _ (h c rfl)
  cases k <;> simp_all [children, mapM]

/-- From the state `s`, computing the values of `xs` one after another gives those of `g` and ends in the
state `s'`. -/
def Runs (f : α → StateM σ β) (g : α → β) (xs : List α) (s s' : σ) : Prop :=
  (xs.mapM f).run s = (xs.map g, s')

section

variable {f : α → StateM σ β} {g : α → β} {s s' : σ}

theorem runs_nil_iff : Runs f g [] s s' ↔ s = s' := by
  rw [Runs, List.mapM_nil]
  exact ⟨congrArg Prod.snd, congrArg _⟩

theorem runs_cons_iff {x : α} {xs : List α} :
    Runs f g (x :: xs) s s' ↔ ∃ s₁, (f x).run s = (g x, s₁) ∧ Runs f g xs s₁ s' := by
  have hrun : ((x :: xs).mapM f).run s = (((f x).run s).1 :: ((xs.mapM f).run ((f x).run s).2).1,
      ((xs.mapM f).run ((f x).run s).2).2) := by
    rw [List.mapM_cons]
    rfl
  rw [Runs, hrun]
  constructor
  · intro h
    obtain ⟨hvalues, hstate⟩ := Prod.ext_iff.mp h
    obtain ⟨hfirst, hrest⟩ := List.cons.inj hvalues
    exact ⟨_, Prod.ext hfirst rfl, Prod.ext hrest hstate⟩
  · rintro ⟨s₁, hfirst, hrest⟩
    rw [hfirst, hrest]
    rfl

theorem runs_append_iff {xs ys : List α} :
    Runs f g (xs ++ ys) s s' ↔ ∃ s₁, Runs f g xs s s₁ ∧ Runs f g ys s₁ s' := by
  induction xs generalizing s with
  | nil => simp [runs_nil_iff]
  | cons x xs ih =>
    simp only [List.cons_append, runs_cons_iff, ih]
    grind

theorem runs_toList_iff {x? : Option α} :
    Runs f g x?.toList s s' ↔ (x?.mapM f).run s = (x?.map g, s') := by
  cases x? with
  | none => exact runs_nil_iff.trans ⟨congrArg _, congrArg Prod.snd⟩
  | some x =>
    have hrun : ((some x).mapM f).run s = (some ((f x).run s).1, ((f x).run s).2) := rfl
    rw [hrun, Option.toList_some, runs_cons_iff, Option.map_some]
    constructor
    · rintro ⟨s₁, h, hs⟩
      rw [h, runs_nil_iff.mp hs]
    · intro h
      obtain ⟨hvalue, hstate⟩ := Prod.ext_iff.mp h
      exact ⟨s', Prod.ext (Option.some.inj hvalue) hstate, runs_nil_iff.mpr rfl⟩

/-- Children that give the values of `g` in source order give the kind with these values. -/
theorem run_mapM {k : Kind α α} (h : Runs f g k.children s s') : (k.mapM f).run s = (k.map g g, s') := by
  -- the state after each child is where the next one begins
  refine Prod.ext ?_ ?_ <;> cases k <;>
    simp only [children, runs_append_iff, runs_cons_iff, runs_nil_iff, runs_toList_iff] at h <;>
    simp [-bind_pure_comp, map, mapM, fst_pure_id, fst_bind_id, snd_pure_id, snd_bind_id] <;>
    grind [Runs]

end

end Kind

/-! ### The cells of a numbered tree -/

/-- The entry with the numbers of the children of its node. -/
def Entry.cell (e : Entry) : Cell := ⟨e.node.kind.map Name.id Node.id, e.node.location, e.parent?⟩

/-- The links with those of one more node; an ascription is no image. -/
def Links.addNode (links : Links) (n : Node Place) : Links :=
  links.add n.id n.origin (!n.kind.isAscription)

namespace Node

/-- The cells of a tree under a parent, children before their parent. -/
def cells (parent? : Option NodeId) (n : Node Place) : List Cell :=
  (n.entriesOnto parent? #[]).toList.map Entry.cell

theorem toList_entriesOnto (n : Node Place) (parent? : Option NodeId) (listed : Array Entry) :
    (n.entriesOnto parent? listed).toList = listed.toList ++ (n.entriesOnto parent? #[]).toList := by
  induction n using induction_children generalizing parent? listed with
  | h n ih =>
    have hfold : ∀ (cs : List (Node Place)) (listed : Array Entry), (∀ c ∈ cs, c ∈ n.children) →
        (cs.foldl (fun listed c => c.entriesOnto (some n.id) listed) listed).toList = listed.toList ++
          (cs.foldl (fun listed c => c.entriesOnto (some n.id) listed) #[]).toList := by
      intro cs
      induction cs with
      | nil => exact fun _ _ => by simp
      | cons c cs ihs =>
        intro listed hcs
        have hrest := fun listed => ihs listed fun c' hc' => hcs c' (List.mem_cons_of_mem _ hc')
        rw [List.foldl_cons, List.foldl_cons, hrest, hrest (c.entriesOnto _ #[]),
          ih c (hcs c List.mem_cons_self) _ listed, List.append_assoc]
    rw [entriesOnto_eq, entriesOnto_eq n _ #[], Array.toList_push, Array.toList_push,
      hfold _ _ fun _ hc => hc, List.append_assoc]

theorem cells_eq (n : Node Place) (parent? : Option NodeId) :
    n.cells parent? = n.children.flatMap (cells (some n.id)) ++ [Entry.cell ⟨n, parent?⟩] := by
  have hfold : ∀ cs : List (Node Place),
      (cs.foldl (fun listed c => c.entriesOnto (some n.id) listed) #[]).toList.map Entry.cell =
        cs.flatMap (cells (some n.id)) := by
    intro cs
    induction cs using List.reverseRecOn with
    | nil => rfl
    | append_singleton cs c ih =>
      rw [List.foldl_append, List.foldl_cons, List.foldl_nil, toList_entriesOnto, List.map_append, ih,
        List.flatMap_append, List.flatMap_singleton]
      rfl
  rw [cells, entriesOnto_eq, Array.toList_push, List.map_append, hfold]
  rfl

@[simp] theorem length_cells (n : Node Place) (parent? : Option NodeId) :
    (n.cells parent?).length = n.nodes.length := by
  have h := congrArg List.length (map_node_entriesOnto n parent? #[])
  simpa [cells] using h

theorem length_flatMap_cells (ns : List (Node Place)) (parent? : Option NodeId) :
    (ns.flatMap (cells parent?)).length = (ns.flatMap nodes).length := by
  simp [List.length_flatMap]

/-! ### Trees with numbers in order -/

/-- The nodes of the trees are numbered in order, from `i` on. -/
def NumberedFrom (i : Nat) (ns : List (Node Place)) : Prop :=
  (ns.flatMap nodes).map id = List.range' i (ns.flatMap nodes).length

theorem numberedFrom_cons_iff {i : Nat} {n : Node Place} {ns : List (Node Place)} :
    NumberedFrom i (n :: ns) ↔ NumberedFrom i [n] ∧ NumberedFrom (i + n.nodes.length) ns := by
  rw [NumberedFrom, NumberedFrom, NumberedFrom, List.flatMap_cons, List.flatMap_singleton, List.map_append,
    List.length_append, ← List.range'_append_1]
  refine ⟨fun h => List.append_inj h (by simp), fun ⟨hn, hns⟩ => ?_⟩
  rw [hn, hns]

/-- The children of a numbered tree are numbered, and the tree has the next number. -/
theorem NumberedFrom.children {i : Nat} {n : Node Place} (h : NumberedFrom i [n]) :
    NumberedFrom i n.children ∧ n.id = i + (n.children.flatMap nodes).length := by
  rw [NumberedFrom, List.flatMap_singleton, nodes_eq, ← List.flatMap_def, List.map_append,
    List.length_append, ← List.range'_append_1] at h
  obtain ⟨hchildren, hlast⟩ := List.append_inj h (by simp)
  exact ⟨hchildren, (List.cons.inj hlast).1⟩

/-- Trees with nodes that are numbered from the number of cells on all get their parent. -/
theorem foldl_adopt (parent : NodeId) (A : List Cell) (cs : List (Node Place))
    (h : NumberedFrom A.length cs) :
    (cs.map id).foldl (Arena.adopt parent) (A ++ cs.flatMap (cells none)) =
      A ++ cs.flatMap (cells (some parent)) := by
  induction cs generalizing A with
  | nil => rfl
  | cons c cs ih =>
    obtain ⟨hc, hcs⟩ := numberedFrom_cons_iff.mp h
    have hfirst : Arena.adopt parent (A ++ (c :: cs).flatMap (cells none)) c.id =
        (A ++ c.cells (some parent)) ++ cs.flatMap (cells none) := by
      have hid : c.id = (A ++ c.children.flatMap (cells (some c.id))).length := by
        rw [hc.children.2, List.length_append, length_flatMap_cells]
      have hadopt := modify_append_cons (A ++ c.children.flatMap (cells (some c.id)))
        (cs.flatMap (cells none)) (Entry.cell ⟨c, none⟩) fun cell => { cell with parent? := some parent }
      rw [← hid] at hadopt
      rw [List.flatMap_cons, cells_eq c none, cells_eq c (some parent)]
      simpa [Arena.adopt, Entry.cell] using hadopt
    rw [List.map_cons, List.foldl_cons, hfirst, ih _ (by simpa using hcs), List.flatMap_cons,
      List.append_assoc]

/-! ### Storing -/

section

variable (keep : Bool) (place : α → Syntax.NodeId × Location)

/-- Puts a node into the arena and returns its number. -/
def put (kind : Kind NodeId NodeId) (place : Syntax.NodeId × Location) (isImage : Bool) :
    StateM Arena NodeId :=
  modifyGet fun arena => (arena.cells.length, arena.put keep kind place.1 place.2 isImage)

/-- Stores a tree, children before their parent and in source order; its labels say where a node comes
from and where it is. -/
def store (n : Node α) : StateM Arena NodeId :=
  n.fold fun n k => do
    let k ← k.mapM fun child => child
    put keep k (place n.label) (!n.kind.isAscription)

theorem store_eq (n : Node α) : n.store keep place =
    n.shape.mapM (store keep place) >>= fun k => put keep k (place n.label) (!n.kind.isAscription) := by
  rw [store, fold_eq, Kind.mapM_map]
  rfl

theorem store_mk (l : α) (k : Kind (Name α (Node α)) (Node α)) : (mk l k).store keep place =
    (k.map Name.toNode fun n => n).mapM (store keep place) >>= fun k' =>
      put keep k' (place l) (!k.isAscription) :=
  store_eq keep place (mk l k)

/-- Labels may be changed before a tree is stored. -/
theorem store_map (f : β → α) (n : Node β) : (n.map f).store keep place = n.store keep (place ∘ f) := by
  induction n using induction_children with
  | h n ih =>
    rw [store_eq, store_eq, shape_map, Kind.mapM_map,
      Kind.mapM_congr (f := store keep place ∘ map f) ih, label_map, isAscription_map]
    rfl

end

/-- The arena with trees without a parent stored in it. -/
def stored (keep : Bool) (arena : Arena) (ns : List (Node Place)) : Arena where
  cells := arena.cells ++ ns.flatMap (cells none)
  links := if keep then (ns.flatMap nodes).foldl Links.addNode arena.links else arena.links

section

variable {keep : Bool} {arena : Arena} {n : Node Place}

theorem stored_nil : stored keep arena [] = arena := by
  cases keep <;> simp [stored]

theorem stored_cons (n : Node Place) (ns : List (Node Place)) :
    stored keep arena (n :: ns) = stored keep (stored keep arena [n]) ns := by
  cases keep <;> simp [stored]

theorem map_id_children : (n.kind.map Name.id id).children = n.children.map id := by
  rw [children, shape, ← Kind.children_map, Kind.map_map]
  rfl

/-- Putting a node whose children have been stored is storing the node. -/
theorem put_stored (keep : Bool) (h : NumberedFrom arena.cells.length [n]) :
    (stored keep arena n.children).cells.length = n.id ∧
      (stored keep arena n.children).put keep (n.kind.map Name.id id) n.origin n.location
        (!n.kind.isAscription) = stored keep arena [n] := by
  obtain ⟨hchildren, hid⟩ := h.children
  have hlength : (stored keep arena n.children).cells.length = n.id := by
    rw [stored, List.length_append, length_flatMap_cells, hid]
  refine ⟨hlength, ?_⟩
  rw [Arena.put, map_id_children, hlength]
  congr 1
  · rw [stored, foldl_adopt _ _ _ hchildren, List.flatMap_singleton, cells_eq, List.append_assoc]
    rfl
  · cases keep
    · rfl
    · have hnodes : [n].flatMap nodes = n.children.flatMap nodes ++ [n] := by
        rw [List.flatMap_singleton, nodes_eq, List.flatMap_def]
      rw [if_pos rfl, if_pos rfl, hnodes, List.foldl_append]
      rfl

/-- A tree that is numbered from the number of cells on is stored under its own numbers. -/
theorem run_store (h : NumberedFrom arena.cells.length [n]) :
    (n.store keep fun p => (p.origin, p.location)).run arena = (n.id, stored keep arena [n]) := by
  induction n using induction_children generalizing arena with
  | h n ih =>
    -- each child is stored behind the nodes of the ones before it
    have hchildren : ∀ (cs : List (Node Place)) (arena : Arena), (∀ c ∈ cs, c ∈ n.children) →
        NumberedFrom arena.cells.length cs →
        Kind.Runs (store keep fun p => (p.origin, p.location)) id cs arena (stored keep arena cs) := by
      intro cs
      induction cs with
      | nil => exact fun _ _ _ => Kind.runs_nil_iff.mpr stored_nil.symm
      | cons c cs ihs =>
        intro arena hcs hnumbered
        obtain ⟨hc, hrest⟩ := numberedFrom_cons_iff.mp hnumbered
        refine Kind.runs_cons_iff.mpr ⟨_, ih c (hcs c List.mem_cons_self) hc, ?_⟩
        rw [stored_cons c cs]
        refine ihs _ (fun c' hc' => hcs c' (List.mem_cons_of_mem _ hc')) ?_
        simpa [stored] using hrest
    have hkind := Kind.run_mapM (hchildren _ _ (fun _ hc => hc) h.children.1)
    obtain ⟨hlength, hput⟩ := put_stored keep h
    rw [shape, Kind.map_map] at hkind
    rw [store_eq, StateT.run_bind, shape, hkind]
    exact Prod.ext hlength hput

end

end Node

end ScriptAnalysis.Ast

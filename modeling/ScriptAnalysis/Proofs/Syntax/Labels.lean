import ScriptAnalysis.Proofs.Syntax.Nodes

/-!
# Changing the labels of a tree

A tree keeps its shape when its labels are changed (`map_mk`, `nodes_map`). Numbering comes before or
after such a change: what is kept of the labels of a numbered tree may be got without numbering
(`map_number`), and a numbering that does not look at what was changed goes the same way
(`number_map`).
-/

namespace ScriptAnalysis.Syntax

variable {α β γ δ σ : Type}

/-- The name with its label changed by `f`. -/
def Ident.map (f : α → β) (i : Ident α) : Ident β := ⟨f i.label, i.text⟩

@[simp] theorem Ident.label_map (f : α → β) (i : Ident α) : (i.map f).label = f i.label := rfl

@[simp] theorem Ident.text_map (f : α → β) (i : Ident α) : (i.map f).text = i.text := rfl

namespace Node

/-! ### One change for every label -/

theorem mapListM_pure (f : α → β) (ns : List (Node α)) :
    mapListM (m := Id) (fun a => pure (f a)) ns = pure (ns.map (map f)) := by
  induction ns with
  | nil => rfl
  | cons n ns ih =>
    rw [mapListM, ih]
    rfl

theorem mapOptionM_pure (f : α → β) (n? : Option (Node α)) :
    mapOptionM (m := Id) (fun a => pure (f a)) n? = pure (n?.map (map f)) := by
  cases n? <;> rfl

theorem mapKindM_pure (f : α → β) (k : Kind (Ident α) (Node α)) :
    mapKindM (m := Id) (fun a => pure (f a)) k = pure (k.map (Ident.map f) (map f)) := by
  cases k <;> simp only [mapKindM, mapListM_pure, mapOptionM_pure] <;> rfl

@[simp] theorem map_mk (f : α → β) (l : α) (k : Kind (Ident α) (Node α)) :
    (mk l k).map f = mk (f l) (k.map (Ident.map f) (map f)) := by
  rw [map, mapM, mapKindM_pure]
  rfl

theorem label_map (f : α → β) (n : Node α) : (n.map f).label = f n.label := by
  obtain ⟨l, k⟩ := n
  rw [map_mk]
  rfl

theorem kind_map (f : α → β) (n : Node α) : (n.map f).kind = n.kind.map (Ident.map f) (map f) := by
  obtain ⟨l, k⟩ := n
  rw [map_mk]
  rfl

theorem map_toNode (f : α → β) (i : Ident α) : i.toNode.map f = (i.map f).toNode := by
  rw [Ident.toNode, map_mk]
  rfl

theorem children_map (f : α → β) (n : Node α) : (n.map f).children = n.children.map (map f) := by
  obtain ⟨l, k⟩ := n
  simp only [children, shape, map_mk, kind_mk, ← Kind.children_map, Kind.map_map, map_toNode]
  rfl

theorem nodes_map (f : α → β) (n : Node α) : (n.map f).nodes = n.nodes.map (map f) := by
  induction n using induction_children with
  | h n ih =>
    have hchildren : (n.map f).children.map nodes = (n.children.map nodes).map (List.map (map f)) := by
      rw [children_map, List.map_map, List.map_map]
      exact List.map_congr_left ih
    rw [nodes_eq, nodes_eq n, hchildren, ← List.map_flatten, List.map_append]
    rfl

/-- Labels that stay the same change nothing. -/
theorem map_id (n : Node α) : n.map (fun l => l) = n := by
  induction n using induction_children with
  | h n ih =>
    have hident : ∀ i : Ident α, i.map (fun l => l) = i := fun _ => rfl
    have hlist : ∀ ns : List (Node α), (∀ n ∈ ns, n.map (fun l => l) = n) →
        ns.map (map fun l => l) = ns := fun ns h => (List.map_congr_left h).trans (List.map_id ns)
    have hoption : ∀ n? : Option (Node α), (∀ n ∈ n?.toList, n.map (fun l => l) = n) →
        n?.map (map fun l => l) = n? := by
      rintro (_ | n) h
      · rfl
      · exact congrArg some (h n List.mem_cons_self)
    obtain ⟨l, k⟩ := n
    rw [map_mk]
    cases k <;>
      simp only [children, shape, kind_mk, Kind.map, Kind.children, List.mem_cons, List.mem_append,
        List.map_id, Option.map_id] at ih ⊢ <;>
      grind

/-! ### Changes that are computed -/

section

variable {f : α → StateM σ β} {g : β → γ} {h : α → γ}

mutual

/-- Labels that are computed with a state may be changed without it when what is kept of them does not
depend on the state. -/
theorem map_mapM (hf : ∀ a s, g ((f a).run s).1 = h a) :
    (n : Node α) → (s : σ) → ((n.mapM f).run s).1.map g = n.map h
  | .mk l k, s => by
    have h1 : ((mapM f (mk l k)).run s).1 =
      mk ((f l).run ((mapKindM f k).run s).2).1 ((mapKindM f k).run s).1 := rfl
    rw [h1, map_mk, map_mk, hf, map_mapKindM_run hf k s]

theorem map_mapKindM_run (hf : ∀ a s, g ((f a).run s).1 = h a) :
    (k : Kind (Ident α) (Node α)) → (s : σ) →
      ((mapKindM f k).run s).1.map (Ident.map g) (map g) = k.map (Ident.map h) (map h)
  | k, s => by
    cases k <;>
      simp [-bind_pure_comp, mapKindM, Kind.map, Ident.mapM, Ident.map, fst_pure_id, fst_bind_id, hf,
        map_mapM hf, map_mapListM_run hf, map_mapOptionM_run hf]

theorem map_mapListM_run (hf : ∀ a s, g ((f a).run s).1 = h a) :
    (ns : List (Node α)) → (s : σ) → ((mapListM f ns).run s).1.map (map g) = ns.map (map h)
  | [], s => rfl
  | n :: ns, s => by
    show (((n.mapM f).run s).1 :: ((mapListM f ns).run ((n.mapM f).run s).2).1).map (map g) = _
    rw [List.map_cons, List.map_cons, map_mapM hf n s, map_mapListM_run hf ns _]

theorem map_mapOptionM_run (hf : ∀ a s, g ((f a).run s).1 = h a) :
    (n? : Option (Node α)) → (s : σ) → ((mapOptionM f n?).run s).1.map (map g) = n?.map (map h)
  | none, s => rfl
  | some n, s => by
    show (some ((n.mapM f).run s).1).map (map g) = _
    rw [Option.map_some, Option.map_some, map_mapM hf n s]

end

end

section

variable {f : α → StateM σ β} {f' : γ → StateM σ δ} {g : β → δ} {h : α → γ}

mutual

/-- A computation that does not look at what was changed before it may come first. -/
theorem run_mapM_map (hf : ∀ a s, (f' (h a)).run s = (g ((f a).run s).1, ((f a).run s).2)) :
    (n : Node α) → (s : σ) →
      ((n.map h).mapM f').run s = (((n.mapM f).run s).1.map g, ((n.mapM f).run s).2)
  | .mk l k, s => by
    have h1 : (mapM f' (mk (h l) (k.map (Ident.map h) (map h)))).run s =
      (mk ((f' (h l)).run ((mapKindM f' (k.map (Ident.map h) (map h))).run s).2).1
          ((mapKindM f' (k.map (Ident.map h) (map h))).run s).1,
        ((f' (h l)).run ((mapKindM f' (k.map (Ident.map h) (map h))).run s).2).2) := rfl
    rw [map_mk, h1, run_mapKindM_map hf k s, hf]
    exact Prod.ext (map_mk g _ _).symm rfl

theorem run_mapKindM_map (hf : ∀ a s, (f' (h a)).run s = (g ((f a).run s).1, ((f a).run s).2)) :
    (k : Kind (Ident α) (Node α)) → (s : σ) →
      (mapKindM f' (k.map (Ident.map h) (map h))).run s =
        (((mapKindM f k).run s).1.map (Ident.map g) (map g), ((mapKindM f k).run s).2)
  | k, s => by
    cases k <;>
      simp only [mapKindM, Kind.map, Ident.mapM, Ident.map, StateT.run_bind, StateT.run_pure, hf,
        run_mapM_map hf, run_mapListM_map hf, run_mapOptionM_map hf] <;>
      rfl

theorem run_mapListM_map (hf : ∀ a s, (f' (h a)).run s = (g ((f a).run s).1, ((f a).run s).2)) :
    (ns : List (Node α)) → (s : σ) →
      (mapListM f' (ns.map (map h))).run s =
        (((mapListM f ns).run s).1.map (map g), ((mapListM f ns).run s).2)
  | [], s => rfl
  | n :: ns, s => by
    have h1 : (mapListM f' (n.map h :: ns.map (map h))).run s =
      ((((n.map h).mapM f').run s).1 ::
          ((mapListM f' (ns.map (map h))).run (((n.map h).mapM f').run s).2).1,
        ((mapListM f' (ns.map (map h))).run (((n.map h).mapM f').run s).2).2) := rfl
    rw [List.map_cons, h1, run_mapM_map hf n s, run_mapListM_map hf ns _]
    rfl

theorem run_mapOptionM_map (hf : ∀ a s, (f' (h a)).run s = (g ((f a).run s).1, ((f a).run s).2)) :
    (n? : Option (Node α)) → (s : σ) →
      (mapOptionM f' (n?.map (map h))).run s =
        (((mapOptionM f n?).run s).1.map (map g), ((mapOptionM f n?).run s).2)
  | none, s => rfl
  | some n, s => by
    have h1 : (mapOptionM f' (some (n.map h))).run s =
      (some (((n.map h).mapM f').run s).1, (((n.map h).mapM f').run s).2) := rfl
    rw [Option.map_some, h1, run_mapM_map hf n s]
    rfl

end

end

/-! ### Numbering -/

/-- What is kept of the labels of a numbered tree may be got without numbering. -/
theorem map_number (f : Nat → α → β) (g : β → γ) (h : α → γ) (hf : ∀ i a, g (f i a) = h a)
    (n : Node α) : (n.number f).map g = n.map h :=
  map_mapM (f := tick f) (fun a i => hf i a) n 0

/-- A numbering that does not look at what was changed may come after the change. -/
theorem number_map (f : Nat → α → β) (g : β → δ) (f' : Nat → γ → δ) (h : α → γ)
    (hf : ∀ i a, f' i (h a) = g (f i a)) (n : Node α) : (n.map h).number f' = (n.number f).map g := by
  have hticks : ∀ a i, (tick f' (h a)).run i = (g ((tick f a).run i).1, ((tick f a).run i).2) :=
    fun a i => Prod.ext (hf i a) rfl
  exact congrArg Prod.fst (run_mapM_map hticks n 0)

end Node

end ScriptAnalysis.Syntax

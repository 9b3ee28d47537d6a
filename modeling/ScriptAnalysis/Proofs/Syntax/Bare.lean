import ScriptAnalysis.Syntax.Node

/-!
# Trees without labels and parentheses

The bare tree of a tree has no labels, and an expression stands in it in place of the parentheses around
it. Numbering the nodes of a tree leaves its bare tree as it is.
-/

namespace ScriptAnalysis.Syntax

variable {α β σ : Type}

/-! ### Folding over a node -/

namespace Kind

variable {ν ν' ν'' β'' β' : Type}

theorem map_map (f : ν → ν') (g : β → β') (f' : ν' → ν'') (g' : β' → β'') (k : Kind ν β) :
    (k.map f g).map f' g' = k.map (fun n => f' (f n)) (fun c => g' (g c)) := by
  cases k <;> simp [map, Function.comp_def]

end Kind

/-- The value of a node from the values of its names and its other children. -/
theorem Node.fold_mk (f : Node α → Kind β β → β) (l : α) (k : Kind (Ident α) (Node α)) :
    (mk l k).fold f = f (mk l k) (k.map (fun i => f i.toNode (.identifier i.text)) (fold f)) := by
  rw [fold, foldKind_eq_map]
  rfl

/-! ### The bare tree -/

/-- The name without its label. -/
def Ident.bare (i : Ident α) : Ident Unit := ⟨(), i.text⟩

@[simp] theorem Ident.bare_mk (l : α) (text : String) : (Ident.mk l text).bare = ⟨(), text⟩ := rfl

namespace Node

/-- The name that the node of a name holds. -/
def toIdent (n : Node Unit) : Ident Unit := ⟨(), n.kind.identifierText?.getD ""⟩

/-- The node of a kind; parentheses are left out. -/
def ofBareKind : Kind (Ident Unit) (Node Unit) → Node Unit
  | .parenthesized e => e
  | k => .mk () k

/-- The tree without labels and parentheses. -/
def bare (n : Node α) : Node Unit := n.fold fun _ k => ofBareKind (k.map toIdent fun n => n)

/-- The bare tree of a node from the bare trees of its children. -/
theorem bare_mk (l : α) (k : Kind (Ident α) (Node α)) :
    (mk l k).bare = ofBareKind (k.map Ident.bare bare) := by
  rw [bare, fold_mk, Kind.map_map]
  rfl

/-! ### Numbering -/

/-- What a step returns is not changed by the wrapper around it. -/
theorem fst_pure_id (x : β × σ) : (pure x : Id (β × σ)).fst = x.fst := rfl

theorem fst_bind_id (g : α × σ → Id (β × σ)) (x : Id (α × σ)) :
    (x >>= g).fst = Prod.fst (g x) := rfl

section

variable {γ : Type} (h : Kind γ γ → γ) (f : α → StateM σ β)

mutual

/-- Computing labels changes no value that does not depend on labels. -/
theorem fold_mapM :
    (n : Node α) → (s : σ) → ((n.mapM f).run s).1.fold (fun _ => h) = n.fold fun _ => h
  | .mk l k, s => by
    rw [fold_mk]
    show (mk _ ((mapKindM f k).run s).1).fold (fun _ => h) = _
    rw [fold_mk, map_mapKindM k s]

theorem map_mapKindM :
    (k : Kind (Ident α) (Node α)) → (s : σ) →
      ((mapKindM f k).run s).1.map (fun i => h (.identifier i.text)) (fold fun _ => h) =
        k.map (fun i => h (.identifier i.text)) (fold fun _ => h)
  | k, s => by
    cases k <;>
      simp [-bind_pure_comp, mapKindM, Kind.map, Ident.mapM, fst_pure_id, fst_bind_id,
        fold_mapM, map_mapListM, map_mapOptionM]

theorem map_mapListM :
    (ns : List (Node α)) → (s : σ) →
      ((mapListM f ns).run s).1.map (fold fun _ => h) = ns.map (fold fun _ => h)
  | [], s => rfl
  | n :: ns, s => by
    show (((n.mapM f).run s).1 :: ((mapListM f ns).run ((n.mapM f).run s).2).1).map _ = _
    rw [List.map_cons, List.map_cons, fold_mapM n s, map_mapListM ns _]

theorem map_mapOptionM :
    (n? : Option (Node α)) → (s : σ) →
      ((mapOptionM f n?).run s).1.map (fold fun _ => h) = n?.map (fold fun _ => h)
  | none, s => rfl
  | some n, s => by
    show (some ((n.mapM f).run s).1).map _ = _
    rw [Option.map_some, Option.map_some, fold_mapM n s]

end

end

/-- Numbering changes no value that does not depend on labels. -/
theorem fold_number {γ : Type} (h : Kind γ γ → γ) (f : Nat → α → β) (n : Node α) :
    (n.number f).fold (fun _ => h) = n.fold fun _ => h :=
  fold_mapM h _ n 0

/-- Numbering leaves the bare tree as it is. -/
@[simp] theorem bare_number (f : Nat → α → β) (n : Node α) : (n.number f).bare = n.bare :=
  fold_number _ f n

end Node

end ScriptAnalysis.Syntax

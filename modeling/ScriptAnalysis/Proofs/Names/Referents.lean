import ScriptAnalysis.Proofs.Names.Classification
import ScriptAnalysis.Proofs.Names.Steps

/-!
# What symbols and references come from

Every symbol of a file has the number of its place and a node that declares it (`IsRead.of_symbol`). What is
entered as declared is the name of such a node (`IsRead.exists_declaredName`), and what is left as a reference to
a value is not the name of a type that is referred to (`IsRead.ne_of_isUnresolved`).
-/

namespace ScriptAnalysis

open Names (Referred Outline)
open Semantics (Binding Declaration Symbol)
open Semantics.Binding
open Syntax (Ident Node NodeId Place Tree)

namespace Semantics.Binding

/-! ### What the steps of binding keep -/

/-- Every symbol has a declaration, and of the references only those to values are listed as such. -/
structure State.Refers (rs : List (Referred Place)) (s : State) : Prop where
  declared : ∀ (index : Nat) (symbol : Symbol), s.binding.symbols[index]? = some symbol → symbol.declarations ≠ []
  value : ∀ id ∈ s.binding.unresolved, ∃ r ∈ rs, r.isType = false ∧ r.label.id = id

namespace State.Refers

variable {rs : List (Referred Place)} {s : State}

theorem declare (h : s.Refers rs) (d : Declaration) : (s.declare d).Refers rs := by
  cases hframes : s.frames with
  | nil => rwa [declare_of_no_scope hframes]
  | cons frame frames =>
  by_cases hname : d.name.text = ""
  · rwa [declare_of_missing hname]
  cases hindex : frame.lookup? d.kind.isType d.name.text with
  | some index =>
    obtain ⟨conflicts, heq⟩ := declare_eq_of_some hframes hname hindex
    rw [heq]
    refine ⟨fun i symbol hsymbol => ?_, h.value⟩
    dsimp only at hsymbol
    rw [Array.getElem?_modify] at hsymbol
    split at hsymbol
    · obtain ⟨old, -, rfl⟩ := Option.map_eq_some_iff.mp hsymbol
      exact List.append_ne_nil_of_right_ne_nil _ (List.cons_ne_nil _ _)
    · exact h.declared i symbol hsymbol
  | none =>
    rw [declare_eq_of_none hframes hname hindex]
    refine ⟨fun i symbol hsymbol => ?_, h.value⟩
    dsimp only at hsymbol
    rw [Array.getElem?_push] at hsymbol
    split at hsymbol
    · obtain rfl := Option.some.inj hsymbol
      exact List.cons_ne_nil _ _
    · exact h.declared i symbol hsymbol

theorem refer (h : s.Refers rs) {r : Referred Place} (hr : r ∈ rs) :
    (s.refer r.isType ⟨r.label, r.name⟩).Refers rs := by
  refine ⟨by rw [symbols_refer]; exact h.declared, ?_⟩
  rw [State.refer]
  split
  · exact h.value
  dsimp only
  split
  · exact h.value
  · split
    · exact h.value
    · rename_i htype
      exact List.forall_mem_cons.mpr ⟨⟨r, hr, Bool.eq_false_iff.mpr htype, rfl⟩, h.value⟩

end State.Refers

theorem refers_walks {late : Bool} {o : Outline Declaration (Referred Place)} {s s' : State}
    (h : o.Walks List.Sublist late s s') (hs : s.Refers o.reads) : s'.Refers o.reads :=
  h.preserves (fun d _ _ hs => hs.declare d) (fun _ hr _ hs => hs.refer hr) (fun _ hs => ⟨hs.declared, hs.value⟩)
    (fun _ hs => ⟨hs.declared, hs.value⟩) (List.Subset.refl _) (List.Subset.refl _) hs

/-! ### Files -/

namespace IsRead

variable {t : Tree} (ht : IsRead t)

include ht

theorem refers_after : ((bindNode t.root).after .initial).Refers t.root.outline.reads :=
  refers_walks (Node.walks_bindNode Node.collects_any t.root ⟨ht.formed, trivial⟩ .initial)
    ⟨by simp [State.initial], by simp [State.initial]⟩

/-- A symbol has the number of its place and a declaration. -/
theorem of_symbol {index : Nat} {symbol : Symbol} (h : (ofTree t).symbols[index]? = some symbol) :
    symbol.id = .localSymbol index ∧ ∃ d, symbol.firstDeclaration? = some d := by
  have hnumbers : State.Numbers ((bindNode t.root).after .initial) :=
    numbers_walks (Node.walks_bindNode Node.collects_any t.root ⟨ht.formed, trivial⟩ .initial)
      (by simp [State.Numbers, State.initial, symbolId?])
  refine ⟨hnumbers index symbol.id (congrArg (Option.map Symbol.id) h), ?_⟩
  obtain ⟨d, ds, hdeclarations⟩ := List.exists_cons_of_ne_nil (ht.refers_after.declared index symbol h)
  exact ⟨d, congrArg List.head? hdeclarations⟩

/-- What is entered as declared is the name that a node declares. -/
theorem exists_declaredName {id : NodeId} (h : id ∈ (ofTree t).declared.map (·.1)) :
    ∃ n ∈ t.root.nodes, ∃ name, n.kind.declaredName? = some name ∧ name.id = id := by
  obtain ⟨entries, uses, hconsists⟩ := ht.consistsOf
  obtain ⟨d, hd, -, rfl⟩ := mem_named_iff.mp ((hconsists.mem_declared_iff id).mp h)
  have hmention := Outline.declaration_mem_mentions_iff.mpr ⟨d, hd, rfl, rfl⟩
  have hmention := (Node.perm_mentions ht.formed).mem_iff.mpr (List.mem_append_left _ hmention)
  obtain ⟨n, hn, hname, -⟩ := Node.declaration_mem_mentions_iff.mp hmention
  exact ⟨n, hn, hname⟩

/-- A reference to a value is not the name of a type that is referred to. -/
theorem ne_of_isUnresolved {id : NodeId} (h : (ofTree t).isUnresolved id = true) {n : Node Place}
    (hn : n ∈ t.root.nodes) {name : Ident Place} (hkind : n.kind = .typeReference name) : name.id ≠ id := by
  rintro rfl
  have hmem : name.id ∈ ((bindNode t.root).after .initial).binding.unresolved :=
    List.mem_reverse.mp (List.contains_iff_mem.mp h)
  obtain ⟨r, hr, htype, hid⟩ := ht.refers_after.value _ hmem
  have hmention := Node.typeName_mem_mentions_iff.mpr ⟨n, hn, name, hkind, rfl⟩
  rw [(Node.perm_mentions ht.formed).mem_iff, List.mem_append] at hmention
  rcases hmention with hmention | hmention
  · obtain ⟨r', hr', htype', hid'⟩ := Outline.typeName_mem_mentions_iff.mp hmention
    have hnodup := (List.nodup_append.mp ht.nodup_declarations_reads).2.1
    rw [List.inj_on_of_nodup_map hnodup hr hr' (hid.trans hid'.symm), htype'] at htype
    exact Bool.noConfusion htype
  · obtain ⟨-, -, i, -, heq⟩ := Node.mem_memberMentions_iff.mp hmention
    cases heq

end IsRead

end Semantics.Binding

end ScriptAnalysis

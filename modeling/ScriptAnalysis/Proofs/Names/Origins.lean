import ScriptAnalysis.Proofs.Names.Conversion
import ScriptAnalysis.Proofs.Names.Graph

/-!
# Names and their origins

The outline of the common tree of a file is that of the file's own tree when every name is taken for the
identifier that it comes from (`relabel_outlineOf`). So what stands in one of them stands in the other,
inside the same scopes (`exists_occurrence`).
-/

namespace ScriptAnalysis.Names

open Ast (Conversion Origin Settings)
open Semantics (Declaration)
open Syntax (Tree)

variable {tree : Tree} {settings : Settings} {conversion : Conversion}

/-- Numbering leaves a program a program. -/
theorem number_program {α : Type} (f : Nat → Origin → α) (tree : Tree) :
    ∃ l body, (Ast.program tree).number f = .mk l (.program body) :=
  ⟨_, _, rfl⟩

theorem relabel_relabel {α β γ : Type} (f : α → β) (g : β → γ)
    (o : Outline (Declared α) (Referred α)) :
    (o.relabel f).relabel g = o.relabel fun a => g (f a) :=
  Outline.map_map _ _ _ _ o

/-- The statements of a file are statements. -/
theorem formed_statements {tree : Tree} (h : tree.root.Formed .file) :
    ∀ n ∈ tree.statements, n.Formed .statement := by
  rw [Tree.statements]
  have hfits := h.fits_kind
  cases hroot : tree.root with
  | mk l k =>
    rw [hroot] at h hfits
    cases k <;> simp only [Syntax.Node.kind_mk, Syntax.Kind.fits, Bool.false_eq_true] at hfits
    case sourceFile body => exact Syntax.Node.formed_map_iff.mp h.parts

/-- The outline of a file is that of its statements in one scope. -/
theorem outline_root {tree : Tree} (h : tree.root.Formed .file) :
    tree.root.outline = .scope .global .done (Syntax.Node.outlineList tree.statements) .done := by
  rw [Tree.statements]
  have hfits := h.fits_kind
  cases hroot : tree.root with
  | mk l k =>
    rw [hroot] at hfits
    cases k <;> simp only [Syntax.Node.kind_mk, Syntax.Kind.fits, Bool.false_eq_true] at hfits
    case sourceFile body => rw [Syntax.Node.outline]; rfl

/-- **The outline of the common tree comes from the outline of the file.** -/
theorem relabel_outlineOf {fileName text : String}
    (h : Conversion.ofTree (.parse fileName text) settings = .ok conversion)
    (hmaps : settings.nodeMaps = true) :
    (outlineOf conversion.tree).relabel conversion.maps.origin? =
      (Syntax.Node.outlineList (Tree.parse fileName text).statements).byId.relabel some := by
  have hformed := Tree.formed_root_parse fileName text
  generalize Tree.parse fileName text = tree at *
  obtain ⟨f, hf, hroot, -, hmaps'⟩ := Conversion.of_ofTree_eq_ok h
  obtain ⟨l, body, hbody⟩ := number_program f tree
  have horigins : ((Ast.program tree).number f).map (fun l => conversion.maps.origin? l.id) =
      (Ast.program tree).map fun o => some o.node := by
    rw [← Ast.Node.map_number f (fun l => some l.origin) _ (fun i o => congrArg some (hf i o).2),
      hmaps' hmaps]
    exact Ast.Node.map_congr fun l hl => Ast.NodeMaps.origin?_id f (fun i o => (hf i o).1) _ _ hl
  have houtline : outlineOf conversion.tree =
      ((Ast.program tree).number f).outline.relabel Ast.Place.id := by
    rw [outlineOf, Ast.Tree.body, hroot, hbody, Ast.Node.outline]
    rfl
  have hprogram : (Ast.program tree).outline.relabel Origin.node =
      (Syntax.Node.outlineList tree.statements).byId := by
    rw [Ast.program, Ast.Node.outline]
    exact outlineList_convertList _ _ (formed_statements hformed) rfl
  rw [houtline, relabel_relabel, ← Ast.Node.outline_map, horigins, Ast.Node.outline_map,
    ← hprogram, relabel_relabel]

/-- An occurrence in the common tree is one in the file, with the same scopes around it. -/
theorem exists_occurrence {fileName text : String}
    (h : Conversion.ofTree (.parse fileName text) settings = .ok conversion)
    (hmaps : settings.nodeMaps = true) {x : Referred Ast.NodeId × List (List (Declared Ast.NodeId))}
    (hx : x ∈ (outlineOf conversion.tree).occurrences [(outlineOf conversion.tree).own .global]) :
    ∃ y ∈ (Tree.parse fileName text).root.outline.occurrences [],
      x.1.map conversion.maps.origin? = (y.1.map Syntax.Place.id).map some ∧
      x.2.map (·.map (·.map conversion.maps.origin?)) =
        (y.2.map (·.map Declaration.toDeclared)).map (·.map (·.map some)) := by
  have hformed := Tree.formed_root_parse fileName text
  have hrelabel := relabel_outlineOf h hmaps
  generalize Tree.parse fileName text = tree at *
  have hroot : tree.root.outline.occurrences [] = (Syntax.Node.outlineList tree.statements).occurrences
      [(Syntax.Node.outlineList tree.statements).own .global] := by
    rw [outline_root hformed, Outline.occurrences, Outline.occurrences, List.append_nil]
    rfl
  have hmem := List.mem_map_of_mem (f := fun x : Referred Ast.NodeId × List (List (Declared Ast.NodeId)) =>
    (x.1.map conversion.maps.origin?, x.2.map (·.map (·.map conversion.maps.origin?)))) hx
  rw [← Outline.occurrences_own_map, ← Outline.relabel, hrelabel, Outline.relabel,
    Outline.occurrences_own_map, Outline.byId, Outline.occurrences_own_map, List.map_map,
    List.mem_map] at hmem
  obtain ⟨y, hy, heq⟩ := hmem
  obtain ⟨h1, h2⟩ := Prod.mk.inj heq
  exact ⟨y, hroot ▸ hy, h1.symm, h2.symm⟩

end ScriptAnalysis.Names

import ScriptAnalysis.Proofs.Syntax.Lossless

/-!
# Identifiers in the order of the text

An identifier is a leaf, so it has the same place in every list of nodes of its tree. One that has a text
covers characters (`lt_of_isNamed`), and no two of them start at the same place: listed by number, the
identifiers of a file stand in the order of the text (`pairwise_identifiers_parse`).
-/

namespace ScriptAnalysis.Syntax

variable {α : Type}

/-- Whether the node is an identifier with a text. -/
def Kind.isNamed {ν β : Type} (k : Kind ν β) : Bool := k.identifierText?.any (· ≠ "")

@[simp] theorem Kind.identifierText?_map {ν ν' β β' : Type} (f : ν → ν') (g : β → β') (k : Kind ν β) :
    (k.map f g).identifierText? = k.identifierText? := by
  cases k <;> rfl

theorem Kind.isNamed_iff {ν β : Type} {k : Kind ν β} :
    k.isNamed = true ↔ ∃ text, k = .identifier text ∧ text ≠ "" := by
  cases k <;> simp [isNamed, identifierText?]

namespace Node

/-! ### Leaves -/

/-- Leaves have the same order in both lists of the nodes of a tree. -/
theorem filter_nodes_eq_filter_preorder {p : Node α → Bool} (hleaf : ∀ n, p n = true → n.children = [])
    (n : Node α) : n.nodes.filter p = n.preorder.filter p := by
  induction n using induction_children with
  | h n ih =>
    have hchildren : (n.children.map nodes).flatten.filter p = (n.children.flatMap preorder).filter p := by
      rw [List.flatMap_def, List.filter_flatten, List.filter_flatten, List.map_map, List.map_map]
      exact congrArg List.flatten (List.map_congr_left ih)
    rw [nodes_eq, preorder_eq, List.filter_append, hchildren, List.filter_cons]
    by_cases hp : p n = true
    · rw [hleaf n hp]
      simp [hp]
    · simp [hp]

/-! ### Names on characters -/

/-- A child of a node is one of its names or one of its parts. -/
theorem name_or_part_of_mem_children {l : α} {k : Kind (Ident α) (Node α)} {c : Node α}
    (hc : c ∈ (mk l k).children) :
    (∃ i ∈ k.names, c = i.toNode) ∨ ∃ part ∈ k.parts, c = part.2 := by
  change c ∈ (k.map Ident.toNode fun n => n).children at hc
  cases k <;> simp [Kind.map, Kind.children, Kind.names, Kind.parts] at hc ⊢ <;> grind

/-- Every identifier in a tree that has been read stands on characters unless it is missing. -/
theorem Placed.of_mem_nodes {role : Role} {n m : Node Span} (h : n.Placed role) (hm : m ∈ n.nodes)
    {text : String} (htext : m.kind.identifierText? = some text) : (Ident.mk m.label text).Placed := by
  induction h with
  | @mk _ l k _ self names _ ih =>
    rcases mem_nodes_iff.mp hm with hm | rfl
    · obtain ⟨c, hc, hm⟩ := mem_inner_iff.mp hm
      rcases name_or_part_of_mem_children hc with ⟨i, hi, rfl⟩ | ⟨part, hpart, rfl⟩
      · obtain rfl := List.mem_singleton.mp (show m ∈ [i.toNode] from hm)
        obtain rfl := Option.some.inj htext
        exact names i hi
      · exact ih part hpart hm
    · exact self text htext

end Node

/-! ### The identifiers of a file -/

namespace Tree

variable {fileName text : String}

/-- An identifier with a text covers characters. -/
theorem lt_of_isNamed {n : Node Place} (hn : n ∈ (parse fileName text).root.nodes)
    (hnamed : n.kind.isNamed = true) : n.span.start < n.span.stop := by
  obtain ⟨name, hkind, hname⟩ := Kind.isNamed_iff.mp hnamed
  -- the node of the tree that was read has the same place and the same kind
  have hmap : n.map Place.span ∈ ((parseTokens (.ofChars text.toList)).1.map fun span => span).nodes := by
    rw [← Node.map_number Place.mk Place.span (fun span => span) fun _ _ => rfl, Node.nodes_map]
    exact List.mem_map_of_mem hn
  rw [Node.nodes_map] at hmap
  obtain ⟨m, hm, heq⟩ := List.mem_map.mp hmap
  have hlabel : m.label = n.span := by
    have h := congrArg Node.label heq
    rwa [Node.label_map, Node.label_map] at h
  have hkind' : m.kind.identifierText? = some name := by
    have h := congrArg (fun m => m.kind.identifierText?) heq
    simp only [Node.kind_map, Kind.identifierText?_map] at h
    rw [h, hkind]
    rfl
  exact hlabel ▸ (placed_ofChars text.toList).of_mem_nodes hm hkind' hname

/-- **Identifiers stand in the order of the text.** -/
theorem pairwise_identifiers_parse :
    ((parse fileName text).root.nodes.filter (·.kind.isNamed)).Pairwise
      fun a b => a.span.start < b.span.start := by
  have hleaf : ∀ n : Node Place, n.kind.isNamed = true → n.children = [] := by
    intro n hn
    obtain ⟨l, k⟩ := n
    obtain ⟨name, rfl, -⟩ := Kind.isNamed_iff.mp hn
    rfl
  have horder := Node.filter_nodes_eq_filter_preorder hleaf (parse fileName text).root
  have hatoms : ((parse fileName text).root.nodes.filter (·.kind.isNamed)).Sublist
      ((parse fileName text).root.coveringAtoms Place.span) := by
    have hall : ∀ n ∈ (parse fileName text).root.nodes.filter (·.kind.isNamed),
        (n.kind.isAtom && !n.span.isEmpty) = true := by
      intro n hn
      obtain ⟨hn, hnamed⟩ := List.mem_filter.mp hn
      have hlt := lt_of_isNamed hn hnamed
      obtain ⟨name, hkind, -⟩ := Kind.isNamed_iff.mp hnamed
      have hempty : n.span.isEmpty = false := beq_false_of_ne (Nat.ne_of_lt hlt)
      rw [hkind, hempty]
      rfl
    rw [horder] at hall ⊢
    rw [← List.filter_eq_self.mpr hall, Node.coveringAtoms]
    exact List.filter_sublist.filter _
  exact (pairwise_coveringAtoms_parse.sublist hatoms).imp fun h => h.1

end Tree

end ScriptAnalysis.Syntax

import ScriptAnalysis.Proofs.Names.Common

/-!
# Names in the headers of functions

A name that the outline of a common tree has in a header stands in the tree where it should: inside the
parameters or the return type of a function (`Node.headersIn_outline`).
-/

namespace ScriptAnalysis

open Names (Declared Referred Outline)

namespace Ast

variable {α : Type}

/-- The parameters and the return type of a function. -/
def Kind.header {ν β : Type} : Kind ν β → List β
  | functionDeclaration _ params returnType? _ | arrowFunction params returnType? _ _ =>
    params ++ returnType?.toList
  | _ => []

namespace Node

/-- The nodes inside the parameters and the return types of the functions of a tree. -/
def headerNodes (n : Node α) : List (Node α) := n.nodes.flatMap fun m => m.kind.header.flatMap nodes

/-! ### Labels of references -/

/-- What holds of all labels of nodes holds of the label of every reference of their outline. -/
theorem of_relabel_eq {P : α → Prop} {o : Outline (Declared α) (Referred α)}
    (h : o.relabel P = o.relabel fun _ => True) {r : Referred α} (hr : r ∈ o.references) :
    P r.label := by
  have hmap : o.references.map (·.map P) = o.references.map (·.map fun _ => True) := by
    rw [Outline.relabel, Outline.relabel] at h
    rw [← Outline.references_map, h, Outline.references_map]
  have hlabel := congrArg Referred.label (List.map_inj_left.mp hmap r hr)
  exact of_eq_true hlabel

variable {P : α → Prop}

theorem outlineParams_references {ns : List (Node α)} (h : ∀ n ∈ ns, ∀ l ∈ n.labels, P l)
    {r : Referred α} (hr : r ∈ (outlineParams ns).references) : P r.label := by
  refine of_relabel_eq ?_ hr
  rw [← outlineParams_map, ← outlineParams_map]
  congr 1
  exact List.map_congr_left fun n hn => map_congr fun l hl => eq_true (h n hn l hl)

theorem outlineType?_references {n? : Option (Node α)} (h : ∀ n ∈ n?, ∀ l ∈ n.labels, P l)
    {r : Referred α} (hr : r ∈ (outlineType? n?).references) : P r.label := by
  refine of_relabel_eq ?_ hr
  rw [← outlineType?_map, ← outlineType?_map]
  congr 1
  exact Option.map_congr fun n hn => map_congr fun l hl => eq_true (h n hn l hl)

/-! ### Labels in headers -/

/-- All references in the headers of an outline have labels with a property. -/
def HeadersIn (P : α → Prop) (o : Outline (Declared α) (Referred α)) : Prop :=
  ∀ r ∈ o.headerReferences, P r.label

@[simp] theorem headersIn_done : HeadersIn P .done := by
  simp [HeadersIn, Outline.headerReferences]

@[simp] theorem headersIn_refer {r : Referred α} {o : Outline (Declared α) (Referred α)} :
    HeadersIn P (.refer r o) ↔ HeadersIn P o := Iff.rfl

@[simp] theorem headersIn_append {o o' : Outline (Declared α) (Referred α)} :
    HeadersIn P (o ++ o') ↔ HeadersIn P o ∧ HeadersIn P o' := by
  simp [HeadersIn, or_imp, forall_and]

@[simp] theorem headersIn_scope {type : Scoping.ScopeType}
    {header body o : Outline (Declared α) (Referred α)} :
    HeadersIn P (.scope type header body o) ↔
      (∀ r ∈ header.references, P r.label) ∧ HeadersIn P body ∧ HeadersIn P o := by
  simp [HeadersIn, Outline.headerReferences, or_imp, forall_and]

@[simp] theorem headersIn_outlineName (isHoisted isType : Bool) (name : Name α (Node α)) :
    HeadersIn P (outlineName isHoisted isType name) := by
  simp [outlineName, HeadersIn, Outline.headerReferences]

@[simp] theorem headersIn_outlineInitial (name : Name α (Node α)) :
    HeadersIn P (outlineInitial name) := by
  simp [outlineInitial]

mutual

@[simp] theorem headersIn_outlineType : (n : Node α) → HeadersIn P n.outlineType
  | .mk l k => by
    cases k <;> simp [outlineType, headersIn_outlineType, headersIn_outlineTypes]

@[simp] theorem headersIn_outlineTypes : (ns : List (Node α)) → HeadersIn P (outlineTypes ns)
  | [] => headersIn_done
  | n :: ns => by simp [outlineTypes, headersIn_outlineType n, headersIn_outlineTypes ns]

end

@[simp] theorem headersIn_outlineType? (n? : Option (Node α)) : HeadersIn P (outlineType? n?) := by
  cases n? <;> simp [outlineType?]

theorem headersIn_outlineList {ns : List (Node α)} (h : ∀ n ∈ ns, HeadersIn P n.outline) :
    HeadersIn P (outlineList ns) := by
  induction ns with
  | nil => simp [outlineList]
  | cons n ns ih => simp_all [outlineList]

theorem headersIn_outlineOption {n? : Option (Node α)} (h : ∀ n, n? = some n → HeadersIn P n.outline) :
    HeadersIn P (outlineOption n?) := by
  cases n? <;> simp_all [outlineOption]

theorem headersIn_outlineBody {n : Node α} (h : HeadersIn P n.outline) :
    HeadersIn P n.outlineBody := by
  obtain ⟨l, k⟩ := n
  cases k with
  | blockStatement body => simpa [outline, outlineBody, Outline.references] using h
  | _ => simpa [outlineBody] using h

theorem headersIn_outlineDeclarators {ns : List (Node α)} (isHoisted : Bool)
    (h : ∀ n ∈ ns, HeadersIn P n.outline) : HeadersIn P (outlineDeclarators isHoisted ns) := by
  induction ns with
  | nil => simp [outlineDeclarators]
  | cons n ns ih =>
    obtain ⟨hn, hns⟩ := List.forall_mem_cons.mp h
    obtain ⟨l, k⟩ := n
    cases k with
    | variableDeclarator name init? =>
      cases init? with
      | none => simp [outlineDeclarators, ih hns]
      | some init =>
        rw [outline, outlineOption] at hn
        simp [outlineDeclarators, hn, ih hns]
    | _ => simpa [outlineDeclarators] using ih hns

/-- **Names in the headers of an outline stand in the headers of functions**, so what holds of all labels
there holds of the labels of these names. -/
theorem headersIn_outline {root n : Node α} (hP : ∀ m ∈ root.headerNodes, P m.label)
    (hn : n.nodes ⊆ root.nodes) : HeadersIn P n.outline := by
  induction n using induction_children with
  | h n ih =>
    have hchild : ∀ c ∈ n.children, HeadersIn P c.outline :=
      fun c hc => ih c hc fun m hm => hn (nodes_subset_of_mem_children hc hm)
    have hheader : ∀ part ∈ n.kind.header, ∀ l ∈ part.labels, P l := by
      intro part hpart l hl
      obtain ⟨m, hm, rfl⟩ := List.mem_map.mp hl
      exact hP m (List.mem_flatMap.mpr
        ⟨n, hn (mem_nodes_self n), List.mem_flatMap.mpr ⟨part, hpart, hm⟩⟩)
    have hfunction : ∀ {params : List (Node α)} {returnType? : Option (Node α)},
        n.kind.header = params ++ returnType?.toList →
        ∀ r ∈ (outlineParams params ++ outlineType? returnType?).references, P r.label := by
      intro params returnType? hk r hr
      rw [hk] at hheader
      rw [Outline.references_append, List.mem_append] at hr
      rcases hr with hr | hr
      · exact outlineParams_references (fun m hm => hheader m (List.mem_append_left _ hm)) hr
      · exact outlineType?_references
          (fun m hm => hheader m (List.mem_append_right _ (Option.mem_toList.mpr hm))) hr
    clear ih hheader hP hn
    obtain ⟨l, k⟩ := n
    simp only [children, shape, kind_mk] at hchild
    cases k with
    | functionDeclaration name params returnType? body =>
      have hbody := headersIn_outlineBody (hchild body (by simp [Kind.map, Kind.children]))
      rw [outline, headersIn_append, headersIn_scope]
      exact ⟨headersIn_outlineName _ _ _, hfunction rfl, hbody, headersIn_done⟩
    | arrowFunction params returnType? body isExpression =>
      have hbody := headersIn_outlineBody (hchild body (by simp [Kind.map, Kind.children]))
      rw [outline, headersIn_scope]
      exact ⟨hfunction rfl, hbody, headersIn_done⟩
    | variableDeclaration keyword declarators =>
      simp only [Kind.map, Kind.children, List.map_id] at hchild
      rw [outline]
      exact headersIn_outlineDeclarators _ hchild
    | program body | arrayExpression body | blockStatement body =>
      simp only [Kind.map, Kind.children, List.map_id] at hchild
      simpa [outline, Outline.references] using headersIn_outlineList hchild
    | variableDeclarator name init? | returnStatement init? =>
      simp only [Kind.map, Kind.children, Option.map_id_fun, id_eq, List.mem_cons, Option.mem_toList,
        forall_eq_or_imp] at hchild
      rw [outline]
      exact headersIn_outlineOption (by simp_all)
    | ifStatement test consequent alternate? =>
      simp only [Kind.map, Kind.children, Option.map_id_fun, id_eq, List.mem_cons, Option.mem_toList,
        forall_eq_or_imp] at hchild
      obtain ⟨htest, hconsequent, halternate⟩ := hchild
      simp [outline, htest, hconsequent, headersIn_outlineOption halternate]
    | callExpression callee arguments =>
      simp only [Kind.map, Kind.children, List.map_id, id_eq, List.mem_cons, forall_eq_or_imp]
        at hchild
      obtain ⟨hcallee, harguments⟩ := hchild
      simp [outline, hcallee, headersIn_outlineList harguments]
    | _ => simp_all [outline, Kind.map, Kind.children, Outline.references]

end Node

end Ast

end ScriptAnalysis

import ScriptAnalysis.Proofs.Names.File

/-!
# Names have different numbers

Every name that is declared or referred to is an identifier of the file (`mem_nodes_of_mem_names`), and
it is declared once or referred to once, so the numbers that the outline of the file mentions are
different from each other (`nodup_ids_outline`). A reference that only gives a declared name its first
value has the number of the declared name and is not counted.
-/

namespace ScriptAnalysis

open Names (Referred Outline)
open Semantics (Declaration)
open Syntax (Node NodeId Place)

namespace Names.Outline

/-- The identifiers of the names in source order. -/
def names : Outline Declaration (Referred Place) → List (Node Place)
  | done => []
  | declare _ d rest => d.name.toNode :: rest.names
  | refer r rest => (if r.isInitial then [] else [.mk r.label (.identifier r.name)]) ++ rest.names
  | scope _ header body rest => header.names ++ (body.names ++ rest.names)

@[simp] theorem names_append (o o' : Outline Declaration (Referred Place)) :
    (o ++ o').names = o.names ++ o'.names := by
  induction o <;> simp_all [names]

/-- The numbers of the names in source order. -/
def ids (o : Outline Declaration (Referred Place)) : List NodeId := o.names.map Node.id

theorem ids_refer (r : Referred Place) (o : Outline Declaration (Referred Place)) :
    (refer r o).ids = (if r.isInitial then [] else [r.label.id]) ++ o.ids := by
  rw [ids, names, List.map_append]
  cases r.isInitial <;> rfl

theorem ids_scope (type : Scoping.ScopeType) (header body o : Outline Declaration (Referred Place)) :
    (scope type header body o).ids = header.ids ++ (body.ids ++ o.ids) := by
  rw [ids, names, List.map_append, List.map_append]
  rfl

/-- All declarations, those in scopes included, in source order. -/
def declarations : Outline Declaration (Referred Place) → List Declaration
  | done => []
  | declare _ d rest => d :: rest.declarations
  | refer _ rest => rest.declarations
  | scope _ header body rest => header.declarations ++ (body.declarations ++ rest.declarations)

@[simp] theorem declarations_append (o o' : Outline Declaration (Referred Place)) :
    (o ++ o').declarations = o.declarations ++ o'.declarations := by
  induction o <;> simp_all [declarations]

/-- The references that are names of their own, in source order. -/
def reads (o : Outline Declaration (Referred Place)) : List (Referred Place) :=
  o.references.filter (!·.isInitial)

section

variable (r : Referred Place) (o : Outline Declaration (Referred Place))

theorem reads_refer : (refer r o).reads = (if r.isInitial then [] else [r]) ++ o.reads := by
  rw [reads, references, List.filter_cons]
  cases r.isInitial <;> rfl

theorem reads_scope (type : Scoping.ScopeType) (header body : Outline Declaration (Referred Place)) :
    (scope type header body o).reads = header.reads ++ (body.reads ++ o.reads) := by
  simp [reads, references]

/-- References are among the names, in the same order. -/
theorem sublist_names_reads :
    (o.reads.map fun r => Node.mk r.label (.identifier r.name)).Sublist o.names := by
  induction o with
  | done => exact List.Sublist.refl _
  | declare isHoisted d rest ih => exact ih.cons _
  | refer r rest ih =>
    rw [reads_refer, List.map_append]
    refine List.Sublist.append ?_ ih
    cases r.isInitial <;> exact List.Sublist.refl _
  | scope type header body rest ihHeader ihBody ih =>
    rw [reads_scope, List.map_append, List.map_append]
    exact ihHeader.append (ihBody.append ih)

/-- All numbers are those of declared names and of references. -/
theorem perm_ids_reads :
    o.ids.Perm (o.declarations.map (·.name.id) ++ o.reads.map (·.label.id)) := by
  rw [List.perm_iff_count]
  intro id
  induction o with
  | done => rfl
  | declare isHoisted d rest ih =>
    have hreads : (declare isHoisted d rest).reads = rest.reads := rfl
    rw [declarations, hreads, List.map_cons, List.cons_append, List.count_cons, ← ih]
    exact List.count_cons
  | refer r rest ih =>
    have hreads : (if r.isInitial then [] else [r]).map (·.label.id) =
        (if r.isInitial then [] else [r.label.id]) := by
      cases r.isInitial <;> rfl
    rw [ids_refer, reads_refer, List.map_append, hreads]
    simp only [declarations, List.count_append] at ih ⊢
    omega
  | scope type header body rest ihHeader ihBody ih =>
    simp only [ids_scope, declarations, reads_scope, List.map_append, List.count_append] at *
    omega

end

section

variable {o : Outline Declaration (Referred Place)} {d : Declaration}

theorem mem_declarations_of_mem_declared (h : d ∈ o.declared) : d ∈ o.declarations := by
  induction o with
  | done => exact h
  | declare isHoisted d' rest ih =>
    cases isHoisted with
    | true => exact List.mem_cons_of_mem _ (ih h)
    | false => exact (List.mem_cons.mp h).elim (· ▸ List.mem_cons_self) (List.mem_cons_of_mem _ <| ih ·)
  | refer r rest ih => exact ih h
  | scope type header body rest _ _ ih =>
    exact List.mem_append_right _ (List.mem_append_right _ (ih h))

theorem mem_declarations_of_mem_hoisted (h : d ∈ o.hoisted) : d ∈ o.declarations := by
  induction o with
  | done => exact h
  | declare isHoisted d' rest ih =>
    cases isHoisted with
    | false => exact List.mem_cons_of_mem _ (ih h)
    | true => exact (List.mem_cons.mp h).elim (· ▸ List.mem_cons_self) (List.mem_cons_of_mem _ <| ih ·)
  | refer r rest ih => exact ih h
  | scope type header body rest ihHeader ihBody ih =>
    rw [hoisted] at h
    simp only [declarations, List.mem_append]
    rcases List.mem_append.mp h with h | h
    · split at h
      · exact absurd h List.not_mem_nil
      · rcases List.mem_append.mp h with h | h
        · exact .inl (ihHeader h)
        · exact .inr (.inl (ihBody h))
    · exact .inr (.inr (ih h))

variable (o) in
/-- What belongs to a scope is among the declarations. -/
theorem own_subset_declarations (type : Scoping.ScopeType) : o.own type ⊆ o.declarations := by
  intro d h
  rw [own] at h
  rcases List.mem_append.mp h with h | h
  · split at h
    · exact mem_declarations_of_mem_hoisted h
    · exact absurd h List.not_mem_nil
  · exact mem_declarations_of_mem_declared h

/-- Declared names are among the names. -/
theorem toNode_mem_names (h : d ∈ o.declarations) : d.name.toNode ∈ o.names := by
  induction o with
  | done => exact absurd h List.not_mem_nil
  | declare isHoisted d' rest ih =>
    rcases List.mem_cons.mp h with rfl | h
    · exact List.mem_cons_self
    · exact List.mem_cons_of_mem _ (ih h)
  | refer r rest ih => exact List.mem_append_right _ (ih h)
  | scope type header body rest ihHeader ihBody ih =>
    simp only [names, List.mem_append]
    simp only [declarations, List.mem_append] at h
    exact h.imp ihHeader (·.imp ihBody ih)

end

/-- An occurrence and what the scopes around it declare are among the names. -/
theorem mem_names_of_mem_occurrences {o : Outline Declaration (Referred Place)}
    {scopes : List (List Declaration)} {x : Referred Place × List (List Declaration)}
    (hx : x ∈ o.occurrences scopes) :
    (x.1.isInitial = false → .mk x.1.label (.identifier x.1.name) ∈ o.names) ∧
      ∀ ds ∈ x.2, ds ∈ scopes ∨ ∀ d ∈ ds, d.name.toNode ∈ o.names := by
  induction o generalizing scopes with
  | done => exact absurd hx List.not_mem_nil
  | declare isHoisted d rest ih =>
    obtain ⟨h1, h2⟩ := ih hx
    exact ⟨fun h => List.mem_cons_of_mem _ (h1 h),
      fun ds hds => (h2 ds hds).imp_right fun h d hd => List.mem_cons_of_mem _ (h d hd)⟩
  | refer r rest ih =>
    rcases List.mem_cons.mp hx with rfl | hx
    · refine ⟨fun h => ?_, fun ds hds => .inl hds⟩
      rw [names, if_neg fun htrue => Bool.noConfusion (h.symm.trans htrue)]
      exact List.mem_cons_self
    · obtain ⟨h1, h2⟩ := ih hx
      exact ⟨fun h => List.mem_append_right _ (h1 h),
        fun ds hds => (h2 ds hds).imp_right fun h d hd => List.mem_append_right _ (h d hd)⟩
  | scope type header body rest _ ihBody ih =>
    simp only [names, List.mem_append]
    rcases List.mem_append.mp hx with hx | hx
    · obtain ⟨h1, h2⟩ := ihBody hx
      refine ⟨fun h => .inr (.inl (h1 h)), fun ds hds => ?_⟩
      rcases h2 ds hds with h | h
      · rcases List.mem_cons.mp h with rfl | h
        · refine .inr fun d hd => (List.mem_append.mp hd).imp (fun hd => ?_) fun hd => .inl ?_
          · exact toNode_mem_names (own_subset_declarations header type hd)
          · exact toNode_mem_names (own_subset_declarations body type hd)
        · exact .inl h
      · exact .inr fun d hd => .inr (.inl (h d hd))
    · obtain ⟨h1, h2⟩ := ih hx
      exact ⟨fun h => .inr (.inr (h1 h)),
        fun ds hds => (h2 ds hds).imp_right fun h d hd => .inr (.inr (h d hd))⟩

end Names.Outline

namespace Syntax.Node

/-- The nodes below a node. -/
def nodesBelow (k : Kind (Ident Place) (Node Place)) : List (Node Place) :=
  (k.map (fun i => [i.toNode]) nodes).children.flatten

theorem nodes_mk (l : Place) (k : Kind (Ident Place) (Node Place)) :
    (mk l k).nodes = nodesBelow k ++ [mk l k] := by
  rw [nodes_eq, nodesBelow, children, ← Kind.children_map, shape, Kind.map_map]
  rfl

@[simp] theorem names_outlineInitial (name : Ident Place) (init? : Option (Node Place)) :
    (outlineInitial name init?).names = [] := by
  cases init? <;> rfl

/-- The outline of a body mentions no more than that of the same node elsewhere. -/
theorem names_outlineBody_of {n : Node Place} (h : n.outline.names.Sublist n.nodes) :
    n.outlineBody.names.Sublist n.nodes := by
  obtain ⟨l, k⟩ := n
  cases k with
  | block body =>
    rw [outline] at h
    rw [outlineBody]
    simpa [Outline.names] using h
  | _ => simpa [outlineBody] using h

mutual

/-- The outline of a node mentions names in the order of the nodes. -/
theorem names_outline : (n : Node Place) → n.outline.names.Sublist n.nodes
  | .mk l k => by
    rw [nodes_mk]
    by_cases hidentifier : ∃ text, k = .identifier text
    · obtain ⟨text, rfl⟩ := hidentifier
      rw [outline]
      exact List.Sublist.refl _
    refine List.Sublist.trans ?_ (List.sublist_append_left _ _)
    cases k <;> rw [outline] <;>
      simp only [Outline.names, Outline.names_append, nodesBelow, Kind.map, Kind.children,
        List.flatten_cons, List.flatten_append, List.flatten_nil, List.append_nil, List.nil_append,
        List.cons_append, Bool.false_eq_true, if_false]
    case identifier text => exact absurd ⟨text, rfl⟩ hidentifier
    case sourceFile body => exact names_outlineList body
    case variableStatement keyword ds => exact names_outlineVariables keyword ds
    case variableDeclaration name type? init? =>
      exact ((names_outlineOption type?).append (names_outlineOption init?)).cons _
    case parameter name type? init? =>
      exact ((names_outlineOption type?).append (names_outlineOption init?)).cons _
    case functionDeclaration name params returnType? body =>
      refine List.Sublist.cons_cons _ ?_
      rw [List.append_assoc]
      exact (names_outlineParams params).append
        ((names_outlineOption returnType?).append (names_outlineBody_of (names_outline body)))
    case typeAlias name type => exact (names_outline type).cons_cons _
    case block body => exact names_outlineList body
    case expressionStatement e => exact names_outline e
    case returnStatement e? => exact names_outlineOption e?
    case ifStatement cond thenBranch elseBranch? =>
      exact (names_outline cond).append ((names_outline thenBranch).append (names_outlineOption elseBranch?))
    case whileStatement cond body => exact (names_outline cond).append (names_outline body)
    case arrayLiteral elements => exact names_outlineList elements
    case parenthesized e => exact names_outline e
    case arrowFunction params returnType? body =>
      rw [List.append_assoc]
      exact (names_outlineParams params).append
        ((names_outlineOption returnType?).append (names_outlineBody_of (names_outline body)))
    case call callee args => exact (names_outline callee).append (names_outlineList args)
    case propertyAccess e name => exact (names_outline e).trans (List.sublist_append_left _ _)
    case prefixUnary op e => exact names_outline e
    case binary op left right => exact (names_outline left).append (names_outline right)
    case typeReference name => exact List.Sublist.refl _
    case arrayType element => exact names_outline element
    case unionType members => exact names_outlineList members
    all_goals exact List.Sublist.refl _

theorem names_outlineList : (ns : List (Node Place)) →
    (outlineList ns).names.Sublist (ns.map nodes).flatten
  | [] => by
    rw [outlineList]
    exact List.Sublist.refl _
  | n :: ns => by
    rw [outlineList, Outline.names_append, List.map_cons, List.flatten_cons]
    exact (names_outline n).append (names_outlineList ns)

theorem names_outlineOption : (n? : Option (Node Place)) →
    (outlineOption n?).names.Sublist (n?.map nodes).toList.flatten
  | none => by
    rw [outlineOption]
    exact List.Sublist.refl _
  | some n => by
    rw [outlineOption, Option.map_some, Option.toList_some, List.flatten_singleton]
    exact names_outline n

theorem names_outlineVariables (keyword : VariableKind) : (ns : List (Node Place)) →
    (outlineVariables keyword ns).names.Sublist (ns.map nodes).flatten
  | [] => by
    rw [outlineVariables]
    exact List.Sublist.refl _
  | .mk l k :: ns => by
    rw [List.map_cons, List.flatten_cons]
    have hns := names_outlineVariables keyword ns
    cases k with
    | variableDeclaration name type? init? =>
      rw [outlineVariables, nodes_mk]
      simp only [Outline.names, Outline.names_append, names_outlineInitial, nodesBelow, Kind.map,
        Kind.children, List.flatten_cons, List.flatten_append, List.append_assoc, List.nil_append,
        List.cons_append]
      refine List.Sublist.cons_cons _ ((names_outlineOption type?).append ?_)
      exact (names_outlineOption init?).append (hns.cons _)
    | _ => simpa [outlineVariables] using hns.trans (List.sublist_append_right _ _)

theorem names_outlineParams : (ns : List (Node Place)) →
    (outlineParams ns).names.Sublist (ns.map nodes).flatten
  | [] => by
    rw [outlineParams]
    exact List.Sublist.refl _
  | .mk l k :: ns => by
    rw [List.map_cons, List.flatten_cons]
    have hns := names_outlineParams ns
    cases k with
    | parameter name type? init? =>
      rw [outlineParams, nodes_mk]
      simp only [Outline.names, Outline.names_append, names_outlineInitial, nodesBelow, Kind.map,
        Kind.children, List.flatten_cons, List.flatten_append, List.append_assoc, List.nil_append,
        List.cons_append]
      refine List.Sublist.cons_cons _ ((names_outlineOption type?).append ?_)
      exact (names_outlineOption init?).append (hns.cons _)
    | _ => simpa [outlineParams] using hns.trans (List.sublist_append_right _ _)

end

/-- The names of an outline are identifiers of the tree. -/
theorem mem_nodes_of_mem_names {n m : Node Place} (h : m ∈ n.outline.names) : m ∈ n.nodes :=
  (names_outline n).subset h

/-- **Names have different numbers.** -/
theorem nodup_ids_outline (fileName text : String) :
    (Tree.parse fileName text).root.outline.ids.Nodup := by
  refine ((names_outline _).map id).nodup ?_
  have h := nodup_map_id_labels Place.mk (fun _ _ => rfl) (parseTokens (.ofChars text.toList)).1
  rwa [labels, List.map_map] at h

end Syntax.Node

end ScriptAnalysis

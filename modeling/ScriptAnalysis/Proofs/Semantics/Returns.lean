import ScriptAnalysis.Proofs.Syntax.Containment
import ScriptAnalysis.Proofs.Syntax.Functions
import ScriptAnalysis.Semantics.Check

/-!
# The returns of a function

A return is paired with a function twice. The type of a function is inferred from the returns in its body,
found by going down through the statements that are made of statements (`returnsOf`); what a return gives back
is checked against the function around it, found by going up (`View.enclosingFunction?`). Statements stand in
no expression, type, declaration or parameter unless they stand in a function there
(`returnNodes_of_isQuiet`), so going down reaches every return of the body that is in no inner
function, and these are the returns that have the function as the nearest one above them
(`pairsReturns_parse`).
-/

namespace ScriptAnalysis

namespace Syntax

variable {α : Type}

/-- Whether what has the role holds no statement outside of functions. -/
def Role.isQuiet : Role → Bool
  | .expression | .type | .declaration | .parameter => true
  | .file | .statement | .block | .body => false

/-- The parts of an expression, a type, a declaration or a parameter are such themselves. -/
theorem Kind.isQuiet_of_mem_parts {ν β : Type} {k : Kind ν β} {role : Role} {part : Role × β}
    (hrole : role.isQuiet = true) (hfits : k.fits role = true) (hno : k.isFunctionLike = false)
    (hpart : part ∈ k.parts) : part.1.isQuiet = true := by
  obtain ⟨role', n⟩ := part
  cases k <;> simp [parts, isFunctionLike] at hpart hno <;> cases role <;>
    simp_all [fits, isExpression, isType, Role.isQuiet] <;> grind

theorem Node.mem_children_of_mem_substatements {n m : Node α} (h : m ∈ n.kind.substatements) :
    m ∈ n.children := by
  obtain ⟨l, k⟩ := n
  exact mem_children_of_mem_parts (Kind.mem_parts_of_mem_substatements h)

end Syntax

namespace Semantics

open Syntax View

/-- The value of a return. -/
def operand? (n : Node Place) : Option (Node Place) :=
  match n.kind with
  | .returnStatement expr? => expr?
  | _ => none

/-- The returns of a node that stand in no function of it. -/
def returnNodes (n : Node Place) : List (Node Place) := n.exposed.filter isReturn

variable {n : Node Place} {role : Role}

theorem isReturn_iff : isReturn n = true ↔ ∃ expr?, n.kind = .returnStatement expr? := by
  unfold isReturn
  split <;> simp_all

theorem returnNodes_of_isFunctionLike (h : n.kind.isFunctionLike = true) : returnNodes n = [] := by
  have hno : isReturn n = false := by
    unfold isReturn
    split
    · rename_i hkind
      simp [hkind, Kind.isFunctionLike] at h
    · rfl
  simp [returnNodes, Node.exposed_eq, h, hno]

/-- What is no function has the returns of its children, and itself if it is one. -/
theorem returnNodes_eq (hno : n.kind.isFunctionLike = false) :
    returnNodes n = n.children.flatMap returnNodes ++ [n].filter isReturn := by
  rw [returnNodes, Node.exposed_eq, hno, List.filter_append, if_neg Bool.false_ne_true, List.filter_flatMap]
  rfl

/-! ### Down through the statements -/

/-- In expressions, types, declarations and parameters there are returns in functions only. -/
theorem returnNodes_of_isQuiet (hrole : role.isQuiet = true) (h : n.Formed role) : returnNodes n = [] := by
  induction n using Node.induction_children generalizing role with
  | h n ih =>
    by_cases hfunction : n.kind.isFunctionLike = true
    · exact returnNodes_of_isFunctionLike hfunction
    have hno : n.kind.isFunctionLike = false := Bool.eq_false_iff.mpr hfunction
    have hreturn : isReturn n = false := by
      refine Bool.eq_false_iff.mpr fun hreturn => ?_
      obtain ⟨expr?, hkind⟩ := isReturn_iff.mp hreturn
      have hfits := h.fits_kind
      rw [hkind] at hfits
      cases role <;> simp_all [Role.isQuiet, Kind.fits, Kind.isExpression, Kind.isType]
    rw [returnNodes_eq hno, List.filter_singleton, hreturn, cond_false, List.append_nil]
    refine List.flatMap_eq_nil_iff.mpr fun c hc => ?_
    obtain ⟨l, k⟩ := n
    rcases Node.name_or_part_of_mem_children hc with ⟨i, -, rfl⟩ | ⟨part, hpart, rfl⟩
    · exact ih _ hc rfl i.formed_toNode
    · exact ih _ hc (Kind.isQuiet_of_mem_parts hrole h.fits_kind hno hpart) (h.of_mem_parts hpart)

/-- A statement that is no return has the returns of the statements that it is made of. -/
theorem returnNodes_eq_flatMap_substatements (hrole : role = .statement ∨ role = .block) (h : n.Formed role)
    (hreturn : isReturn n = false) : returnNodes n = n.kind.substatements.flatMap returnNodes := by
  by_cases hfunction : n.kind.isFunctionLike = true
  · rw [returnNodes_of_isFunctionLike hfunction]
    cases hkind : n.kind <;> simp [hkind, Kind.isFunctionLike] at hfunction <;> rfl
  rw [returnNodes_eq (Bool.eq_false_iff.mpr hfunction), List.filter_singleton, hreturn, cond_false,
    List.append_nil]
  have hquiet : ∀ part ∈ n.kind.parts, part.1.isQuiet = true → returnNodes part.2 = [] :=
    fun part hpart hquiet => returnNodes_of_isQuiet hquiet (h.of_mem_parts hpart)
  have hname : ∀ i : Ident Place, returnNodes i.toNode = [] :=
    fun i => returnNodes_of_isQuiet rfl i.formed_toNode
  have hfits := h.fits_kind
  obtain ⟨l, k⟩ := n
  change ∀ part ∈ k.parts, _ at hquiet
  change (k.map Ident.toNode id).children.flatMap returnNodes = k.substatements.flatMap returnNodes
  rcases hrole with rfl | rfl <;> cases k <;>
    simp_all [Kind.map, Kind.children, Kind.substatements, Kind.parts, Kind.fits, Kind.isStatement, Kind.isBlock,
      Kind.isFunctionLike, Role.isQuiet, or_imp, forall_and]

/-- A return is the only one in itself. -/
theorem returnNodes_of_isReturn (h : n.Formed role) (hreturn : isReturn n = true) : returnNodes n = [n] := by
  obtain ⟨expr?, hkind⟩ := isReturn_iff.mp hreturn
  have hbelow : ∀ e ∈ n.children, returnNodes e = [] := by
    obtain ⟨l, k⟩ := n
    obtain rfl : k = .returnStatement expr? := hkind
    intro e he
    rcases Node.name_or_part_of_mem_children he with ⟨i, hi, -⟩ | ⟨part, hpart, rfl⟩
    · exact absurd hi (List.not_mem_nil)
    · have hquiet : part.1.isQuiet = true := by
        obtain ⟨e, -, rfl⟩ := List.mem_map.mp hpart
        rfl
      exact returnNodes_of_isQuiet hquiet (h.of_mem_parts hpart)
  rw [returnNodes_eq (by rw [hkind]; rfl), List.flatMap_eq_nil_iff.mpr hbelow, List.filter_singleton, hreturn]
  rfl

theorem returnsOfList_eq (ns : List (Node Place)) : returnsOfList ns = ns.flatMap returnsOf := by
  induction ns with
  | nil => rw [returnsOfList, List.flatMap_nil]
  | cons n ns ih => rw [returnsOfList, ih, List.flatMap_cons]

theorem returnsOfOption_eq (n? : Option (Node Place)) : returnsOfOption n? = n?.toList.flatMap returnsOf := by
  cases n? <;> simp [returnsOfOption]

/-- What is no return is looked through for the values that its statements return. -/
theorem returnsOf_eq_flatMap_substatements (hfile : n.kind.fits .file = false) (hreturn : isReturn n = false) :
    returnsOf n = n.kind.substatements.flatMap returnsOf := by
  obtain ⟨l, k⟩ := n
  change k.fits .file = false at hfile
  cases k <;> simp_all [returnsOf, Kind.substatements, returnsOfList_eq, returnsOfOption_eq, Kind.fits, isReturn]

/-- **Going down through the statements lists the values of the returns that are in no inner function.** -/
theorem returnsOf_eq_map (hrole : role = .statement ∨ role = .block) (h : n.Formed role) :
    returnsOf n = (returnNodes n).map operand? := by
  induction n using Node.induction_children generalizing role with
  | h n ih =>
    by_cases hreturn : isReturn n = true
    · obtain ⟨expr?, hkind⟩ := isReturn_iff.mp hreturn
      rw [returnNodes_of_isReturn h hreturn]
      obtain ⟨l, k⟩ := n
      obtain rfl : k = .returnStatement expr? := hkind
      rfl
    · have hreturn : isReturn n = false := Bool.eq_false_iff.mpr hreturn
      have hfile : n.kind.fits .file = false :=
        Kind.not_fits_file h.fits_kind (by rcases hrole with rfl | rfl <;> decide)
      rw [returnsOf_eq_flatMap_substatements hfile hreturn,
        returnNodes_eq_flatMap_substatements hrole h hreturn, List.map_flatMap]
      refine List.flatMap_congr fun m hm => ?_
      exact ih m (Node.mem_children_of_mem_substatements hm) (.inl rfl)
        (h.of_mem_parts (Kind.mem_parts_of_mem_substatements hm))

theorem mem_nodes_of_mem_returnNodes {m : Node Place} (h : m ∈ returnNodes n) : m ∈ n.nodes :=
  n.exposed_sublist.subset (List.mem_of_mem_filter h)

/-- The returns of a statement are in the order of the text. -/
theorem pairwise_returnNodes {fileName text : String} (hn : n ∈ (Tree.parse fileName text).root.nodes)
    (hrole : role = .statement ∨ role = .block) (h : n.Formed role) :
    (returnNodes n).Pairwise fun a b => a.span.stop ≤ b.span.start := by
  induction n using Node.induction_children generalizing role with
  | h n ih =>
    by_cases hreturn : isReturn n = true
    · rw [returnNodes_of_isReturn h hreturn]
      exact List.pairwise_singleton _ _
    have hmem : ∀ m ∈ n.kind.substatements, m ∈ (Tree.parse fileName text).root.nodes := fun m hm =>
      Node.nodes_subset_of_mem_nodes hn
        (Node.nodes_subset_of_mem_children (Node.mem_children_of_mem_substatements hm) m.mem_nodes_self)
    rw [returnNodes_eq_flatMap_substatements hrole h (Bool.eq_false_iff.mpr hreturn), List.pairwise_flatMap]
    refine ⟨fun m hm => ih m (Node.mem_children_of_mem_substatements hm) (hmem m hm) (.inl rfl)
      (h.of_mem_parts (Kind.mem_parts_of_mem_substatements hm)), ?_⟩
    refine (Tree.pairwise_substatements hn).imp_of_mem fun {a b} ha hb happart r hr r' hr' => ?_
    -- a return covers characters, so the statement that it is in does too
    obtain ⟨expr?, hkind⟩ := isReturn_iff.mp (List.mem_filter.mp hr).2
    have hra := mem_nodes_of_mem_returnNodes hr
    have hlt := Tree.lt_of_returnStatement (Node.nodes_subset_of_mem_nodes (hmem a ha) hra) hkind
    have hholds := Tree.holds_of_mem_nodes (hmem a ha) hra
    have hholds' := Tree.holds_of_mem_nodes (hmem b hb) (mem_nodes_of_mem_returnNodes hr')
    have hstart := hholds.start_le
    have hstop := hholds.stop_le hlt
    calc r.span.stop ≤ a.span.stop := hstop
      _ ≤ b.span.start := happart (by omega)
      _ ≤ r'.span.start := hholds'.start_le

/-! ### Up from a return -/

/-- The returns in the body of a function are those that stand in the function and in no function inside it. -/
theorem filter_isReturn_own {f body : Node Place} (h : f.Formed role) (hbody : f.kind.body? = some body) :
    f.own.filter isReturn = returnNodes body := by
  have hquiet : ∀ role : Role, role.isQuiet = true → ∀ ns : List (Node Place),
      (∀ n ∈ ns, (role, n) ∈ f.kind.parts) → ns.flatMap returnNodes = [] := fun role hrole ns hns =>
    List.flatMap_eq_nil_iff.mpr fun n hn => returnNodes_of_isQuiet hrole (h.of_mem_parts (hns n hn))
  have hname : ∀ i : Ident Place, returnNodes i.toNode = [] :=
    fun i => returnNodes_of_isQuiet rfl i.formed_toNode
  obtain ⟨l, k⟩ := f
  rw [Node.own, List.filter_flatMap]
  change (k.map Ident.toNode id).children.flatMap returnNodes = returnNodes body
  change k.body? = some body at hbody
  cases k <;> simp [Kind.body?] at hbody <;> subst hbody
  case functionDeclaration name params returnType? body =>
    have hparams := hquiet .parameter rfl params fun p hp => by simp [Kind.parts, hp]
    have htype := hquiet .type rfl returnType?.toList fun t ht => by simpa [Kind.parts] using ht
    simp [Kind.map, Kind.children, hname, hparams, htype]
  case arrowFunction params returnType? body =>
    have hparams := hquiet .parameter rfl params fun p hp => by simp [Kind.parts, hp]
    have htype := hquiet .type rfl returnType?.toList fun t ht => by simpa [Kind.parts] using ht
    simp [Kind.map, Kind.children, hparams, htype]

/-- A return is checked against the nearest function above it. -/
theorem View.enclosingFunction?_iff {v : View} (ht : v.tree.Numbered) {r f : Node Place}
    (hr : r ∈ v.tree.root.nodes) (hreturn : isReturn r = true) :
    v.enclosingFunction? r.id = some f ↔ v.tree.NearestFunction r.id f := by
  obtain ⟨expr?, hkind⟩ := isReturn_iff.mp hreturn
  exact ht.find?_ancestors_iff (ht.node?_iff.mpr ⟨hr, rfl⟩) (by rw [hkind]; rfl)

/-- Returns and functions are paired in one way. -/
structure View.PairsReturns (v : View) : Prop where
  /-- The values that inference takes from the body of a function are those of the returns that have the
  function as the nearest one above them, each once and in the order of the text. -/
  listed : ∀ f ∈ v.tree.root.nodes, ∀ body, f.kind.body? = some body → body.kind.isBlock = true →
    ∃ rs : List (Node Place), returnsOf body = rs.map operand? ∧ rs.Nodup ∧
      rs.Pairwise (fun a b => a.span.stop ≤ b.span.start) ∧
      ∀ r, r ∈ rs ↔ r ∈ v.tree.root.nodes ∧ isReturn r = true ∧ v.tree.NearestFunction r.id f
  /-- A return is checked against the nearest function above it. -/
  checked : ∀ r ∈ v.tree.root.nodes, isReturn r = true → ∀ f,
    v.enclosingFunction? r.id = some f ↔ v.tree.NearestFunction r.id f

/-- **Inference and checking pair returns with functions in the same way**, whatever the text says. -/
theorem pairsReturns_parse (p : Program) (fileName text : String) :
    (View.ofProgram p (Tree.parse fileName text)).PairsReturns := by
  have ht := Tree.numbered_parse fileName text
  refine ⟨fun f hf body hbody hblock => ?_, fun r hr hreturn f => ?_⟩
  · obtain ⟨role, hformed⟩ := (Tree.formed_root_parse fileName text).exists_role hf
    have hbodyFormed := hformed.of_body? hbody hblock
    have hmem := Node.nodes_subset_of_mem_nodes hf
      (Node.nodes_subset_of_mem_children (Node.mem_children_of_body? hbody) body.mem_nodes_self)
    have hown := filter_isReturn_own hformed hbody
    have hfunction := Kind.isFunctionLike_of_body? hbody
    refine ⟨returnNodes body, returnsOf_eq_map (.inr rfl) hbodyFormed, ?_,
      pairwise_returnNodes hmem (.inr rfl) hbodyFormed, fun r => ?_⟩
    · refine List.Nodup.sublist (List.filter_sublist.trans body.exposed_sublist) ?_
      exact ht.nodup_nodes.sublist (Node.sublist_nodes_of_mem hmem)
    · rw [← hown, List.mem_filter]
      constructor
      · rintro ⟨hr, hreturn⟩
        have hr' := Node.mem_nodes_iff.mpr (.inl (f.own_sublist.subset hr))
        exact ⟨Node.nodes_subset_of_mem_nodes hf hr', hreturn,
          (ht.nearestFunction_iff hf hfunction (Node.nodes_subset_of_mem_nodes hf hr')).mpr hr⟩
      · rintro ⟨hr, hreturn, hnearest⟩
        exact ⟨(ht.nearestFunction_iff hf hfunction hr).mp hnearest, hreturn⟩
  · exact View.enclosingFunction?_iff ht hr hreturn

end Semantics

end ScriptAnalysis

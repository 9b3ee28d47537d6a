import ScriptAnalysis.Proofs.Names.Distinct

/-!
# What a file mentions

The identifiers of a file are the names of its outline and the names of members, and what its outline
declares is what its nodes declare; none is lost and none is counted twice (`perm_mentions`).
-/

namespace ScriptAnalysis

open Names (Referred Outline)
open Semantics (Declaration)
open Syntax (Ident Kind Node NodeId Place Role VariableKind)

/-- What a node says about names, by numbers. -/
inductive Mention where
  /-- It is an identifier. -/
  | identifier (id : NodeId)
  /-- It declares a name. -/
  | declaration (name node : NodeId)
  /-- It refers to a type by a name. -/
  | typeName (name : NodeId)
  deriving DecidableEq

/-- The number of an identifier. -/
def Mention.identifier? : Mention → Option NodeId
  | identifier id => some id
  | _ => none

namespace Syntax

/-- The name that a node declares. -/
def Kind.declaredName? {ν β : Type} : Kind ν β → Option ν
  | variableDeclaration name _ _ | functionDeclaration name _ _ _ | parameter name _ _
  | typeAlias name _ => some name
  | _ => none

/-- The name of the member that a node takes from a value. -/
def Kind.memberName? {ν β : Type} : Kind ν β → Option ν
  | propertyAccess _ name => some name
  | _ => none

namespace Node

/-- What a node says about names. -/
def mentions (n : Node Place) : List Mention :=
  match n.kind with
  | .identifier _ => [.identifier n.id]
  | .typeReference name => [.typeName name.id]
  | k => k.declaredName?.toList.map fun name => .declaration name.id n.id

/-- The member name of a node as an identifier. -/
def memberMentions (n : Node Place) : List Mention :=
  n.kind.memberName?.toList.map fun name => .identifier name.id

section

variable {ns : List (Node Place)}

theorem identifier_mem_mentions_iff {id : NodeId} :
    .identifier id ∈ ns.flatMap mentions ↔ ∃ n ∈ ns, (∃ text, n.kind = .identifier text) ∧ n.id = id := by
  rw [List.mem_flatMap]
  refine exists_congr fun n => and_congr_right fun _ => ?_
  obtain ⟨l, k⟩ := n
  cases k <;> simp [mentions, Kind.declaredName?, eq_comm]

theorem declaration_mem_mentions_iff {name node : NodeId} : .declaration name node ∈ ns.flatMap mentions ↔
    ∃ n ∈ ns, (∃ i, n.kind.declaredName? = some i ∧ i.id = name) ∧ n.id = node := by
  rw [List.mem_flatMap]
  refine exists_congr fun n => and_congr_right fun _ => ?_
  obtain ⟨l, k⟩ := n
  cases k <;> simp [mentions, Kind.declaredName?, eq_comm]

theorem typeName_mem_mentions_iff {id : NodeId} :
    .typeName id ∈ ns.flatMap mentions ↔ ∃ n ∈ ns, ∃ name, n.kind = .typeReference name ∧ name.id = id := by
  rw [List.mem_flatMap]
  refine exists_congr fun n => and_congr_right fun _ => ?_
  obtain ⟨l, k⟩ := n
  cases k <;> simp [mentions, Kind.declaredName?, eq_comm]

theorem mem_memberMentions_iff {t : Mention} : t ∈ ns.flatMap memberMentions ↔
    ∃ n ∈ ns, ∃ i, n.kind.memberName? = some i ∧ t = .identifier i.id := by
  rw [List.mem_flatMap]
  refine exists_congr fun n => and_congr_right fun _ => ?_
  obtain ⟨l, k⟩ := n
  cases k <;> simp [memberMentions, Kind.memberName?]

/-- Identifiers are mentioned in the order of the nodes. -/
theorem sublist_identifiers : ((ns.flatMap mentions).filterMap Mention.identifier?).Sublist (ns.map id) := by
  induction ns with
  | nil => exact List.Sublist.refl _
  | cons n ns ih =>
    rw [List.flatMap_cons, List.filterMap_append, List.map_cons, ← List.singleton_append]
    refine List.Sublist.append ?_ ih
    obtain ⟨l, k⟩ := n
    cases k <;> simp [mentions, Kind.declaredName?, Mention.identifier?]

end

end Node

end Syntax

namespace Names.Outline

/-- What an outline says about names, in source order. -/
def mentions : Outline Declaration (Referred Place) → List Mention
  | done => []
  | declare _ d rest => .identifier d.name.id :: .declaration d.name.id d.node :: rest.mentions
  | refer r rest =>
    (if r.isInitial then [] else .identifier r.label.id :: if r.isType then [.typeName r.label.id] else []) ++
      rest.mentions
  | scope _ header body rest => header.mentions ++ (body.mentions ++ rest.mentions)

@[simp] theorem mentions_append (o o' : Outline Declaration (Referred Place)) :
    (o ++ o').mentions = o.mentions ++ o'.mentions := by
  induction o <;> simp_all [mentions]

theorem count_mentions_declare (t : Mention) (isHoisted : Bool) (d : Declaration)
    (o : Outline Declaration (Referred Place)) : (declare isHoisted d o).mentions.count t =
      [.identifier d.name.id, .declaration d.name.id d.node].count t + o.mentions.count t := by
  rw [← List.count_append]
  rfl

theorem identifier_mem_mentions_iff {o : Outline Declaration (Referred Place)} {id : NodeId} :
    .identifier id ∈ o.mentions ↔ id ∈ o.ids := by
  induction o with
  | done => simp [mentions, ids, names]
  | declare isHoisted d rest ih =>
    rw [mentions, List.mem_cons, List.mem_cons, ih, ids, ids, names, List.map_cons, List.mem_cons]
    simp [Node.id, Ident.id, Ident.toNode]
  | refer r rest ih =>
    rw [mentions, List.mem_append, ih, ids_refer, List.mem_append]
    cases r.isInitial <;> simp
  | scope type header body rest ihHeader ihBody ih =>
    simp only [mentions, List.mem_append, ihHeader, ihBody, ih, ids_scope]

theorem declaration_mem_mentions_iff {o : Outline Declaration (Referred Place)} {name node : NodeId} :
    .declaration name node ∈ o.mentions ↔ ∃ d ∈ o.declarations, d.name.id = name ∧ d.node = node := by
  induction o with
  | done => simp [mentions, declarations]
  | declare isHoisted d rest ih => simp [mentions, declarations, ih, eq_comm]
  | refer r rest ih =>
    rw [mentions, List.mem_append, ih, declarations, or_iff_right]
    cases r.isInitial <;> simp
  | scope type header body rest ihHeader ihBody ih =>
    simp [mentions, declarations, ihHeader, ihBody, ih, or_and_right, exists_or]

theorem typeName_mem_mentions_iff {o : Outline Declaration (Referred Place)} {id : NodeId} :
    .typeName id ∈ o.mentions ↔ ∃ r ∈ o.reads, r.isType = true ∧ r.label.id = id := by
  induction o with
  | done => simp [mentions, reads, references]
  | declare isHoisted d rest ih =>
    have hreads : (declare isHoisted d rest).reads = rest.reads := rfl
    simp [mentions, ih, hreads]
  | refer r rest ih =>
    rw [mentions, List.mem_append, ih, reads_refer]
    cases r.isInitial <;> cases htype : r.isType <;> simp [htype, @eq_comm _ id]
  | scope type header body rest ihHeader ihBody ih =>
    simp [mentions, reads_scope, ihHeader, ihBody, ih, or_and_right, exists_or]

end Names.Outline

namespace Syntax.Node

@[simp] theorem mentions_outlineInitial (name : Ident Place) (init? : Option (Node Place)) :
    (outlineInitial name init?).mentions = [] := by
  cases init? <;> rfl

/-- The body of a function mentions what the same node mentions elsewhere. -/
theorem mentions_outlineBody (n : Node Place) : n.outlineBody.mentions = n.outline.mentions := by
  obtain ⟨l, k⟩ := n
  cases k with
  | block body =>
    rw [outline, outlineBody]
    simp [Outline.mentions]
  | _ => simp [outlineBody]

section

variable (t : Mention)

/-- A variable or a parameter mentions its name, its type and its first value, and so it does with members. -/
theorem count_mentions_declarator (l : Place) {k : Kind (Ident Place) (Node Place)} {name : Ident Place}
    {type? init? : Option (Node Place)}
    (hk : k = .variableDeclaration name type? init? ∨ k = .parameter name type? init?) :
    ((mk l k).nodes.flatMap mentions).count t =
        [.identifier name.id, .declaration name.id l.id].count t +
          ((type?.map nodes).toList.flatten.flatMap mentions).count t +
          ((init?.map nodes).toList.flatten.flatMap mentions).count t ∧
      ((mk l k).nodes.flatMap memberMentions).count t =
        ((type?.map nodes).toList.flatten.flatMap memberMentions).count t +
          ((init?.map nodes).toList.flatten.flatMap memberMentions).count t := by
  rcases hk with rfl | rfl <;> rw [nodes_mk] <;>
    simp only [nodesBelow, Kind.map, Kind.children, List.flatten_cons, List.flatten_append, List.nil_append,
      List.cons_append, List.flatMap_append, List.flatMap_cons, List.flatMap_nil, List.count_append,
      List.count_nil, List.count_cons, mentions, memberMentions, kind_mk, Kind.declaredName?,
      Kind.memberName?, Option.toList_some, Option.toList_none, List.map_cons, List.map_nil, Ident.toNode,
      Node.id, Ident.id, label_mk] <;>
    omega

mutual

/-- A node and what is in it mention what the outline and the names of members mention. -/
theorem count_mentions : (n : Node Place) → {role : Role} → n.Formed role → role ≠ .declaration →
    role ≠ .parameter → (n.nodes.flatMap mentions).count t =
      n.outline.mentions.count t + (n.nodes.flatMap memberMentions).count t
  | .mk l k, role, h, hrole, hrole' => by
    have hfits := h.fits_kind
    have hparts := h.parts
    cases k <;> rw [outline, nodes_mk] <;>
      simp only [Outline.mentions, Outline.mentions_append, nodesBelow, Kind.map, Kind.children,
        List.flatten_cons, List.flatten_append, List.flatten_nil, List.append_nil, List.nil_append,
        List.cons_append, Bool.false_eq_true, if_false, if_true, List.flatMap_append, List.flatMap_cons,
        List.flatMap_nil, List.count_append, List.count_nil, List.count_cons, mentions_outlineBody,
        mentions, memberMentions, kind_mk, Kind.declaredName?, Kind.memberName?, Option.toList_some,
        Option.toList_none, List.map_cons, List.map_nil, Ident.toNode, Node.id, Ident.id, label_mk]
    case variableDeclaration | parameter =>
      -- these stand in no other role
      cases role <;>
        first | exact absurd rfl hrole | exact absurd rfl hrole' | exact absurd hfits Bool.false_ne_true
    case identifier | typeReference => omega
    case sourceFile body =>
      have := count_mentionsList body (formed_map_iff.mp hparts) nofun nofun
      omega
    case variableStatement keyword ds =>
      have := count_mentionsVariables keyword ds (formed_map_iff.mp hparts)
      omega
    case functionDeclaration name params returnType? body =>
      obtain ⟨hparams, hrest⟩ := List.forall_mem_append.mp hparts
      obtain ⟨htype, hbody⟩ := List.forall_mem_append.mp hrest
      have := count_mentionsParams params (formed_map_iff.mp hparams)
      have := count_mentionsOption returnType? (formed_toList_iff.mp htype) nofun nofun
      have := count_mentions body (hbody _ List.mem_cons_self) nofun nofun
      omega
    case typeAlias name type =>
      have := count_mentions type (hparts _ List.mem_cons_self) nofun nofun
      omega
    case block body =>
      have := count_mentionsList body (formed_map_iff.mp hparts) nofun nofun
      omega
    case expressionStatement e =>
      have := count_mentions e (hparts _ List.mem_cons_self) nofun nofun
      omega
    case returnStatement e? =>
      have := count_mentionsOption e? (formed_toList_iff.mp hparts) nofun nofun
      omega
    case ifStatement cond thenBranch elseBranch? =>
      obtain ⟨hcond, hbranches⟩ := List.forall_mem_cons.mp hparts
      obtain ⟨hthen, helse⟩ := List.forall_mem_cons.mp hbranches
      have := count_mentions cond hcond nofun nofun
      have := count_mentions thenBranch hthen nofun nofun
      have := count_mentionsOption elseBranch? (formed_toList_iff.mp helse) nofun nofun
      omega
    case whileStatement cond body =>
      obtain ⟨hcond, hbody⟩ := List.forall_mem_cons.mp hparts
      have := count_mentions cond hcond nofun nofun
      have := count_mentions body (hbody _ List.mem_cons_self) nofun nofun
      omega
    case arrayLiteral elements =>
      have := count_mentionsList elements (formed_map_iff.mp hparts) nofun nofun
      omega
    case parenthesized e =>
      have := count_mentions e (hparts _ List.mem_cons_self) nofun nofun
      omega
    case arrowFunction params returnType? body =>
      obtain ⟨hparams, hrest⟩ := List.forall_mem_append.mp hparts
      obtain ⟨htype, hbody⟩ := List.forall_mem_append.mp hrest
      have := count_mentionsParams params (formed_map_iff.mp hparams)
      have := count_mentionsOption returnType? (formed_toList_iff.mp htype) nofun nofun
      have := count_mentions body (hbody _ List.mem_cons_self) nofun nofun
      omega
    case call callee args =>
      obtain ⟨hcallee, hargs⟩ := List.forall_mem_cons.mp hparts
      have := count_mentions callee hcallee nofun nofun
      have := count_mentionsList args (formed_map_iff.mp hargs) nofun nofun
      omega
    case propertyAccess e name =>
      have := count_mentions e (hparts _ List.mem_cons_self) nofun nofun
      omega
    case prefixUnary op e =>
      have := count_mentions e (hparts _ List.mem_cons_self) nofun nofun
      omega
    case binary op left right =>
      obtain ⟨hleft, hright⟩ := List.forall_mem_cons.mp hparts
      have := count_mentions left hleft nofun nofun
      have := count_mentions right (hright _ List.mem_cons_self) nofun nofun
      omega
    case arrayType element =>
      have := count_mentions element (hparts _ List.mem_cons_self) nofun nofun
      omega
    case unionType members =>
      have := count_mentionsList members (formed_map_iff.mp hparts) nofun nofun
      omega

theorem count_mentionsList : (ns : List (Node Place)) → {role : Role} → (∀ n ∈ ns, n.Formed role) →
    role ≠ .declaration → role ≠ .parameter → ((ns.map nodes).flatten.flatMap mentions).count t =
      (outlineList ns).mentions.count t + ((ns.map nodes).flatten.flatMap memberMentions).count t
  | [], _, _, _, _ => by
    rw [outlineList]
    rfl
  | n :: ns, _, h, hrole, hrole' => by
    have := count_mentions n (h n List.mem_cons_self) hrole hrole'
    have := count_mentionsList ns (fun m hm => h m (List.mem_cons_of_mem _ hm)) hrole hrole'
    simp only [outlineList, Outline.mentions_append, List.map_cons, List.flatten_cons, List.flatMap_append,
      List.count_append]
    omega

theorem count_mentionsOption : (n? : Option (Node Place)) → {role : Role} → (∀ n ∈ n?, n.Formed role) →
    role ≠ .declaration → role ≠ .parameter →
    ((n?.map nodes).toList.flatten.flatMap mentions).count t =
      (outlineOption n?).mentions.count t + ((n?.map nodes).toList.flatten.flatMap memberMentions).count t
  | none, _, _, _, _ => by
    rw [outlineOption]
    rfl
  | some n, _, h, hrole, hrole' => by
    rw [outlineOption, Option.map_some, Option.toList_some, List.flatten_singleton]
    exact count_mentions n (h n rfl) hrole hrole'

theorem count_mentionsVariables (keyword : VariableKind) : (ns : List (Node Place)) →
    (∀ n ∈ ns, n.Formed .declaration) → ((ns.map nodes).flatten.flatMap mentions).count t =
      (outlineVariables keyword ns).mentions.count t +
        ((ns.map nodes).flatten.flatMap memberMentions).count t
  | [], _ => by
    rw [outlineVariables]
    rfl
  | .mk l k :: ns, h => by
    have hfits := (h _ List.mem_cons_self).fits_kind
    have hparts := (h _ List.mem_cons_self).parts
    have := count_mentionsVariables keyword ns fun m hm => h m (List.mem_cons_of_mem _ hm)
    cases k <;> simp only [kind_mk, Kind.fits, Bool.false_eq_true] at hfits
    case variableDeclaration name type? init? =>
      obtain ⟨htype, hinit⟩ := List.forall_mem_append.mp hparts
      have := count_mentionsOption type? (formed_toList_iff.mp htype) nofun nofun
      have := count_mentionsOption init? (formed_toList_iff.mp hinit) nofun nofun
      have := count_mentions_declarator (k := .variableDeclaration name type? init?) t l (.inl rfl)
      rw [outlineVariables, List.map_cons, List.flatten_cons, Outline.count_mentions_declare]
      simp only [Outline.mentions_append, mentions_outlineInitial, List.nil_append, List.flatMap_append,
        List.count_append]
      omega

theorem count_mentionsParams : (ns : List (Node Place)) → (∀ n ∈ ns, n.Formed .parameter) →
    ((ns.map nodes).flatten.flatMap mentions).count t =
      (outlineParams ns).mentions.count t + ((ns.map nodes).flatten.flatMap memberMentions).count t
  | [], _ => by
    rw [outlineParams]
    rfl
  | .mk l k :: ns, h => by
    have hfits := (h _ List.mem_cons_self).fits_kind
    have hparts := (h _ List.mem_cons_self).parts
    have := count_mentionsParams ns fun m hm => h m (List.mem_cons_of_mem _ hm)
    cases k <;> simp only [kind_mk, Kind.fits, Bool.false_eq_true] at hfits
    case parameter name type? init? =>
      obtain ⟨htype, hinit⟩ := List.forall_mem_append.mp hparts
      have := count_mentionsOption type? (formed_toList_iff.mp htype) nofun nofun
      have := count_mentionsOption init? (formed_toList_iff.mp hinit) nofun nofun
      have := count_mentions_declarator (k := .parameter name type? init?) t l (.inr rfl)
      rw [outlineParams, List.map_cons, List.flatten_cons, Outline.count_mentions_declare]
      simp only [Outline.mentions_append, mentions_outlineInitial, List.nil_append, List.flatMap_append,
        List.count_append]
      omega

end

end

/-- **What the nodes of a file mention** is what its outline mentions and the names of members. -/
theorem perm_mentions {n : Node Place} (h : n.Formed .file) :
    (n.nodes.flatMap mentions).Perm (n.outline.mentions ++ n.nodes.flatMap memberMentions) := by
  rw [List.perm_iff_count]
  intro t
  rw [List.count_append]
  exact count_mentions t n h nofun nofun

end Syntax.Node

end ScriptAnalysis

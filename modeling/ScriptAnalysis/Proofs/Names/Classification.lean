import ScriptAnalysis.Proofs.Names.Mentions
import ScriptAnalysis.Proofs.Names.Outcomes
import ScriptAnalysis.Proofs.Syntax.Identifiers

/-!
# Binding classifies identifiers

Whatever a text says, the binding of its file gives every identifier that has a text one use: it declares a
name, it is a reference with one outcome, or it names a member (`classifies_ofTree`). Binding enters every
declared name and settles every reference, each once (`enters_walks`, `settles_walks`); what is left are the
names of members (`perm_mentions`).
-/

namespace ScriptAnalysis

open Names (Referred Outline)
open Semantics (Binding Declaration)
open Semantics.Binding
open Syntax (Ident Kind Node NodeId Place Tree)

namespace Semantics

/-! ### Uses of identifiers -/

/-- What an identifier can be in its file. -/
inductive IdentifierUse where
  /-- It declares a name. -/
  | declaration
  /-- It is a reference to a symbol of the file. -/
  | resolved
  /-- It is a reference to a value that is nothing in the file. -/
  | unresolved
  /-- It is a reference to a type that is nothing in the file. -/
  | unresolvedType
  /-- It names a member. -/
  | member
  deriving DecidableEq

namespace Binding

/-- An identifier of a file has a use in the binding of the file. -/
def HasUse (b : Binding) (t : Tree) (id : NodeId) : IdentifierUse → Prop
  | .declaration => id ∈ b.declared.map (·.1)
  | .resolved => id ∈ b.resolved.map (·.1)
  | .unresolved => id ∈ b.unresolved
  | .unresolvedType => id ∈ b.unresolvedTypes
  | .member => ∃ parent n object name, t.node? parent = some n ∧ n.kind = .propertyAccess object name ∧
      name.id = id

/-- The numbers are those of identifiers of the file, and each of these starts behind the one before it. -/
def InSourceOrder (t : Tree) (ids : List NodeId) : Prop :=
  ∃ ns : List (Node Place), ids = ns.map Node.id ∧
    (∀ n ∈ ns, t.node? n.id = some n ∧ n.kind.isNamed = true) ∧
    ns.Pairwise fun a b => a.span.start < b.span.start

/-- The binding of a file has looked at every identifier and at every declaration once. -/
structure Classifies (b : Binding) (t : Tree) : Prop where
  /-- Every identifier with a text has exactly one use. -/
  use : ∀ id n text, t.node? id = some n → n.kind = .identifier text → text ≠ "" →
    ∃! use, b.HasUse t id use
  /-- No name is entered twice, and no reference is resolved twice. -/
  once : (b.declared.map (·.1)).Nodup ∧ (b.resolved.map (·.1)).Nodup
  /-- References to values that are nothing in the file are listed once and in source order. -/
  unresolved : b.unresolved.Nodup ∧ InSourceOrder t b.unresolved
  /-- So are references to types. -/
  unresolvedTypes : b.unresolvedTypes.Nodup ∧ InSourceOrder t b.unresolvedTypes
  /-- A node that declares a name is one declaration of one symbol: the one that its name declares, which
  has this name. -/
  declaration : ∀ id n name, t.node? id = some n → n.kind.declaredName? = some name → name.text ≠ "" →
    ∃ index symbol, b.symbols[index]? = some symbol ∧ symbol.name = name.text ∧
      b.declared.lookup name.id = some index ∧ symbol.declarations.count id = 1 ∧
      ∀ index' symbol', b.symbols[index']? = some symbol' → id ∈ symbol'.declarations → index' = index
  /-- What a name declares and what a reference refers to are symbols with the name of the identifier. -/
  symbol : ∀ id index, (id, index) ∈ b.declared ∨ (id, index) ∈ b.resolved →
    ∃ n symbol, t.node? id = some n ∧ b.symbols[index]? = some symbol ∧ n.kind = .identifier symbol.name

/-! ### The names of an outline in its tree -/

/-- What is used of the tree of a text: it is grammatical, numbers lead to nodes, and its identifiers stand
in the order of the text. -/
structure IsRead (t : Tree) : Prop where
  formed : t.root.Formed .file
  node?_iff : ∀ id n, t.node? id = some n ↔ n ∈ t.root.nodes ∧ n.id = id
  nodup : (t.root.nodes.map Node.id).Nodup
  ordered : (t.root.nodes.filter (·.kind.isNamed)).Pairwise fun a b => a.span.start < b.span.start

theorem isRead_parse (fileName text : String) : IsRead (Tree.parse fileName text) where
  formed := Tree.formed_root_parse fileName text
  node?_iff id n := ⟨Tree.of_node?_eq_some, fun ⟨hn, hid⟩ => hid ▸ Tree.node?_id fileName text hn⟩
  nodup := by
    have h := Node.nodup_map_id_labels Place.mk (fun _ _ => rfl) (Syntax.parseTokens (.ofChars text.toList)).1
    rwa [Node.labels, List.map_map] at h
  ordered := Tree.pairwise_identifiers_parse

namespace IsRead

variable {t : Tree} (ht : IsRead t)

include ht

theorem node?_id {n : Node Place} (hn : n ∈ t.root.nodes) : t.node? n.id = some n :=
  (ht.node?_iff _ _).mpr ⟨hn, rfl⟩

theorem node?_toNode {d : Declaration} (hd : d ∈ t.root.outline.declarations) :
    t.node? d.name.id = some d.name.toNode :=
  ht.node?_id (Node.mem_nodes_of_mem_names (Outline.toNode_mem_names hd))

theorem node?_read {r : Referred Place} (hr : r ∈ t.root.outline.reads) :
    t.node? r.label.id = some (.mk r.label (.identifier r.name)) :=
  ht.node?_id (Node.mem_nodes_of_mem_names
    ((Outline.sublist_names_reads _).subset (List.mem_map_of_mem hr)))

theorem nodup_ids : t.root.outline.ids.Nodup := ((Node.names_outline _).map Node.id).nodup ht.nodup

/-- Declared names and references have different numbers. -/
theorem nodup_declarations_reads :
    (t.root.outline.declarations.map (·.name.id) ++ t.root.outline.reads.map (·.label.id)).Nodup :=
  (Outline.perm_ids_reads _).nodup_iff.mp ht.nodup_ids

/-- The name that a node declares is a node. -/
theorem node?_declaredName {id : NodeId} {n : Node Place} {name : Ident Place} (hn : t.node? id = some n)
    (hname : n.kind.declaredName? = some name) : t.node? name.id = some name.toNode := by
  have hchild : name.toNode ∈ n.children := by
    obtain ⟨l, k⟩ := n
    cases k <;> simp only [Node.kind_mk, Kind.declaredName?, reduceCtorEq, Option.some.injEq] at hname <;>
      exact hname ▸ List.mem_cons_self
  have hinner := Node.nodes_subset_of_mem_children hchild (Node.mem_nodes_self _)
  exact ht.node?_id (Node.nodes_subset_of_mem_nodes ((ht.node?_iff _ _).mp hn).1 hinner)

/-- A node that declares a name is a declaration of the outline. -/
theorem exists_declaration {id : NodeId} {n : Node Place} {name : Ident Place} (hn : t.node? id = some n)
    (hname : n.kind.declaredName? = some name) :
    ∃ d ∈ t.root.outline.declarations, d.name = name ∧ d.node = id := by
  obtain ⟨hmem, hid⟩ := (ht.node?_iff _ _).mp hn
  have hmention := Node.declaration_mem_mentions_iff.mpr ⟨n, hmem, ⟨name, hname, rfl⟩, hid⟩
  rw [(Node.perm_mentions ht.formed).mem_iff, List.mem_append] at hmention
  rcases hmention with hmention | hmention
  · obtain ⟨d, hd, hd', hnode⟩ := Outline.declaration_mem_mentions_iff.mp hmention
    have heq : some d.name.toNode = some name.toNode := by
      rw [← ht.node?_toNode hd, hd', ht.node?_declaredName hn hname]
    obtain ⟨hlabel, hkind⟩ := Node.mk.inj (Option.some.inj heq)
    obtain ⟨⟨label, text⟩, node, kind⟩ := d
    obtain rfl : label = name.label := hlabel
    obtain rfl : text = name.text := Kind.identifier.inj hkind
    exact ⟨_, hd, rfl, hnode⟩
  · obtain ⟨-, -, i, -, h⟩ := Node.mem_memberMentions_iff.mp hmention
    cases h

/-- A declaration of the outline is a node that declares its name. -/
theorem name_id_eq_of_node_eq {d : Declaration} (hd : d ∈ t.root.outline.declarations) {n : Node Place}
    {name : Ident Place} (hn : t.node? d.node = some n) (hname : n.kind.declaredName? = some name) :
    d.name.id = name.id := by
  have hmention := Outline.declaration_mem_mentions_iff.mpr ⟨d, hd, rfl, rfl⟩
  have hmention := (Node.perm_mentions ht.formed).mem_iff.mpr (List.mem_append_left _ hmention)
  obtain ⟨m, hm, ⟨i, hi, hid⟩, hnode⟩ := Node.declaration_mem_mentions_iff.mp hmention
  have hget := ht.node?_id hm
  rw [hnode, hn] at hget
  obtain rfl := Option.some.inj hget
  rw [hname] at hi
  rw [← hid, Option.some.inj hi]

theorem hasUse_member_iff {b : Binding} {id : NodeId} :
    b.HasUse t id .member ↔ .identifier id ∈ t.root.nodes.flatMap Node.memberMentions := by
  rw [Node.mem_memberMentions_iff]
  constructor
  · rintro ⟨parent, n, object, name, hn, hkind, rfl⟩
    exact ⟨n, ((ht.node?_iff _ _).mp hn).1, name, by rw [hkind]; rfl, rfl⟩
  · rintro ⟨n, hn, name, hname, hid⟩
    obtain ⟨l, k⟩ := n
    cases k <;> simp only [Node.kind_mk, Kind.memberName?, reduceCtorEq, Option.some.injEq] at hname
    case propertyAccess object name' =>
      obtain rfl := hname
      exact ⟨l.id, _, object, name', ht.node?_id hn, rfl, (Mention.identifier.inj hid).symm⟩

/-- An identifier is a name of the outline or the name of a member. -/
theorem mem_ids_or_member {id : NodeId} {n : Node Place} {text : String} (hn : t.node? id = some n)
    (hkind : n.kind = .identifier text) (b : Binding) :
    id ∈ t.root.outline.ids ∨ b.HasUse t id .member := by
  obtain ⟨hn, hid⟩ := (ht.node?_iff _ _).mp hn
  rw [ht.hasUse_member_iff, ← Outline.identifier_mem_mentions_iff, ← List.mem_append,
    ← (Node.perm_mentions ht.formed).mem_iff]
  exact Node.identifier_mem_mentions_iff.mpr ⟨n, hn, ⟨text, hkind⟩, hid⟩

/-- No name of the outline is the name of a member. -/
theorem not_member_of_mem_ids {id : NodeId} (hid : id ∈ t.root.outline.ids) (b : Binding) :
    ¬b.HasUse t id .member := by
  rw [← Outline.identifier_mem_mentions_iff] at hid
  rw [ht.hasUse_member_iff]
  intro hmember
  have hnodup := ht.nodup.sublist Node.sublist_identifiers
  rw [((Node.perm_mentions ht.formed).filterMap Mention.identifier?).nodup_iff, List.filterMap_append]
    at hnodup
  exact (List.nodup_append.mp hnodup).2.2 id (List.mem_filterMap.mpr ⟨_, hid, rfl⟩) id
    (List.mem_filterMap.mpr ⟨_, hmember, rfl⟩) rfl

/-- References stand in the order of the text. -/
theorem inSourceOrder {ids : List NodeId} (h : ids.Sublist t.root.outline.referred) :
    InSourceOrder t ids := by
  have hreferred : t.root.outline.referred = ((t.root.outline.reads.filter (·.name ≠ "")).map fun r =>
      Node.mk r.label (.identifier r.name)).map Node.id := by
    rw [List.map_map]
    rfl
  rw [hreferred] at h
  obtain ⟨ns, hns, rfl⟩ := List.sublist_map_iff.mp h
  have hnodes : ns.Sublist t.root.nodes := by
    refine hns.trans (.trans ?_ (Node.names_outline t.root))
    exact (List.filter_sublist.map _).trans (Outline.sublist_names_reads _)
  have hnamed : ∀ n ∈ ns, n.kind.isNamed = true := by
    intro n hn
    obtain ⟨r, hr, rfl⟩ := List.mem_map.mp (hns.subset hn)
    exact Kind.isNamed_iff.mpr ⟨r.name, rfl, of_decide_eq_true (List.mem_filter.mp hr).2⟩
  refine ⟨ns, rfl, fun n hn => ⟨ht.node?_id (hnodes.subset hn), hnamed n hn⟩, ?_⟩
  rw [← List.filter_eq_self.mpr hnamed]
  exact ht.ordered.sublist (hnodes.filter _)

end IsRead

/-! ### What binding has done to a file -/

/-- The use of a reference with an outcome. -/
def Outcome.use : Outcome → IdentifierUse
  | .resolved => .resolved
  | .unresolved => .unresolved
  | .unresolvedType => .unresolvedType

/-- The binding of a file consists of entries for the declared names of the file and of outcomes for its
references. -/
structure ConsistsOf (b : Binding) (t : Tree) (entries : List (Declaration × Nat))
    (uses : List (NodeId × Outcome)) : Prop where
  declared : b.declared = (entries.map fun e => (e.1.name.id, e.2)).reverse
  entered : ∀ e ∈ entries, e.1 ∈ t.root.outline.declarations ∧
    b.symbols[e.2]?.map (·.name) = some e.1.name.text
  declarations : ∀ index symbol, b.symbols[index]? = some symbol →
    symbol.declarations = (entries.filter (·.2 = index)).map (·.1.node)
  resolved : ∀ x ∈ b.resolved, ∃ r ∈ t.root.outline.reads, r.label.id = x.1 ∧
    b.symbols[x.2]?.map (·.name) = some r.name
  nodup : (b.declared.map (·.1)).Nodup
  mem_declared_iff : ∀ id, id ∈ b.declared.map (·.1) ↔ id ∈ named t.root.outline.declarations
  resolvedUses : b.resolved.map (·.1) = (pick .resolved uses).reverse
  unresolvedUses : b.unresolved = pick .unresolved uses
  unresolvedTypeUses : b.unresolvedTypes = pick .unresolvedType uses
  uses : uses.map (·.1) = t.root.outline.referred

/-- The binding of a file consists of what binding it enters and settles. -/
theorem IsRead.consistsOf {t : Tree} (ht : IsRead t) :
    ∃ entries uses, (ofTree t).ConsistsOf t entries uses := by
  have hwalks := Node.walks_bindNode Node.collects_any t.root ⟨ht.formed, trivial⟩ .initial
  have hsilent := silent_file ht.formed
  have hkeys : State.initial.keys = [] := rfl
  obtain ⟨entries, hsound⟩ := sound_walks hwalks State.Sound.initial
  obtain ⟨uses, hsettles, huses⟩ := settles_walks hwalks
  have henters := enters_walks hwalks ht.nodup_ids (by simp [hkeys]) (by simp [hkeys])
    (fun _ => hsilent) (fun h => absurd h (by decide))
  have hlisted : ∀ outcome, ((bindNode t.root).after .initial).listed outcome =
      (pick outcome uses).reverse := by
    intro outcome
    rw [hsettles outcome]
    cases outcome <;> exact List.append_nil _
  refine ⟨entries, uses, hsound.declared, hsound.entered, hsound.declarations, hsound.resolved,
    henters.nodup, fun id => ?_, hlisted .resolved, ?_, ?_, huses⟩
  · refine (henters.mem_iff id).trans (or_iff_right ?_)
    rw [hkeys]
    exact List.not_mem_nil
  · exact (congrArg List.reverse (hlisted .unresolved)).trans (List.reverse_reverse _)
  · exact (congrArg List.reverse (hlisted .unresolvedType)).trans (List.reverse_reverse _)

theorem lookup_eq_some_of_mem {entries : List (NodeId × Nat)} (hnodup : (entries.map (·.1)).Nodup)
    {id : NodeId} {index : Nat} (h : (id, index) ∈ entries) : entries.lookup id = some index := by
  induction entries with
  | nil => exact absurd h List.not_mem_nil
  | cons entry entries ih =>
    obtain ⟨hentry, hnodup⟩ := List.nodup_cons.mp hnodup
    rcases List.mem_cons.mp h with rfl | h
    · exact List.lookup_cons_self
    · have hne : id ≠ entry.1 := fun heq => hentry (List.mem_map.mpr ⟨_, h, heq⟩)
      rw [List.lookup_cons, beq_false_of_ne hne]
      exact ih hnodup h

/-- An identifier has one text. -/
theorem text_eq_of_node? {t : Tree} {id : NodeId} {n : Node Place} {l : Place} {text text' : String}
    (hn : t.node? id = some n) (hkind : n.kind = .identifier text)
    (h : t.node? id = some (.mk l (.identifier text'))) : text' = text := by
  rw [hn] at h
  obtain rfl := Option.some.inj h
  exact Kind.identifier.inj hkind

namespace ConsistsOf

variable {t : Tree} (ht : IsRead t) {b : Binding} {entries : List (Declaration × Nat)}
  {uses : List (NodeId × Outcome)} (h : b.ConsistsOf t entries uses)

include h

theorem hasUse_outcome_iff {outcome : Outcome} {id : NodeId} :
    b.HasUse t id outcome.use ↔ (id, outcome) ∈ uses := by
  rw [← mem_pick_iff]
  cases outcome with
  | resolved =>
    show id ∈ b.resolved.map (·.1) ↔ _
    rw [h.resolvedUses, List.mem_reverse]
  | unresolved =>
    show id ∈ b.unresolved ↔ _
    rw [h.unresolvedUses]
  | unresolvedType =>
    show id ∈ b.unresolvedTypes ↔ _
    rw [h.unresolvedTypeUses]

/-- No name is entered twice. -/
theorem nodup_keys : (entries.map (·.1.name.id)).Nodup := by
  have hnodup := h.nodup
  rw [h.declared, List.map_reverse, List.nodup_reverse, List.map_map] at hnodup
  exact hnodup

/-- A node that nothing else is entered for is entered once for its symbol. -/
theorem count_node_eq_one {e : Declaration × Nat} (he : e ∈ entries)
    (hunique : ∀ e' ∈ entries, e'.1.node = e.1.node → e' = e) :
    ((entries.filter (·.2 = e.2)).map (·.1.node)).count e.1.node = 1 := by
  have hcount : (entries.map (·.1.name.id)).count e.1.name.id = 1 :=
    List.count_eq_one_of_mem h.nodup_keys (List.mem_map_of_mem he)
  rw [List.count_eq_countP, List.countP_map] at hcount
  rw [List.count_eq_countP, List.countP_map, List.countP_filter, ← hcount]
  -- among the entries for the symbol those of the node are those of the name
  refine List.countP_congr fun e' he' => ?_
  simp only [Function.comp_apply, Bool.and_eq_true, beq_iff_eq, decide_eq_true_eq]
  constructor
  · rintro ⟨hnode, -⟩
    rw [hunique e' he' hnode]
  · intro hid
    rw [List.inj_on_of_nodup_map h.nodup_keys he' he hid]
    exact ⟨rfl, rfl⟩

/-- A name that is entered is a declared name. -/
theorem mem_declarations_of_hasUse {id : NodeId} (hid : b.HasUse t id .declaration) :
    id ∈ t.root.outline.declarations.map (·.name.id) := by
  obtain ⟨d, hd, -, rfl⟩ := mem_named_iff.mp ((h.mem_declared_iff id).mp hid)
  exact List.mem_map_of_mem hd

/-- What gets an outcome is a reference. -/
theorem mem_reads_of_mem_uses {id : NodeId} {outcome : Outcome} (hid : (id, outcome) ∈ uses) :
    id ∈ t.root.outline.reads.map (·.label.id) := by
  have hmem : id ∈ t.root.outline.referred := h.uses ▸ List.mem_map_of_mem hid
  exact List.map_subset _ (List.filter_subset_self _) hmem

include ht

theorem nodup_uses : (uses.map (·.1)).Nodup := by
  rw [h.uses]
  exact (List.filter_sublist.map _).nodup (List.nodup_append.mp ht.nodup_declarations_reads).2.1

/-- A use is that of a declared name, that of a reference, or that of a member. -/
theorem use_cases {id : NodeId} {use : IdentifierUse} (huse : b.HasUse t id use) :
    (use = .declaration ∧ id ∈ t.root.outline.declarations.map (·.name.id)) ∨
      (∃ outcome : Outcome, use = outcome.use ∧ (id, outcome) ∈ uses) ∨
      (use = .member ∧ id ∉ t.root.outline.ids) := by
  cases use with
  | declaration => exact .inl ⟨rfl, h.mem_declarations_of_hasUse huse⟩
  | resolved => exact .inr (.inl ⟨.resolved, rfl, h.hasUse_outcome_iff.mp huse⟩)
  | unresolved => exact .inr (.inl ⟨.unresolved, rfl, h.hasUse_outcome_iff.mp huse⟩)
  | unresolvedType => exact .inr (.inl ⟨.unresolvedType, rfl, h.hasUse_outcome_iff.mp huse⟩)
  | member => exact .inr (.inr ⟨rfl, fun hid => ht.not_member_of_mem_ids hid b huse⟩)

/-- An identifier has no two uses. -/
theorem use_unique {id : NodeId} {use use' : IdentifierUse} (huse : b.HasUse t id use)
    (huse' : b.HasUse t id use') : use = use' := by
  have hids := (Outline.perm_ids_reads t.root.outline).symm.subset
  have hapart := (List.nodup_append.mp ht.nodup_declarations_reads).2.2
  have hdeclared := fun hid => hids (a := id) (List.mem_append_left _ hid)
  have hread := fun outcome (hid : (id, outcome) ∈ uses) =>
    hids (List.mem_append_right _ (h.mem_reads_of_mem_uses hid))
  rcases h.use_cases ht huse with ⟨rfl, hid⟩ | ⟨outcome, rfl, hid⟩ | ⟨rfl, hid⟩ <;>
    rcases h.use_cases ht huse' with ⟨rfl, hid'⟩ | ⟨outcome', rfl, hid'⟩ | ⟨rfl, hid'⟩
  · rfl
  · exact absurd rfl (hapart _ hid _ (h.mem_reads_of_mem_uses hid'))
  · exact absurd (hdeclared hid) hid'
  · exact absurd rfl (hapart _ hid' _ (h.mem_reads_of_mem_uses hid))
  · have heq : (id, outcome) = (id, outcome') := List.inj_on_of_nodup_map (h.nodup_uses ht) hid hid' rfl
    rw [(Prod.mk.inj heq).2]
  · exact absurd (hread _ hid) hid'
  · exact absurd (hdeclared hid') hid
  · exact absurd (hread _ hid') hid
  · rfl

/-- An identifier with a text has a use. -/
theorem exists_use {id : NodeId} {n : Node Place} {text : String} (hn : t.node? id = some n)
    (hkind : n.kind = .identifier text) (htext : text ≠ "") : ∃ use, b.HasUse t id use := by
  rcases ht.mem_ids_or_member hn hkind b with hid | hmember
  · rcases List.mem_append.mp ((Outline.perm_ids_reads _).subset hid) with hid | hid
    · obtain ⟨d, hd, rfl⟩ := List.mem_map.mp hid
      have hname : d.name.text = text := text_eq_of_node? hn hkind (ht.node?_toNode hd)
      refine ⟨.declaration, (h.mem_declared_iff _).mpr (mem_named_iff.mpr ⟨d, hd, ?_, rfl⟩)⟩
      rw [hname]
      exact htext
    · obtain ⟨r, hr, rfl⟩ := List.mem_map.mp hid
      have hname : r.name = text := text_eq_of_node? hn hkind (ht.node?_read hr)
      have hreferred : r.label.id ∈ uses.map (·.1) := by
        rw [h.uses]
        exact List.mem_map_of_mem (List.mem_filter.mpr ⟨hr, by simp [hname, htext]⟩)
      obtain ⟨⟨id, outcome⟩, huse, hid⟩ := List.mem_map.mp hreferred
      obtain rfl : id = r.label.id := hid
      exact ⟨outcome.use, h.hasUse_outcome_iff.mpr huse⟩
  · exact ⟨.member, hmember⟩

/-- A node that declares a name is entered, with its name and for one symbol. -/
theorem exists_entry {id : NodeId} {n : Node Place} {name : Ident Place} (hn : t.node? id = some n)
    (hname : n.kind.declaredName? = some name) (htext : name.text ≠ "") :
    ∃ e ∈ entries, e.1.name = name ∧ e.1.node = id ∧ ∀ e' ∈ entries, e'.1.node = id → e' = e := by
  obtain ⟨d, hd, rfl, rfl⟩ := ht.exists_declaration hn hname
  have hdeclared := (h.mem_declared_iff _).mpr (mem_named_iff.mpr ⟨d, hd, htext, rfl⟩)
  rw [h.declared, List.map_reverse, List.mem_reverse, List.map_map] at hdeclared
  obtain ⟨e, he, hid⟩ := List.mem_map.mp hdeclared
  have heq : e.1 = d :=
    List.inj_on_of_nodup_map (List.nodup_append.mp ht.nodup_declarations_reads).1 (h.entered e he).1 hd hid
  refine ⟨e, he, congrArg _ heq, congrArg _ heq, fun e' he' hnode => ?_⟩
  refine List.inj_on_of_nodup_map h.nodup_keys he' he ?_
  rw [heq]
  exact ht.name_id_eq_of_node_eq (h.entered e' he').1 (hnode ▸ hn) hname

/-- A node that declares a name is one declaration of the symbol that its name declares. -/
theorem declared_once {id : NodeId} {n : Node Place} {name : Ident Place} (hn : t.node? id = some n)
    (hname : n.kind.declaredName? = some name) (htext : name.text ≠ "") :
    ∃ index symbol, b.symbols[index]? = some symbol ∧ symbol.name = name.text ∧
      b.declared.lookup name.id = some index ∧ symbol.declarations.count id = 1 ∧
      ∀ index' symbol', b.symbols[index']? = some symbol' → id ∈ symbol'.declarations → index' = index := by
  obtain ⟨e, he, rfl, rfl, hunique⟩ := h.exists_entry ht hn hname htext
  obtain ⟨symbol, hsymbol, hsymbolName⟩ := Option.map_eq_some_iff.mp (h.entered e he).2
  refine ⟨e.2, symbol, hsymbol, hsymbolName, lookup_eq_some_of_mem h.nodup ?_, ?_, ?_⟩
  · rw [h.declared, List.mem_reverse]
    exact List.mem_map_of_mem he
  · rw [h.declarations _ _ hsymbol]
    exact h.count_node_eq_one he hunique
  · intro index symbol' hsymbol' hmem
    rw [h.declarations index symbol' hsymbol'] at hmem
    obtain ⟨e', he', hnode⟩ := List.mem_map.mp hmem
    obtain ⟨he', hindex⟩ := List.mem_filter.mp he'
    rw [← of_decide_eq_true hindex, hunique e' he' hnode]

/-- What a name declares and what a reference refers to is a symbol with its name. -/
theorem exists_symbol {id : NodeId} {index : Nat}
    (hid : (id, index) ∈ b.declared ∨ (id, index) ∈ b.resolved) :
    ∃ n symbol, t.node? id = some n ∧ b.symbols[index]? = some symbol ∧
      n.kind = .identifier symbol.name := by
  rcases hid with hid | hid
  · rw [h.declared, List.mem_reverse] at hid
    obtain ⟨e, he, heq⟩ := List.mem_map.mp hid
    obtain ⟨rfl, rfl⟩ := Prod.mk.inj heq
    obtain ⟨hd, hsymbol⟩ := h.entered e he
    obtain ⟨symbol, hsymbol, hname⟩ := Option.map_eq_some_iff.mp hsymbol
    exact ⟨_, symbol, ht.node?_toNode hd, hsymbol, hname ▸ rfl⟩
  · obtain ⟨r, hr, rfl, hsymbol⟩ := h.resolved _ hid
    obtain ⟨symbol, hsymbol, hname⟩ := Option.map_eq_some_iff.mp hsymbol
    exact ⟨_, symbol, ht.node?_read hr, hsymbol, hname ▸ rfl⟩

end ConsistsOf

end Binding

end Semantics

end ScriptAnalysis

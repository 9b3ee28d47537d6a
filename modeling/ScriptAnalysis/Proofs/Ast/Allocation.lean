import ScriptAnalysis.Proofs.Ast.NodeMaps
import ScriptAnalysis.Proofs.Ast.Storing

/-!
# Converting into an arena is converting and storing

A conversion that keeps nodes in an arena leaves there what storing the common tree would, in the same order
(`node_eq_store`). So the arena of a file lists the entries of the numbered tree, and its links lead where
the maps of the conversion lead (`allocated_ofTree`).
-/

namespace ScriptAnalysis.Ast

open Node (store store_mk)

/-! ### The same steps -/

namespace Builder

variable (t : Syntax.Tree) (s : Settings)

/-- Where the node of an origin comes from and where it is. -/
def place (o : Origin) : Syntax.NodeId × Location := (o.node, s.locate t.lines o.span)

theorem put_eq_put (p : Syntax.Place) (k : Kind NodeId NodeId) :
    put t s p k = Node.put s.nodeMaps k (place t s (.ofPlace p)) true := rfl

theorem store_ascribedName (n : Syntax.Ident Syntax.Place) (type? : Option (Syntax.Node Syntax.Place))
    (ascription? : Option (Node Origin)) :
    (ascribedName n type? ascription?).toNode.store s.nodeMaps (place t s) =
      ascription?.mapM (store s.nodeMaps (place t s)) >>= putName t s n type? := by
  rw [Name.toNode, store_mk]
  simp only [Kind.map, Kind.mapM, bind_assoc, pure_bind]
  cases ascription? <;> rfl

mutual

theorem node_eq_store : (n : Syntax.Node Syntax.Place) →
    node t s n = (convert t.text.toList n).store s.nodeMaps (place t s)
  | .mk p k => kind_eq_store p k

theorem kind_eq_store (p : Syntax.Place)
    (k : Syntax.Kind (Syntax.Ident Syntax.Place) (Syntax.Node Syntax.Place)) :
    kind t s p k = (convertKind t.text.toList p k).store s.nodeMaps (place t s) := by
  -- a parameter without a default value is its name
  cases k
  case' parameter default? => cases default?
  all_goals
    simp [-bind_pure_comp, kind, put_eq_put, convertKind, store_mk, store_ascribedName, plainName, Kind.map,
      Kind.mapM, Kind.isAscription, node_eq_store, ascription_eq_mapM, list_eq_mapM, option_eq_mapM]

theorem ascription_eq_mapM : (type? : Option (Syntax.Node Syntax.Place)) →
    ascription t s type? = (convertAscription t.text.toList type?).mapM (store s.nodeMaps (place t s))
  | none => rfl
  | some (.mk p k) => by
    rw [ascription, convertAscription, Option.mapM_some, store_mk, kind_eq_store p k]
    simp [-bind_pure_comp, Kind.map, Kind.mapM]
    rfl

theorem list_eq_mapM : (ns : List (Syntax.Node Syntax.Place)) →
    list t s ns = (convertList t.text.toList ns).mapM (store s.nodeMaps (place t s))
  | [] => rfl
  | n :: ns => by rw [list, convertList, List.mapM_cons, node_eq_store n, list_eq_mapM ns]

theorem option_eq_mapM : (n? : Option (Syntax.Node Syntax.Place)) →
    option t s n? = (convertOption t.text.toList n?).mapM (store s.nodeMaps (place t s))
  | none => rfl
  | some n => by
    rw [option, convertOption, Option.mapM_some, node_eq_store n]
    rfl

end

theorem program_eq_store :
    program t s = (Ast.program t).store s.nodeMaps (place t s) := by
  simp only [Ast.program, store_mk, Kind.map, Kind.mapM, List.map_id_fun', id, bind_assoc, pure_bind,
    ← list_eq_mapM]
  rfl

end Builder

/-! ### The same links -/

section

variable {links : Links} {images : Array (Option NodeId)} {e : Entry} {es : List Entry}

theorem Links.origin?_add (id other : NodeId) (origin : Syntax.NodeId) (isImage : Bool) :
    (links.add id origin isImage).origin? other =
      if other = id then some origin else links.origin? other := by
  rw [origin?, add, List.lookup_cons]
  by_cases h : other = id
  · simp [h]
  · simp [h, beq_false_of_ne h, origin?]

/-- The first image of a node stays. -/
theorem Links.image?_add (id : NodeId) (origin other : Syntax.NodeId) (isImage : Bool) :
    (links.add id origin isImage).image? other =
      if isImage = true ∧ other = origin then (links.image? other).or (some id) else links.image? other := by
  rw [image?, add]
  dsimp only
  -- a new link stands in front of the others, so it is made only where there is none
  split
  · rename_i hadd
    obtain ⟨rfl, hnone⟩ : isImage = true ∧ links.image? origin = none := by simpa using hadd
    by_cases h : other = origin
    · subst h
      simp [hnone]
    · simp [h, List.lookup_cons, beq_false_of_ne h, image?]
  · rename_i hadd
    by_cases h : isImage = true ∧ other = origin
    · obtain ⟨rfl, rfl⟩ := h
      obtain ⟨first, hfirst⟩ : ∃ first, links.image? other = some first := by
        simpa [Option.isSome_iff_exists, ← Option.isSome_iff_ne_none] using hadd
      rw [if_pos ⟨rfl, rfl⟩, hfirst, Option.some_or]
      exact hfirst
    · rw [if_neg h]
      rfl

theorem size_addImage (images : Array (Option NodeId)) (e : Entry) :
    (NodeMaps.addImage images e).size = images.size := by
  rw [NodeMaps.addImage]
  split
  · rfl
  · rw [Array.size_modify]

/-- A node becomes an image among the links when it becomes one in the map. -/
theorem image?_addNode (h : ∀ o, links.image? o = images[o]?.join) (he : e.node.origin < images.size)
    (o : Syntax.NodeId) : (links.addNode e.node).image? o = (NodeMaps.addImage images e)[o]?.join := by
  rw [Links.addNode, Links.image?_add, NodeMaps.addImage, h o]
  cases e.node.kind.isAscription with
  | true => simp
  | false =>
    simp only [Bool.not_false, true_and, Bool.false_eq_true, if_false]
    rw [Array.getElem?_modify]
    by_cases ho : o = e.node.origin
    · subst ho
      simp [he]
    · simp [ho, Ne.symm ho]

theorem image?_foldl_addNode (h : ∀ o, links.image? o = images[o]?.join)
    (hes : ∀ e ∈ es, e.node.origin < images.size) (o : Syntax.NodeId) :
    ((es.map Entry.node).foldl Links.addNode links).image? o =
      (es.foldl NodeMaps.addImage images)[o]?.join := by
  induction es generalizing links images with
  | nil => exact h o
  | cons e es ih =>
    obtain ⟨he, hes⟩ := List.forall_mem_cons.mp hes
    rw [List.map_cons, List.foldl_cons, List.foldl_cons]
    exact ih (image?_addNode h he) ((size_addImage images e).symm ▸ hes)

/-- The origins of nodes that are numbered in order are found by their numbers. -/
theorem origin?_foldl_addNode {ns : List (Node Place)} (h : ns.map Node.id = List.range ns.length)
    (id : NodeId) : (ns.foldl Links.addNode {}).origin? id = (ns.map Node.origin)[id]? := by
  induction ns using List.reverseRecOn with
  | nil => rfl
  | append_singleton ns n ih =>
    rw [List.map_append, List.length_append, List.map_singleton, List.length_singleton, List.range_succ] at h
    obtain ⟨hns, hlast⟩ := List.append_inj h (by simp)
    have hid : n.id = ns.length := (List.cons.inj hlast).1
    rw [List.foldl_append, List.foldl_cons, List.foldl_nil, Links.addNode, Links.origin?_add, ih hns, hid,
      List.map_append, List.getElem?_append, List.length_map]
    rcases Nat.lt_trichotomy id ns.length with hlt | heq | hgt
    · rw [if_neg (Nat.ne_of_lt hlt), if_pos hlt]
    · simp [heq]
    · have hlast : ([n].map Node.origin)[id - ns.length]? = none := List.getElem?_eq_none (by simp; omega)
      rw [if_neg (Nat.ne_of_gt hgt), if_neg (Nat.lt_asymm hgt), hlast, List.getElem?_eq_none]
      simpa using Nat.le_of_lt hgt

end

/-! ### The whole conversion -/

namespace Conversion

/-- The arena of a file holds what its conversion gives. -/
structure Allocated (t : Syntax.Tree) (s : Settings) (c : Conversion) : Prop where
  /-- The program has the same number. -/
  root : (Arena.ofTree t s).1 = c.tree.root.id
  /-- The nodes have the same kinds, places and parents, each under its number. -/
  cells : (Arena.ofTree t s).2.cells = c.tree.entries.toList.map Entry.cell
  /-- The links lead to the same origins. -/
  origin : ∀ id, (Arena.ofTree t s).2.links.origin? id = c.maps.origin? id
  /-- The links lead to the same images. -/
  image : ∀ o, (Arena.ofTree t s).2.links.image? o = c.maps.image? o

variable {tree : Syntax.Tree} {settings : Settings} {conversion : Conversion}

/-- The arena of a file is where its common tree is stored. -/
theorem arena_ofTree (h : ofTree tree settings = .ok conversion) : Arena.ofTree tree settings =
    (conversion.tree.root.id, Node.stored settings.nodeMaps {} [conversion.tree.root]) := by
  have ht := numbered_ofTree h
  have hnumbered : Node.NumberedFrom ({} : Arena).cells.length [conversion.tree.root] := by
    rw [Node.NumberedFrom, List.flatMap_singleton, ht.map_id, ht.length_nodes, List.range_eq_range']
    rfl
  -- storing looks at places and origins only, which both trees share
  have hmap : conversion.tree.root.map (fun p => (p.origin, p.location)) =
    (program tree).map (Builder.place tree settings) := map_root h fun _ _ => rfl
  have hstore := congrArg (Node.store settings.nodeMaps fun place => place) hmap
  rw [Node.store_map, Node.store_map] at hstore
  rw [Arena.ofTree, Builder.program_eq_store]
  exact (congrArg (fun build => StateT.run build {}) hstore.symm).trans (Node.run_store hnumbered)

/-- The links are those of the nodes, if links are kept. -/
theorem links_arena (h : ofTree tree settings = .ok conversion) : (Arena.ofTree tree settings).2.links =
    if settings.nodeMaps then conversion.tree.root.nodes.foldl Links.addNode {} else {} := by
  rw [arena_ofTree h, Node.stored]
  simp

theorem origin?_arena (h : ofTree tree settings = .ok conversion) (id : NodeId) :
    (Arena.ofTree tree settings).2.links.origin? id = conversion.maps.origin? id := by
  have hids : conversion.tree.root.nodes.map Node.id = List.range conversion.tree.root.nodes.length := by
    rw [(numbered_ofTree h).map_id, (numbered_ofTree h).length_nodes]
  rw [links_arena h, maps_ofTree h]
  cases settings.nodeMaps with
  | false => simp [NodeMaps.empty, NodeMaps.origin?, Links.origin?]
  | true =>
    rw [if_pos rfl, if_pos rfl, origin?_foldl_addNode hids, NodeMaps.ofEntries, NodeMaps.origin?,
      ← (numbered_ofTree h).map_node_entries, List.map_map, ← Array.getElem?_toList, Array.toList_map]
    rfl

theorem image?_arena {fileName text : String} (h : ofTree (.parse fileName text) settings = .ok conversion)
    (o : Syntax.NodeId) :
    (Arena.ofTree (.parse fileName text) settings).2.links.image? o = conversion.maps.image? o := by
  have hnodes : conversion.tree.entries.toList.map Entry.node = conversion.tree.root.nodes :=
    (numbered_ofTree h).map_node_entries
  have hsize : ∀ e ∈ conversion.tree.entries.toList,
      e.node.origin <
        (Array.replicate (Syntax.Tree.parse fileName text).size (none : Option NodeId)).size := by
    intro e he
    obtain ⟨n, hn⟩ := exists_node_of_mem_nodes h (hnodes ▸ List.mem_map_of_mem he)
    obtain ⟨entry, hentry, -⟩ := Option.map_eq_some_iff.mp hn
    rw [Array.size_replicate]
    exact (Array.getElem?_eq_some_iff.mp hentry).1
  have hempty : ∀ o, ({} : Links).image? o =
      (Array.replicate (Syntax.Tree.parse fileName text).size (none : Option NodeId))[o]?.join := by
    intro o
    rw [Array.getElem?_replicate]
    split <;> rfl
  rw [links_arena h, maps_ofTree h]
  cases settings.nodeMaps with
  | false => simp [NodeMaps.empty, NodeMaps.image?, Links.image?]
  | true =>
    rw [if_pos rfl, if_pos rfl, ← hnodes, image?_foldl_addNode hempty hsize, NodeMaps.ofEntries,
      NodeMaps.image?, Array.foldl_toList]

/-- **Converting into an arena gives the numbered tree.** Whatever the settings, the arena of a file without
syntax errors lists the nodes of the common tree by their numbers, with their parents, and its links lead
where the maps lead. -/
theorem allocated_ofTree {fileName text : String}
    (h : ofTree (.parse fileName text) settings = .ok conversion) :
    conversion.Allocated (.parse fileName text) settings where
  root := by rw [arena_ofTree h]
  cells := by
    rw [arena_ofTree h, (numbered_ofTree h).entries_eq]
    simp [Node.stored, Node.cells, Node.entries]
  origin := origin?_arena h
  image := image?_arena h

end Conversion

end ScriptAnalysis.Ast

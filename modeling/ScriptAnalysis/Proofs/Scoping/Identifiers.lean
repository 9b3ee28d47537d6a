import ScriptAnalysis.Proofs.Scoping.Coherence
import ScriptAnalysis.Proofs.Scoping.Sightings

/-!
# Every name is seen once

The tables of a program hold the definitions and the references that the walk has met and no others
(`perm_sightings_ofTree`), and the walk does with each name what its slot says. So a name that declares
something stands in one definition, and in one reference if it comes with a value; the name of a member stands
in none; and every other name stands in one reference (`seesNames_parse`).
-/

namespace ScriptAnalysis

namespace Scoping

open Ast

/-! ### Lists with keys -/

section

variable {β κ σ : Type} [DecidableEq κ]

/-- Where what comes from different elements has different keys, what has the key of an element comes from the
element. -/
theorem filter_flatMap_of_nodup {key : β → κ} {f : β → List (κ × σ)}
    (hf : ∀ b, ∀ y ∈ f b, y.1 = key b) {bs : List β} (hnodup : (bs.map key).Nodup) {b : β} (hb : b ∈ bs) :
    (bs.flatMap f).filter (·.1 = key b) = f b := by
  induction bs with
  | nil => simp at hb
  | cons a bs ih =>
    rw [List.map_cons, List.nodup_cons] at hnodup
    rw [List.flatMap_cons, List.filter_append]
    rcases List.mem_cons.mp hb with rfl | hb
    · have hrest : (bs.flatMap f).filter (·.1 = key b) = [] := by
        refine List.filter_eq_nil_iff.mpr fun y hy heq => hnodup.1 ?_
        obtain ⟨c, hc, hy⟩ := List.mem_flatMap.mp hy
        rw [decide_eq_true_iff] at heq
        rw [← heq, hf c y hy]
        exact List.mem_map_of_mem hc
      rw [hrest, List.append_nil, List.filter_eq_self]
      exact fun y hy => decide_eq_true (hf b y hy)
    · have hfirst : (f a).filter (·.1 = key b) = [] := by
        refine List.filter_eq_nil_iff.mpr fun y hy heq => hnodup.1 ?_
        rw [decide_eq_true_iff] at heq
        rw [← hf a y hy, heq]
        exact List.mem_map_of_mem hb
      rw [hfirst, List.nil_append, ih hnodup.2 hb]

/-- Taking the elements key by key takes each of them once. -/
theorem perm_flatMap_filter (key : β → Nat) {n : Nat} {bs : List β} (h : ∀ b ∈ bs, key b < n) :
    ((List.range n).flatMap fun i => bs.filter (key · = i)).Perm bs := by
  have hbelow : ∀ n, ((List.range n).flatMap fun i => bs.filter (key · = i)).Perm (bs.filter (key · < n)) := by
    intro n
    induction n with
    | zero => simp
    | succ n ih =>
      have hsplit := List.filter_append_perm (fun b => decide (key b < n)) (bs.filter (key · < n + 1))
      rw [List.filter_filter, List.filter_filter] at hsplit
      rw [List.range_succ, List.flatMap_append, List.flatMap_singleton]
      refine (ih.append_right _).trans (.trans (.of_eq ?_) hsplit)
      congr 1 <;>
      · refine List.filter_congr fun b _ => ?_
        rw [Bool.eq_iff_iff]
        simp only [decide_eq_true_iff, Bool.and_eq_true, Bool.not_eq_true', decide_eq_false_iff_not]
        omega
  refine (hbelow n).trans (.of_eq (List.filter_eq_self.mpr fun b hb => ?_))
  exact decide_eq_true (h b hb)

end

/-! ### What a graph holds -/

namespace ScopeGraph

/-- What a graph holds about names: first the definitions, then the references. -/
def sightings (g : ScopeGraph) : List (NodeId × Sighting) :=
  g.definitions.toList.map (fun e => (e.2.name, Sighting.declared)) ++
    g.references.toList.map fun r => (r.identifier, Sighting.ofUse r.use)

variable {g g' : ScopeGraph}

theorem definitions_addScope (type : ScopeType) (block : NodeId) (upper? : Option ScopeId)
    (startsStrict : Bool) : (g.addScope type block upper? startsStrict).definitions = g.definitions := by
  cases upper? <;> rfl

theorem sightings_addScope (type : ScopeType) (block : NodeId) (upper? : Option ScopeId)
    (startsStrict : Bool) : (g.addScope type block upper? startsStrict).sightings = g.sightings := by
  rw [sightings, definitions_addScope, references_addScope, sightings]

theorem sightings_settle (s : ScopeId) (waiting : List ReferenceId) :
    (g.settle s waiting).sightings = g.sightings := by
  have hreferences : (g.settle s waiting).references.map (fun r => (r.identifier, Sighting.ofUse r.use)) =
      g.references.map fun r => (r.identifier, Sighting.ofUse r.use) := by
    refine Array.ext_getElem? fun i => ?_
    rw [Array.getElem?_map, Array.getElem?_map, getElem?_references_settle, Option.map_map]
    rfl
  have hdefinitions : (g.settle s waiting).definitions = g.definitions := definitions_foldl_resolve _
  have hlist := congrArg Array.toList hreferences
  rw [Array.toList_map, Array.toList_map] at hlist
  rw [sightings, hdefinitions, hlist, sightings]

theorem perm_sightings_addDefinition (scope : ScopeId) (name : String) (d : Definition) :
    (g.addDefinition scope name d).sightings.Perm (g.sightings ++ [(d.name, .declared)]) := by
  rw [sightings, definitions_addDefinition, references_addDefinition, Array.toList_push, List.map_append,
    sightings, List.append_assoc, List.append_assoc]
  exact .append_left _ List.perm_append_comm

theorem sightings_addReference (scope : ScopeId) (name : String) (identifier : NodeId) (use : Use) :
    (g.addReference scope name identifier use).sightings = g.sightings ++ [(identifier, .ofUse use)] := by
  show g.definitions.toList.map _ ++ (g.references.push ⟨identifier, name, scope, use, none⟩).toList.map _ = _
  rw [Array.toList_push, List.map_append, sightings, List.append_assoc]
  rfl

end ScopeGraph

/-! ### Following the walk -/

/-- A step inside a scope adds to the graph what the action does with its name. -/
theorem perm_sightings_step {p : Progress} (hopen : p.openScopes ≠ []) (a : Action) :
    (p.step a).graph.sightings.Perm (p.graph.sightings ++ Scoping.sightings [a]) := by
  obtain ⟨g, _ | ⟨o, os⟩⟩ := p
  · exact absurd rfl hopen
  · cases a with
    | openScope type block startsStrict =>
      exact .of_eq ((ScopeGraph.sightings_addScope ..).trans (List.append_nil _).symm)
    | closeScope => exact .of_eq ((ScopeGraph.sightings_settle ..).trans (List.append_nil _).symm)
    | define isHoisted name d => exact ScopeGraph.perm_sightings_addDefinition ..
    | refer name identifier use => exact .of_eq (ScopeGraph.sightings_addReference ..)

/-- Opening and closing scopes does nothing with names, inside a scope or outside. -/
theorem sightings_step {p : Progress} {a : Action} (ha : a.sighting? = none) :
    (p.step a).graph.sightings = p.graph.sightings := by
  obtain ⟨g, _ | ⟨o, os⟩⟩ := p
  · cases a with
    | openScope type block startsStrict => exact ScopeGraph.sightings_addScope ..
    | closeScope => rfl
    | define | refer => cases ha
  · cases a with
    | openScope type block startsStrict => exact ScopeGraph.sightings_addScope ..
    | closeScope => exact ScopeGraph.sightings_settle ..
    | define | refer => cases ha

theorem sightings_follow {as : List Action} (has : sightings as = []) (p : Progress) :
    (p.follow as).graph.sightings = p.graph.sightings := by
  induction as generalizing p with
  | nil => rfl
  | cons a as ih =>
    have hnone := List.filterMap_eq_nil_iff.mp has
    rw [Progress.follow_cons, ih (List.filterMap_eq_nil_iff.mpr fun b hb => hnone b (List.mem_cons_of_mem _ hb)),
      sightings_step (hnone a List.mem_cons_self)]

/-- Balanced actions inside a scope end inside a scope. -/
theorem openScopes_follow_ne_nil {as : List Action} (has : Names.Balanced as) {p : Progress}
    (hopen : p.openScopes ≠ []) : (p.follow as).openScopes ≠ [] := by
  have hscopes := (has.preserves (I := fun _ => True) (fun _ _ _ _ => trivial) hopen trivial).2
  intro hnil
  rw [hnil, List.map_nil] at hscopes
  exact hopen (List.map_eq_nil_iff.mp hscopes.symm)

/-- Balanced actions inside a scope add to the graph what they do with names. -/
theorem perm_sightings_follow {as : List Action} (has : Names.Balanced as) {p : Progress}
    (hopen : p.openScopes ≠ []) :
    (p.follow as).graph.sightings.Perm (p.graph.sightings ++ sightings as) := by
  have hcons : ∀ {p : Progress} {a : Action} {as : List Action}, p.openScopes ≠ [] →
      ((p.step a).follow as).graph.sightings.Perm ((p.step a).graph.sightings ++ sightings as) →
      (p.follow (a :: as)).graph.sightings.Perm (p.graph.sightings ++ sightings (a :: as)) := by
    intro p a as hopen h
    refine h.trans (((perm_sightings_step hopen a).append_right _).trans (.of_eq ?_))
    rw [List.append_assoc, ← sightings_append]
    rfl
  induction has generalizing p with
  | nil => exact .of_eq (List.append_nil _).symm
  | define isHoisted name d h ih =>
    exact hcons hopen (ih (openScopes_follow_ne_nil (.define isHoisted name d .nil) hopen))
  | refer name identifier use h ih =>
    exact hcons hopen (ih (openScopes_follow_ne_nil (.refer name identifier use .nil) hopen))
  | scope type block startsStrict has hbs ihas ihbs =>
    have hclosed := openScopes_follow_ne_nil (.scope type block startsStrict has .nil) hopen
    have hinside : (p.step (.openScope type block startsStrict)).openScopes ≠ [] := by
      obtain ⟨g, os⟩ := p
      exact List.cons_ne_nil _ _
    rw [Progress.follow_cons, Progress.follow_append, Progress.follow_cons, Progress.follow_nil] at hclosed
    refine hcons hopen ?_
    rw [Progress.follow_append, Progress.follow_cons, sightings_append, sightings_closeScope, ← List.append_assoc]
    refine (ihbs hclosed).trans (.append_right _ ?_)
    rw [sightings_step rfl]
    exact ihas hinside

/-- The graph of a program holds what its actions do with names, and nothing else. -/
theorem ScopeGraph.perm_sightings_ofTree (options : Options) (t : Tree) :
    (ScopeGraph.ofTree options t).sightings.Perm (Scoping.sightings (Action.ofProgram options t)) := by
  have hopen := (Names.preserves_ofHeader (I := fun _ => True) (fun _ _ _ _ => trivial) options t.root.id t.body
    trivial).2
  have hbalanced := Names.balanced_of_map_toStep (Names.map_toStep_ofNodes_body t)
  rw [ScopeGraph.ofTree, Action.ofProgram, Progress.follow_append, Progress.follow_append,
    sightings_follow (sightings_closers _), Scoping.sightings_append, Scoping.sightings_append,
    sightings_ofHeader, sightings_closers, List.nil_append, List.append_nil]
  refine (perm_sightings_follow hbalanced hopen).trans (.of_eq ?_)
  rw [sightings_follow (sightings_ofHeader ..)]
  rfl

/-- Every definition belongs to one variable. -/
theorem ScopeGraph.Shaped.perm_definitions {g : ScopeGraph} (h : g.Shaped) :
    (g.vars.toList.flatMap (·.definitions)).Perm (g.definitions.toList.map (·.2)) := by
  have hdefinitions : g.vars.toList.map (·.definitions) = (List.range g.vars.size).map g.definitionsOf := by
    refine List.ext_getElem? fun v => ?_
    rw [List.getElem?_map, Array.getElem?_toList, List.getElem?_map]
    cases hv : g.vars[v]? with
    | none =>
      rw [List.getElem?_eq_none (by simpa using hv)]
      rfl
    | some x =>
      rw [List.getElem?_range (Array.getElem?_eq_some_iff.mp hv).1]
      exact congrArg some (h.defined v x hv).1
  have hkeys := perm_flatMap_filter (fun e : VariableId × Definition => e.1) fun e he =>
    h.logged e (Array.mem_toList_iff.mp he)
  have hperm := hkeys.map (·.2)
  rw [List.map_flatMap] at hperm
  rw [List.flatMap_def, hdefinitions, ← List.flatMap_def]
  exact hperm

/-! ### What the tables hold -/

namespace ScopeTables

/-- The definitions of a name. -/
def definitionsBy (m : ScopeTables) (i : NodeId) : List Definition :=
  (m.vars.toList.flatMap (·.definitions)).filter (·.name = i)

/-- The references that a name makes. -/
def referencesBy (m : ScopeTables) (i : NodeId) : List Reference :=
  m.references.toList.filter (·.identifier = i)

/-- What the tables hold about a name goes with the slot of the name. -/
def Holds (m : ScopeTables) (i : NodeId) : Slot (Node Place) → Prop
  | .member => m.definitionsBy i = [] ∧ m.referencesBy i = []
  | .binding none | .name | .parameter => (∃ d, m.definitionsBy i = [d]) ∧ m.referencesBy i = []
  | .binding (some value) => (∃ d, m.definitionsBy i = [d]) ∧
    ∃ r, m.referencesBy i = [r] ∧ r.use = .firstWrite value.id
  | .typeName => m.definitionsBy i = [] ∧ ∃ r, m.referencesBy i = [r] ∧ r.use = .readType
  | .statement | .body | .expression | .type | .declarator => m.definitionsBy i = [] ∧
    ∃ r, m.referencesBy i = [r] ∧ r.use.isType = false ∧ r.use.isInitialization = false

/-- The tables hold about every name of a tree what goes with its slot. -/
structure SeesNames (m : ScopeTables) (t : Tree) : Prop where
  /-- Every name has a slot in the node above it. -/
  slot : ∀ i c, t.node? i = some c → c.kind.isIdentifier = true →
    ∃ p n slot, t.parent? i = some p ∧ t.node? p = some n ∧ (slot, c) ∈ n.parts
  /-- The tables hold what goes with the slot. -/
  holds : ∀ p n slot c, t.node? p = some n → (slot, c) ∈ n.parts → c.kind.isIdentifier = true →
    m.Holds c.id slot

theorem ofUse_ne_declared (use : Use) : Sighting.ofUse use ≠ .declared := by
  cases use <;> exact fun h => nomatch h

theorem ofUse_eq_given {use : Use} {value : NodeId} (h : Sighting.ofUse use = .given value) :
    use = .firstWrite value := by
  cases use <;> cases h
  rfl

theorem ofUse_eq_namesType {use : Use} (h : Sighting.ofUse use = .namesType) : use = .readType := by
  cases use <;> cases h
  rfl

theorem ofUse_eq_used {use : Use} (h : Sighting.ofUse use = .used) :
    use.isType = false ∧ use.isInitialization = false := by
  cases use <;> cases h <;> exact ⟨rfl, rfl⟩

/-- What the tables hold about a name goes with its slot when the definitions and the references of the name
are what the slot says. -/
theorem holds_of_perm {m : ScopeTables} {i : NodeId} {slot : Slot (Node Place)}
    (h : ((m.definitionsBy i).map (fun _ => Sighting.declared) ++
      (m.referencesBy i).map fun r => Sighting.ofUse r.use).Perm slot.sightings) : m.Holds i slot := by
  have hdefinitions : (m.definitionsBy i).length = slot.sightings.count .declared := by
    have hreferences : ((m.referencesBy i).map fun r => Sighting.ofUse r.use).count .declared = 0 := by
      refine List.count_eq_zero.mpr fun hmem => ?_
      obtain ⟨r, -, hr⟩ := List.mem_map.mp hmem
      exact ofUse_ne_declared r.use hr
    rw [← h.count_eq, List.count_append, List.map_const', List.count_replicate_self, hreferences]
    rfl
  have hreferences : ((m.referencesBy i).map fun r => Sighting.ofUse r.use).Perm
      (slot.sightings.filter (· ≠ .declared)) := by
    refine .trans (.of_eq ?_) (h.filter _)
    rw [List.filter_append, List.map_const', List.filter_replicate_of_neg (by simp), List.nil_append]
    refine (List.filter_eq_self.mpr fun s hs => ?_).symm
    obtain ⟨r, -, rfl⟩ := List.mem_map.mp hs
    exact decide_eq_true (ofUse_ne_declared r.use)
  have hnone : ((m.referencesBy i).map fun r => Sighting.ofUse r.use).Perm [] → m.referencesBy i = [] := fun h =>
    List.map_eq_nil_iff.mp h.eq_nil
  have hone : ∀ {s}, ((m.referencesBy i).map fun r => Sighting.ofUse r.use).Perm [s] →
      ∃ r, m.referencesBy i = [r] ∧ Sighting.ofUse r.use = s := fun h =>
    List.map_eq_singleton_iff.mp (List.perm_singleton.mp h)
  cases slot with
  | member => exact ⟨List.length_eq_zero_iff.mp hdefinitions, hnone hreferences⟩
  | name | parameter => exact ⟨List.length_eq_one_iff.mp hdefinitions, hnone hreferences⟩
  | binding value? =>
    cases value? with
    | none => exact ⟨List.length_eq_one_iff.mp hdefinitions, hnone hreferences⟩
    | some value =>
      obtain ⟨r, hr, huse⟩ := hone hreferences
      exact ⟨List.length_eq_one_iff.mp hdefinitions, r, hr, ofUse_eq_given huse⟩
  | typeName =>
    obtain ⟨r, hr, huse⟩ := hone hreferences
    exact ⟨List.length_eq_zero_iff.mp hdefinitions, r, hr, ofUse_eq_namesType huse⟩
  | statement | body | expression | type | declarator =>
    obtain ⟨r, hr, huse⟩ := hone hreferences
    exact ⟨List.length_eq_zero_iff.mp hdefinitions, r, hr, ofUse_eq_used huse⟩

/-- The definitions and the references of a name are what the graph holds about it. -/
theorem Shows.perm_sightings {m : ScopeTables} {g : ScopeGraph} (h : m.Shows g) (hg : g.Shaped) (i : NodeId) :
    ((m.definitionsBy i).map (fun _ => Sighting.declared) ++
      (m.referencesBy i).map fun r => Sighting.ofUse r.use).Perm
      ((g.sightings.filter (·.1 = i)).map (·.2)) := by
  have hvars : m.vars.toList.flatMap (·.definitions) = g.vars.toList.flatMap (·.definitions) := by
    rw [← h.vars, Array.toList_map, List.flatMap_map]
  have hdefinitions := (hg.perm_definitions.filter (·.name = i)).map fun _ => Sighting.declared
  rw [← hvars, List.filter_map, List.map_map] at hdefinitions
  rw [ScopeGraph.sightings, List.filter_append, List.filter_map, List.filter_map, List.map_append, List.map_map,
    List.map_map, referencesBy, h.references]
  exact hdefinitions.append_right _

/-- The tables of a grammatical program hold about every name what goes with its slot. -/
theorem seesNames_ofTree {t : Tree} (ht : t.Indexed) (hgrammatical : t.root.Grammatical) (options : Options) :
    (ofTree options t).SeesNames t where
  slot i c hc hidentifier := by
    obtain ⟨hmem, rfl⟩ := ht.node?_iff.mp hc
    rcases List.mem_append.mp ((t.root.perm_nodes.mem_iff (a := c)).mpr hmem) with hchild | hroot
    · obtain ⟨n, hn, hchild⟩ := List.mem_flatMap.mp hchild
      have hparent := ht.parent?_id hn hchild
      rw [← Node.map_snd_parts] at hchild
      obtain ⟨⟨slot, c⟩, hpart, rfl⟩ := List.mem_map.mp hchild
      exact ⟨n.id, n, slot, hparent, ht.node?_id hn, hpart⟩
    · rw [List.mem_singleton.mp hroot, ht.program] at hidentifier
      cases hidentifier
  holds p n slot c hn hpart hidentifier := by
    have hnodup : ((t.root.nodes.flatMap Node.parts).map fun part => part.2.id).Nodup := by
      have h := ht.nodup_children
      rw [List.map_flatMap] at h ⊢
      simpa only [← Node.map_snd_parts, List.map_map, Function.comp_def] using h
    have hseen : t.root.seen.filter (·.1 = c.id) = c.seenAs slot := by
      rw [Node.seen, ← List.flatMap_assoc]
      refine filter_flatMap_of_nodup (fun part y hy => ?_) hnodup (b := (slot, c))
        (List.mem_flatMap.mpr ⟨n, (ht.node?_iff.mp hn).1, hpart⟩)
      rw [Node.seenAs] at hy
      split at hy
      · obtain ⟨s, -, rfl⟩ := List.mem_map.mp hy
        rfl
      · cases hy
    have hperm := (ScopeGraph.perm_sightings_ofTree options t).trans
      (perm_sightings_ofProgram options ht hgrammatical)
    have hslot := (hperm.filter (·.1 = c.id)).map (·.2)
    rw [hseen, Node.seenAs, if_pos hidentifier, List.map_map] at hslot
    refine holds_of_perm (((shows_ofTree options t).perm_sightings (ScopeGraph.shaped_ofTree options t) c.id).trans
      (hslot.trans (.of_eq ?_)))
    exact List.map_id _

end ScopeTables

end Scoping

end ScriptAnalysis

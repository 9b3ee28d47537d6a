import ScriptAnalysis.Proofs.Names.Referents

/-!
# What symbols are declared as

A symbol is what its first declaration makes it, and later declarations leave it that
(`IsRead.declaresAs_of_symbol`): a name for a type is first declared by a node that names a type, and so on for
variables and functions. What binding reports are names that are declared again, and nothing else
(`IsRead.exists_conflict`).
-/

namespace ScriptAnalysis

open Names (Referred Outline)
open Semantics (Binding Declaration Symbol SymbolKind)
open Semantics.Binding
open Syntax (Ident Kind Node NodeId Place Tree VariableKind)

namespace Syntax

/-- Whether a node declares something of a kind. -/
def Kind.declaresAs {ν β : Type} : Kind ν β → SymbolKind → Bool
  | variableDeclaration .., .functionVariable | variableDeclaration .., .blockVariable
  | variableDeclaration .., .constant | parameter .., .functionVariable | functionDeclaration .., .function
  | typeAlias .., .typeAlias => true
  | _, _ => false

namespace Node

/-! ### What an outline declares -/

/-- The node declares what the declaration says. -/
def Declares (n : Node Place) (d : Declaration) : Prop := n.id = d.node ∧ n.kind.declaresAs d.kind = true

variable {n : Node Place} {ns : List (Node Place)} {d : Declaration}

theorem declarations_outlineList (ns : List (Node Place)) :
    (outlineList ns).declarations = ns.flatMap (·.outline.declarations) := by
  induction ns with
  | nil =>
    rw [outlineList]
    rfl
  | cons n ns ih => rw [outlineList, Outline.declarations_append, ih, List.flatMap_cons]

theorem declarations_outlineOption (n? : Option (Node Place)) :
    (outlineOption n?).declarations = n?.toList.flatMap (·.outline.declarations) := by
  cases n? with
  | none =>
    rw [outlineOption]
    rfl
  | some n => simp [outlineOption]

theorem declarations_outlineBody (n : Node Place) : n.outlineBody.declarations = n.outline.declarations := by
  obtain ⟨l, k⟩ := n
  cases k with
  | block body =>
    rw [outlineBody, outline]
    simp [Outline.declarations]
  | _ => simp [outlineBody]

@[simp] theorem declarations_outlineInitial (name : Ident Place) (init? : Option (Node Place)) :
    (outlineInitial name init?).declarations = [] := by
  cases init? <;> rfl

/-- What is declared along with a variable or a parameter is declared in it or comes later. -/
theorem mem_declarations_declarator {l : Place} {k : Kind (Ident Place) (Node Place)} {name : Ident Place}
    {type? init? : Option (Node Place)} {rest : Outline Declaration (Referred Place)}
    (hk : k = .variableDeclaration name type? init? ∨ k = .parameter name type? init?)
    (h : d ∈ (outlineOption type? ++ (outlineInitial name init? ++ (outlineOption init? ++ rest))).declarations) :
    d ∈ (mk l k).outline.declarations ∨ d ∈ rest.declarations := by
  have hself : (mk l k).outline = outlineOption type? ++ outlineOption init? := by
    rcases hk with rfl | rfl <;> rw [outline]
  rw [hself]
  simpa only [Outline.declarations_append, declarations_outlineInitial, List.nil_append, List.mem_append,
    or_assoc] using h

/-- The variables of a statement declare themselves, and there may be declarations in them. -/
theorem mem_declarations_outlineVariables {keyword : VariableKind}
    (h : d ∈ (outlineVariables keyword ns).declarations) :
    ∃ c ∈ ns, d ∈ c.outline.declarations ∨ c.Declares d := by
  induction ns with
  | nil =>
    rw [outlineVariables] at h
    exact absurd h List.not_mem_nil
  | cons c ns ih =>
    rw [List.exists_mem_cons_iff]
    obtain ⟨l, k⟩ := c
    cases k with
    | variableDeclaration name type? init? =>
      rw [outlineVariables, Outline.declarations, List.mem_cons] at h
      rcases h with rfl | h
      · refine .inl (.inr ⟨rfl, ?_⟩)
        cases keyword <;> rfl
      · exact (mem_declarations_declarator (.inl rfl) h).imp .inl ih
    | _ => exact .inr (ih (by simpa [outlineVariables] using h))

/-- The parameters of a function declare themselves, and there may be declarations in them. -/
theorem mem_declarations_outlineParams (h : d ∈ (outlineParams ns).declarations) :
    ∃ c ∈ ns, d ∈ c.outline.declarations ∨ c.Declares d := by
  induction ns with
  | nil =>
    rw [outlineParams] at h
    exact absurd h List.not_mem_nil
  | cons c ns ih =>
    rw [List.exists_mem_cons_iff]
    obtain ⟨l, k⟩ := c
    cases k with
    | parameter name type? init? =>
      rw [outlineParams, Outline.declarations, List.mem_cons] at h
      rcases h with rfl | h
      · exact .inl (.inr ⟨rfl, rfl⟩)
      · exact (mem_declarations_declarator (.inr rfl) h).imp .inl ih
    | _ => exact .inr (ih (by simpa [outlineParams] using h))

/-- What the outline of a node declares is declared by the node, by one of its children or in one of them. -/
theorem mem_declarations_outline (h : d ∈ n.outline.declarations) :
    n.Declares d ∨ ∃ c ∈ n.children, d ∈ c.outline.declarations ∨ c.Declares d := by
  obtain ⟨l, k⟩ := n
  change _ ∨ ∃ c ∈ (k.map Ident.toNode fun n => n).children, _
  cases k <;> rw [outline] at h <;> simp [Outline.declarations, declarations_outlineList,
    declarations_outlineOption, declarations_outlineBody, Kind.map, Kind.children] at h ⊢
  case variableStatement => exact .inr (mem_declarations_outlineVariables h)
  case functionDeclaration name params returnType? body =>
    rcases h with rfl | h | h
    · exact .inl ⟨rfl, rfl⟩
    · have hparams : d ∈ (outlineParams params).declarations → _ := mem_declarations_outlineParams
      grind
    · grind
  case typeAlias name type =>
    rcases h with rfl | h
    · exact .inl ⟨rfl, rfl⟩
    · grind
  case arrowFunction params returnType? body =>
    have hparams : d ∈ (outlineParams params).declarations → _ := mem_declarations_outlineParams
    grind
  all_goals grind

/-- Whatever the outline of a node declares is declared by a node in it. -/
theorem exists_declares_of_mem_outline (h : d ∈ n.outline.declarations) : ∃ m ∈ n.nodes, m.Declares d := by
  induction n using induction_children with
  | h n ih =>
    rcases mem_declarations_outline h with hself | ⟨c, hc, hd | hself⟩
    · exact ⟨n, n.mem_nodes_self, hself⟩
    · obtain ⟨m, hm, hdeclares⟩ := ih c hc hd
      exact ⟨m, nodes_subset_of_mem_children hc hm, hdeclares⟩
    · exact ⟨c, nodes_subset_of_mem_children hc c.mem_nodes_self, hself⟩

end Node

end Syntax

namespace Semantics.Binding

/-! ### What the steps of binding keep -/

/-- A symbol is what its first declaration, one of `ds`, makes it, and what is reported are names that are declared
again. -/
structure State.Originates (ds : List Declaration) (s : State) : Prop where
  symbol : ∀ (index : Nat) (symbol : Symbol), s.binding.symbols[index]? = some symbol →
    ∃ d ∈ ds, symbol.firstDeclaration? = some d.node ∧ symbol.kind = d.kind
  conflict : ∀ c ∈ s.binding.conflicts, ∃ name old new, conflict? name old new = some c.cause

namespace State.Originates

variable {ds : List Declaration} {s : State} {d : Declaration}

theorem declare (h : s.Originates ds) (hd : d ∈ ds) : (s.declare d).Originates ds := by
  cases hframes : s.frames with
  | nil => rwa [declare_of_no_scope hframes]
  | cons frame frames =>
  by_cases hname : d.name.text = ""
  · rwa [declare_of_missing hname]
  cases hindex : frame.lookup? d.kind.isType d.name.text with
  | some index =>
    rw [State.declare, hframes]
    simp only [if_neg hname, hindex]
    constructor
    · intro i symbol hsymbol
      rw [Array.getElem?_modify] at hsymbol
      split at hsymbol
      · obtain ⟨old, hold, rfl⟩ := Option.map_eq_some_iff.mp hsymbol
        obtain ⟨d', hd', hfirst, hkind⟩ := h.symbol i old hold
        refine ⟨d', hd', ?_, hkind⟩
        rw [Symbol.firstDeclaration?] at hfirst ⊢
        rw [List.head?_append, hfirst, Option.some_or]
      · exact h.symbol i symbol hsymbol
    · dsimp only
      split
      · rename_i cause hcause
        exact List.forall_mem_cons.mpr ⟨⟨_, _, _, hcause⟩, h.conflict⟩
      · exact h.conflict
  | none =>
    rw [declare_eq_of_none hframes hname hindex]
    refine ⟨fun i symbol hsymbol => ?_, h.conflict⟩
    dsimp only at hsymbol
    rw [Array.getElem?_push] at hsymbol
    split at hsymbol
    · obtain rfl := Option.some.inj hsymbol
      exact ⟨d, hd, rfl, rfl⟩
    · exact h.symbol i symbol hsymbol

theorem refer (h : s.Originates ds) (isType : Bool) (name : Ident Place) : (s.refer isType name).Originates ds := by
  refine ⟨by rw [symbols_refer]; exact h.symbol, ?_⟩
  rw [State.refer]
  split
  · exact h.conflict
  dsimp only
  split
  · exact h.conflict
  · split <;> exact h.conflict

end State.Originates

theorem originates_walks {late : Bool} {o : Outline Declaration (Referred Place)} {s s' : State}
    (h : o.Walks List.Sublist late s s') (hs : s.Originates o.declarations) : s'.Originates o.declarations :=
  h.preserves (fun _ hd _ hs => hs.declare hd) (fun _ _ _ hs => hs.refer _ _) (fun _ hs => ⟨hs.symbol, hs.conflict⟩)
    (fun _ hs => ⟨hs.symbol, hs.conflict⟩) (List.Subset.refl _) (List.Subset.refl _) hs

/-! ### Files -/

namespace IsRead

variable {t : Tree} (ht : IsRead t)

include ht

theorem originates_after : ((bindNode t.root).after .initial).Originates t.root.outline.declarations :=
  originates_walks (Node.walks_bindNode Node.collects_any t.root ⟨ht.formed, trivial⟩ .initial)
    ⟨by simp [State.initial], by simp [State.initial]⟩

/-- **A symbol is what the node that declares it first declares.** -/
theorem declaresAs_of_symbol {index : Nat} {symbol : Symbol} (h : (ofTree t).symbols[index]? = some symbol)
    {id : NodeId} (hid : symbol.firstDeclaration? = some id) :
    ∃ n, t.node? id = some n ∧ n.kind.declaresAs symbol.kind = true := by
  obtain ⟨d, hd, hfirst, hkind⟩ := ht.originates_after.symbol index symbol h
  obtain rfl := Option.some.inj (hfirst.symm.trans hid)
  obtain ⟨n, hn, hnid, hdeclares⟩ := Node.exists_declares_of_mem_outline hd
  exact ⟨n, (ht.node?_iff _ _).mpr ⟨hn, hnid⟩, hkind ▸ hdeclares⟩

/-- Binding reports names that are declared again, and nothing else. -/
theorem exists_conflict {c : Semantics.Diagnostic} (h : c ∈ (ofTree t).conflicts) :
    ∃ name old new, conflict? name old new = some c.cause :=
  ht.originates_after.conflict c (List.mem_reverse.mp h)

end IsRead

end Semantics.Binding

end ScriptAnalysis

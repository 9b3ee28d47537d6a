import ScriptAnalysis.Proofs.Names.Binding
import ScriptAnalysis.Proofs.Names.Headers
import ScriptAnalysis.Proofs.Names.Origins
import ScriptAnalysis.Proofs.Session.History

/-!
# Binding and scope analysis agree

A name is resolved twice: binding resolves it in the file's own tree, and scope analysis in the common tree.
Both go by the outline of the file, so they agree wherever scope analysis follows the outline and binding
does: outside the headers of functions, and when no declaration stands right under a condition or a loop
(`agrees_ofTree`). `Session.agrees_parse_run` says the same of the answers of a session.
-/

namespace ScriptAnalysis

open Ast (Conversion Settings)
open Names (Declared Referred meaning? outlineOf)
open Scoping (ScopeGraph)
open Semantics (Binding Symbol View)
open Syntax (Node NodeId Place Tree)

/-! ### Symbols of identifiers -/

namespace Semantics.View

variable {v : View}

/-- A node that binding gives a symbol has that symbol. -/
theorem symbolAt?_of_symbol? {binding : Binding} (hbinding : v.binding? = some binding)
    {l : Place} {text : String} (hnode : v.tree.node? l.id = some (.mk l (.identifier text)))
    {symbol : Symbol} (hsymbol : binding.symbol? l.id = some symbol) :
    v.symbolAt? l.id = some symbol := by
  rw [symbolAt?, hnode]
  show v.identifierSymbol? l.id text = some symbol
  rw [identifierSymbol?, hbinding]
  simp only [Option.bind_eq_bind, Option.bind_some, hsymbol]

/-- What binding knows nothing of is no symbol of the file. -/
theorem not_localSymbol_of_symbol?_eq_none {binding : Binding} (hbinding : v.binding? = some binding)
    {l : Place} {text : String} (hnode : v.tree.node? l.id = some (.mk l (.identifier text)))
    (hnone : binding.symbol? l.id = none) {symbol : Symbol} (hsymbol : v.symbolAt? l.id = some symbol)
    (index : Nat) : symbol.id ≠ .localSymbol index := by
  rw [symbolAt?, hnode] at hsymbol
  replace hsymbol : v.identifierSymbol? l.id text = some symbol := hsymbol
  rw [identifierSymbol?, hbinding] at hsymbol
  simp only [Option.bind_eq_bind, Option.bind_some, hnone] at hsymbol
  split at hsymbol
  · -- a member of an object of the environment
    split at hsymbol
    · obtain ⟨_, -, rfl⟩ := Option.map_eq_some_iff.mp hsymbol
      exact SymbolId.noConfusion
    · cases hsymbol
  · split at hsymbol
    · obtain ⟨_, -, rfl⟩ := Option.map_eq_some_iff.mp hsymbol
      exact SymbolId.noConfusion
    · cases hsymbol

end Semantics.View

/-! ### Both resolutions -/

/-- A reference means the same to scope analysis and to binding: it has the symbol of a declared name of
the variable that it refers to, and no symbol when it refers to none. -/
structure Names.Agrees (g : ScopeGraph) (r : Scoping.Reference) (symbol? : Ast.NodeId → Option Symbol) :
    Prop where
  resolved : ∀ v, r.target? = some v → ∃ x symbol index, g.vars[v]? = some x ∧
    symbol.id = .localSymbol index ∧ symbol? r.identifier = some symbol ∧
    ∃ name ∈ x.identifiers, symbol? name = some symbol
  unresolved : r.target? = none → ∀ symbol, symbol? r.identifier = some symbol →
    ∀ index, symbol.id ≠ .localSymbol index

/-- The common node that the reference of an outline of a common tree stands for is in no header unless
the reference is. -/
theorem Names.not_mem_headerReferences {t : Ast.Tree} {l : Ast.Place} {body : List (Ast.Node Ast.Place)}
    (hroot : t.root = .mk l (.program body)) {x : Referred Ast.NodeId}
    (hx : ∀ m ∈ t.root.headerNodes, m.id ≠ x.label) : x ∉ (outlineOf t).headerReferences := by
  intro hmem
  have hbody : outlineOf t = t.root.outline.relabel Ast.Place.id := by
    rw [outlineOf, Ast.Tree.body, hroot, Ast.Node.outline]
    rfl
  rw [hbody, Names.Outline.relabel, Names.Outline.headerReferences_map, List.mem_map] at hmem
  obtain ⟨y, hy, rfl⟩ := hmem
  have hin : Ast.Node.HeadersIn (fun l => ∃ m ∈ t.root.headerNodes, m.label = l) t.root.outline :=
    Ast.Node.headersIn_outline (fun m hm => ⟨m, hm, rfl⟩) fun _ hm => hm
  obtain ⟨m, hm, hlabel⟩ := hin y hy
  exact hx m hm (congrArg Ast.Place.id hlabel)

section

variable {fileName text : String} {settings : Settings} {conversion : Conversion}

/-- **Binding and scope analysis agree** on every reference that gives no first value and stands in no
header of a function, when no declaration stands right under a condition or a loop. -/
theorem agrees_ofTree (h : Conversion.ofTree (.parse fileName text) settings = .ok conversion)
    (hmaps : settings.nodeMaps = true) (hblocked : (Tree.parse fileName text).root.Blocked)
    {v : View} (htree : v.tree = .parse fileName text)
    (hbinding : v.binding? = some (.ofTree (.parse fileName text))) (options : Scoping.Options)
    {i : Nat} {r : Scoping.Reference}
    (hr : (ScopeGraph.ofTree options conversion.tree).references[i]? = some r)
    (hinitial : r.use.isInitialization = false)
    (hheader : ∀ m ∈ conversion.tree.root.headerNodes, m.id ≠ r.identifier) :
    Names.Agrees (ScopeGraph.ofTree options conversion.tree) r
      fun node => (conversion.maps.origin? node).bind v.symbolAt? := by
  obtain ⟨x, ⟨hidentifier, hx⟩, hcases⟩ := Names.reference_ofTree options conversion.tree hr
  obtain ⟨f, -, hroot, -⟩ := Conversion.of_ofTree_eq_ok h
  obtain ⟨l, body, hprogram⟩ := Names.number_program f (.parse fileName text)
  have hnot := Names.not_mem_headerReferences (hroot.trans hprogram) (hidentifier ▸ hheader)
  obtain ⟨around, hname, hmem, hsome, hnone⟩ := hcases.resolve_left hnot
  obtain ⟨y, hy, hlabel, haround⟩ := Names.exists_occurrence h hmaps hmem
  have hfields : conversion.maps.origin? x.label = some y.1.label.id ∧ x.name = y.1.name ∧
      x.isInitial = y.1.isInitial := by
    have := hlabel
    simp only [Referred.map, Referred.mk.injEq] at this
    exact ⟨this.1, this.2.1, this.2.2.2⟩
  obtain ⟨horigin, hyname, hyinitial⟩ := hfields
  replace hyinitial : y.1.isInitial = false := hyinitial.symm.trans (hx.symm.trans hinitial)
  have hanswers := Binding.answers_ofTree hblocked hy hyinitial (hyname ▸ hname)
  generalize Binding.ofTree (.parse fileName text) = binding at hbinding hanswers
  obtain ⟨hyidentifier, hscopes⟩ := Names.Outline.mem_names_of_mem_occurrences hy
  have hnodes : ∀ m ∈ (Tree.parse fileName text).root.outline.names, v.tree.node? m.id = some m := by
    intro m hm
    rw [htree]
    exact Tree.node?_id fileName text (Node.mem_nodes_of_mem_names hm)
  have hnode : v.tree.node? y.1.label.id = some (.mk y.1.label (.identifier y.1.name)) :=
    hnodes _ (hyidentifier hyinitial)
  -- what the name means is the same in both outlines
  have hmeaning := Names.meaning?_map conversion.maps.origin? conversion.maps.origin? around x
  rw [haround, hlabel, Names.meaning?_map] at hmeaning
  have hsymbolAt : (conversion.maps.origin? r.identifier).bind v.symbolAt? =
      v.symbolAt? y.1.label.id := by
    rw [hidentifier, horigin, Option.bind_some]
  constructor
  · intro w hw
    obtain ⟨z, ds, hz, hds, d, hd, hdanswers, hdlabel⟩ := hsome w hw
    rw [hds, Option.map_some, Option.map_eq_some_iff] at hmeaning
    obtain ⟨ds', hds', hmap⟩ := hmeaning
    obtain ⟨symbol, index, hid, hsymbol, hall⟩ := hanswers.resolved ds' hds'
    have hd' : d.map conversion.maps.origin? ∈ ds'.map (·.map some) :=
      hmap ▸ List.mem_map_of_mem hd
    obtain ⟨d', hd', hmapd⟩ := List.mem_map.mp hd'
    have hdanswers' : d'.answers (y.1.map Place.id) = true := by
      rw [← Declared.map_answers_map some some, hmapd, ← hlabel, Declared.map_answers_map]
      exact hdanswers
    have hdorigin : conversion.maps.origin? d.label = some d'.label :=
      (congrArg Declared.label hmapd).symm
    -- the declared name is an identifier of the file
    obtain ⟨es, hes, rfl⟩ := List.mem_map.mp (Names.mem_of_meaning? hds')
    obtain ⟨e, he, rfl⟩ := List.mem_map.mp hd'
    have hename := ((hscopes es hes).resolve_left List.not_mem_nil) e he
    have henode : v.tree.node? e.name.label.id = some (.mk e.name.label (.identifier e.name.text)) :=
      hnodes _ hename
    refine ⟨z, symbol, index, hz, hid, ?_, d.label, hdlabel, ?_⟩
    · rw [hsymbolAt]
      exact View.symbolAt?_of_symbol? hbinding hnode hsymbol
    · rw [hdorigin, Option.bind_some]
      exact View.symbolAt?_of_symbol? hbinding henode (hall _ hd' hdanswers')
  · intro hw symbol hsymbol index
    rw [hnone hw, Option.map_none, Option.map_eq_none_iff] at hmeaning
    rw [hsymbolAt] at hsymbol
    exact View.not_localSymbol_of_symbol?_eq_none hbinding hnode (hanswers.unresolved hmeaning)
      hsymbol index

end

/-! ### Answers of a session -/

namespace Session

open Project (FileStore)
open Semantics (Program)

/-- **Names mean the same to the scopes and to the services of an answer.** A request to read a text without
syntax errors, in which no declaration stands right under a condition or a loop, is answered after any other
requests. However its scopes are analysed, every reference that gives no first value and stands in no header
of a function has the symbol of a declared name of its variable, which is a symbol of the file; a reference
without a variable has no symbol of the file. -/
theorem agrees_parse_run {store : FileStore} {config : Config} {s : Session}
    (h : ofConfig store config = .ok s) (requests : List Request) (text : String)
    (options : ParserOptions)
    (herrors : (Tree.parse options.path (sourceText text)).errors = [])
    (hblocked : (Tree.parse options.path (sourceText text)).root.Blocked) :
    ∃ answer, ((s.run requests).parse text options).1 = .ok answer ∧
      ∀ (scoping : Scoping.Options) (i : Nat) (r : Scoping.Reference),
        (ScopeGraph.ofTree scoping answer.ast).references[i]? = some r →
        r.use.isInitialization = false →
        (∀ m ∈ answer.ast.root.headerNodes, m.id ≠ r.identifier) →
        Names.Agrees (ScopeGraph.ofTree scoping answer.ast) r answer.services.symbolAt? := by
  obtain ⟨files, hfile, hanswer, -⟩ := exists_parse (sound_run h requests) text options
  obtain ⟨conversion, hconversion⟩ := Conversion.exists_ofTree herrors
    { code := sourceText text, filePath := options.path }
  rw [answer_eq hfile, hconversion] at hanswer
  refine ⟨_, hanswer, fun scoping i r hr hinitial hheader => ?_⟩
  refine agrees_ofTree hconversion rfl hblocked rfl ?_ scoping hr hinitial hheader
  show ((Program.ofFiles _ files).file? options.path).map (·.binding) = _
  rw [hfile]
  rfl

set_option maxRecDepth 20000 in
/-- After a request that failed, a reference to a variable that is declared later and one to no variable. -/
theorem agrees_parse_forward_reference :
    ∃ s answer r r', ofConfig {} Table.empty = .ok s ∧
      ((s.run [.parse "let" {}]).parse "function f(b) { a; } var a = c;" {}).1 = .ok answer ∧
      (ScopeGraph.ofTree {} answer.ast).references[0]? = some r ∧ r.target? = some 2 ∧
      (ScopeGraph.ofTree {} answer.ast).references[2]? = some r' ∧ r'.target? = none ∧
      Names.Agrees (ScopeGraph.ofTree {} answer.ast) r answer.services.symbolAt? ∧
      Names.Agrees (ScopeGraph.ofTree {} answer.ast) r' answer.services.symbolAt? := by
  have hnew : ofConfig {} Table.empty =
      .ok { environment := { store := {}, config := .empty, options := {} } } := rfl
  obtain ⟨answer, hanswer, hagrees⟩ := agrees_parse_run hnew [.parse "let" {}]
    "function f(b) { a; } var a = c;" {} (by decide +kernel) (by rw [Node.Blocked]; decide +kernel)
  have hvalue : ((Session.run { environment := { store := {}, config := .empty, options := {} } }
      [.parse "let" {}]).parse "function f(b) { a; } var a = c;" {}).1.toOption.any (fun a =>
        decide ((ScopeGraph.ofTree {} a.ast).references[0]? = some ⟨2, "a", 2, .read, some 2⟩ ∧
          (ScopeGraph.ofTree {} a.ast).references[2]? = some ⟨7, "c", 1, .read, none⟩ ∧
          a.ast.root.headerNodes.map Ast.Node.id = [1])) = true := by
    decide +kernel
  rw [hanswer] at hvalue
  obtain ⟨hr, hr', hheader⟩ := of_decide_eq_true hvalue
  have hoff {id : Nat} (hid : id ≠ 1) : ∀ m ∈ answer.ast.root.headerNodes, m.id ≠ id := by
    intro m hm h
    have hmem := List.mem_map_of_mem (f := Ast.Node.id) hm
    rw [hheader, h] at hmem
    exact hid (List.mem_singleton.mp hmem)
  exact ⟨_, answer, _, _, hnew, hanswer, hr, rfl, hr', rfl,
    hagrees {} 0 _ hr rfl (hoff (by decide)), hagrees {} 2 _ hr' rfl (hoff (by decide))⟩

end Session

end ScriptAnalysis

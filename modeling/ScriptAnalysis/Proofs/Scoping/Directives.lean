import ScriptAnalysis.Proofs.Ast.NodeMaps
import ScriptAnalysis.Proofs.Names.Conversion
import ScriptAnalysis.Proofs.Scoping.Coherence
import ScriptAnalysis.Proofs.Scoping.Strictness
import ScriptAnalysis.Proofs.Syntax.Functions

/-!
# Directives

A program or a function asks for the strict rules with a directive at its front: a statement that is nothing but
a string. The file's tree tells a string from one in parentheses, the common tree does not. So scope analysis
follows the strings at the front of programs and functions, with or without parentheses around them, and it
follows the directives in files where no statement is a string in parentheses (`FollowsStrings`).
-/

namespace ScriptAnalysis

open Ast (Conversion Origin Settings convert convertList)

/-! ### What stands at the front -/

namespace Syntax

variable {α : Type}

/-- The statements of a block. -/
def Node.statements (n : Node α) : List (Node α) :=
  match n.kind with
  | .block ss => ss
  | _ => []

/-- The statements that a file or a function runs. -/
def Node.ownStatements (n : Node α) : List (Node α) :=
  match n.kind with
  | .sourceFile ss => ss
  | .functionDeclaration _ _ _ body | .arrowFunction _ _ body => body.statements
  | _ => []

/-- An expression without the parentheses around it. -/
def Node.unwrapped : Node α → Node α
  | .mk _ (.parenthesized e) => e.unwrapped
  | n => n

/-- A string as it is written. -/
def Tree.stringText? (t : Tree) (n : Node Place) : Option String :=
  match n.kind with
  | .stringLiteral _ => some (t.textOf n)
  | _ => none

/-- The string that a statement consists of, without parentheses around it. -/
def Tree.directive? (t : Tree) (s : Node Place) : Option String :=
  match s.kind with
  | .expressionStatement e => t.stringText? e
  | _ => none

/-- The string that a statement consists of, in any number of parentheses. -/
def Tree.stringStatement? (t : Tree) (s : Node Place) : Option String :=
  match s.kind with
  | .expressionStatement e => t.stringText? e.unwrapped
  | _ => none

variable {role : Role} {n s : Node α}

theorem Node.mem_parts_of_mem_ownStatements (h : s ∈ n.ownStatements) :
    (Role.statement, s) ∈ n.kind.parts ∨
      ∃ body, n.kind.body? = some body ∧ body.kind.isBlock = true ∧ (Role.statement, s) ∈ body.kind.parts := by
  have hbody : ∀ {body : Node α}, s ∈ body.statements →
      body.kind.isBlock = true ∧ (Role.statement, s) ∈ body.kind.parts := by
    rintro ⟨l, k⟩ h
    cases k <;> simp [statements] at h
    simp [Kind.isBlock, Kind.parts, h]
  obtain ⟨l, k⟩ := n
  cases k <;> simp only [ownStatements, Node.kind_mk, List.not_mem_nil] at h
  case sourceFile ss => exact .inl (List.mem_map_of_mem h)
  all_goals exact .inr ⟨_, rfl, hbody h⟩

/-- What a function or a file runs are statements. -/
theorem Node.Formed.of_mem_ownStatements (h : n.Formed role) (hs : s ∈ n.ownStatements) : s.Formed .statement := by
  obtain hpart | ⟨body, hbody, hblock, hpart⟩ := mem_parts_of_mem_ownStatements hs
  · exact h.of_mem_parts hpart
  · exact (h.of_body? hbody hblock).of_mem_parts hpart

theorem Node.mem_nodes_of_mem_ownStatements (hs : s ∈ n.ownStatements) : s ∈ n.nodes := by
  have hparts : ∀ {n : Node α}, (Role.statement, s) ∈ n.kind.parts → s ∈ n.nodes := by
    rintro ⟨l, k⟩ hpart
    exact nodes_subset_of_mem_children (mem_children_of_mem_parts hpart) s.mem_nodes_self
  obtain hpart | ⟨body, hbody, -, hpart⟩ := mem_parts_of_mem_ownStatements hs
  · exact hparts hpart
  · exact nodes_subset_of_mem_children (mem_children_of_body? hbody) (hparts hpart)

theorem Node.kind_unwrapped_ne (n e : Node α) : n.unwrapped.kind ≠ .parenthesized e := by
  induction n using induction_children with
  | h n ih =>
    obtain ⟨l, k⟩ := n
    cases k with
    | parenthesized e =>
      rw [unwrapped]
      exact ih e List.mem_cons_self
    | _ => simp [unwrapped]

/-- A directive is a string statement. -/
theorem Tree.stringStatement?_of_directive? {t : Tree} {s : Node Place} {text : String}
    (h : t.directive? s = some text) : t.stringStatement? s = some text := by
  obtain ⟨l, k⟩ := s
  cases k <;> simp only [directive?, stringStatement?, Node.kind_mk, reduceCtorEq] at h ⊢
  case expressionStatement e =>
    obtain ⟨l', k'⟩ := e
    cases k' <;> simp only [stringText?, Node.kind_mk, reduceCtorEq] at h
    rw [Node.unwrapped]
    · simpa [stringText?] using h
    · simp

end Syntax

namespace Ast

variable {α β : Type}

/-- The string that a statement consists of, as it is written. -/
def Node.stringStatement? : Node α → Option String
  | .mk _ (.expressionStatement (.mk _ (.literal (.string _) raw))) => some raw
  | _ => none

theorem Node.exists_of_stringStatement? {n : Node α} {raw : String} (h : n.stringStatement? = some raw) :
    ∃ l l' value, n = .mk l (.expressionStatement (.mk l' (.literal (.string value) raw))) := by
  rw [stringStatement?.eq_def] at h
  split at h
  · cases h
    exact ⟨_, _, _, rfl⟩
  · cases h

theorem Node.stringStatement?_map (f : α → β) (n : Node α) : (n.map f).stringStatement? = n.stringStatement? := by
  obtain ⟨l, k⟩ := n
  cases k with
  | expressionStatement e =>
    obtain ⟨l', k'⟩ := e
    cases k' with
    | literal value raw => cases value <;> rfl
    | _ => rfl
  | _ => rfl

theorem Node.ownStatements_map (f : α → β) (n : Node α) :
    (n.map f).ownStatements = n.ownStatements.map (map f) := by
  have hbody : ∀ body : Node α, (body.map f).statements = body.statements.map (map f) := by
    rintro ⟨l, k⟩
    cases k <;> simp [Node.map_mk, Node.statements, Kind.map]
  obtain ⟨l, k⟩ := n
  cases k <;> simp [Node.map_mk, Node.ownStatements, Kind.map, hbody]

/-! ### The change of shape -/

section

variable {source : List Char} {role : Syntax.Role} {n s : Syntax.Node Syntax.Place}

theorem convert_unwrapped (e : Syntax.Node Syntax.Place) : convert source e.unwrapped = convert source e := by
  induction e using Syntax.Node.induction_children with
  | h e ih =>
    obtain ⟨p, k⟩ := e
    cases k with
    | parenthesized e =>
      rw [Syntax.Node.unwrapped, convert, convertKind]
      exact ih e List.mem_cons_self
    | _ => simp [Syntax.Node.unwrapped]

/-- The body of a function has the statements of its common shape. -/
theorem statements_convert (h : n.Formed .body) :
    (convert source n).statements = n.statements.map (convert source) := by
  rcases h.isBlock_or_expression with hblock | hexpression
  · obtain ⟨p, k⟩ := n
    cases k <;> simp only [Syntax.Node.kind_mk, Syntax.Kind.isBlock, Bool.false_eq_true] at hblock
    case block ss =>
      rw [convert, convertKind, convertList_eq_map]
      rfl
  · have hno := Names.kind_convert_expression_ne source hexpression
    have hfits := hexpression.fits_kind
    have hnone : n.statements = [] := by
      obtain ⟨p, k⟩ := n
      cases k with
      | block => exact absurd hfits Bool.false_ne_true
      | _ => rfl
    rw [hnone, Node.statements]
    split
    · exact absurd ‹_› (hno _)
    · rfl

/-- What a function or a file runs becomes what its common shape runs. -/
theorem ownStatements_convert (h : n.Formed role) (himage : n.kind.hasImage = true) :
    (convert source n).ownStatements = n.ownStatements.map (convert source) := by
  obtain ⟨p, k⟩ := n
  have hparts := h.parts
  rw [convert]
  cases k
  case sourceFile ss =>
    rw [convertKind, convertList_eq_map]
    rfl
  case functionDeclaration name params type? body =>
    have hbody : body.Formed .block := hparts (.block, body) (by simp [Syntax.Kind.parts])
    rw [convertKind]
    exact statements_convert (hbody.of_fits (Syntax.Kind.fits_body_of_isBlock hbody.fits_kind))
  case arrowFunction params type? body =>
    rw [convertKind]
    exact statements_convert (hparts (.body, body) (by simp [Syntax.Kind.parts]))
  case parameter name type? default? =>
    cases default? with
    | none => cases himage
    | some e => rfl
  case parenthesized e => cases himage
  all_goals rfl

/-- A statement is a string where its common shape is one. -/
theorem stringStatement?_convert {t : Syntax.Tree} (h : s.Formed .statement) :
    (convert t.text.toList s).stringStatement? = t.stringStatement? s := by
  obtain ⟨p, k⟩ := s
  have hfits := h.fits_kind
  cases k <;>
    simp only [Syntax.Node.kind_mk, Syntax.Kind.fits, Syntax.Kind.isStatement, Bool.false_eq_true] at hfits
  case expressionStatement e =>
    -- parentheses are the only expressions whose common shape is that of what is inside
    have hno := e.kind_unwrapped_ne
    rw [convert, convertKind, ← convert_unwrapped]
    change _ = t.stringText? e.unwrapped
    generalize e.unwrapped = e at hno ⊢
    obtain ⟨p', k⟩ := e
    cases k with
    | parenthesized e => exact absurd rfl (hno e)
    | parameter name type? default? => cases default? <;> rfl
    | _ => rfl
  all_goals rfl

end

end Ast

/-! ### Where the strict rules begin -/

namespace Scoping

/-- Of the texts in front of the first that is missing, one asks for the strict rules. -/
def AskForStrict (texts : List (Option String)) : Prop :=
  ∃ text ∈ texts.takeWhile Option.isSome, text = some "\"use strict\"" ∨ text = some "'use strict'"

instance (texts : List (Option String)) : Decidable (AskForStrict texts) :=
  inferInstanceAs (Decidable (∃ _ ∈ _, _))

/-- The strict rules begin with a scope: it is that of a module, or the program or function that opens it asks
for them. -/
def Scope.BeginsStrict (text? : Syntax.Node Syntax.Place → Option String) (tree : Syntax.Tree)
    (common : Ast.Tree) (x : Scope) : Prop :=
  x.type = .module ∨ (x.type = .global ∨ x.type = .function) ∧
    ∃ m ∈ common.node? x.block, ∃ n ∈ tree.node? m.origin, AskForStrict (n.ownStatements.map text?)

instance (text? : Syntax.Node Syntax.Place → Option String) (tree : Syntax.Tree) (common : Ast.Tree)
    (x : Scope) : Decidable (x.BeginsStrict text? tree common) :=
  inferInstanceAs (Decidable (_ ∨ _ ∧ ∃ _ ∈ _, ∃ _ ∈ _, _))

/-- A scope is strict when the strict rules begin with it or with one of the scopes around it. -/
def ScopeGraph.StrictBy (g : ScopeGraph) (text? : Syntax.Node Syntax.Place → Option String) (tree : Syntax.Tree)
    (common : Ast.Tree) : Prop :=
  ∀ s < g.scopes.size, g.isStrictAt s = true ↔
    ∃ u ∈ g.chain s, ∃ x ∈ g.scopes[u]?, x.BeginsStrict text? tree common

instance (g : ScopeGraph) (text? : Syntax.Node Syntax.Place → Option String) (tree : Syntax.Tree)
    (common : Ast.Tree) : Decidable (g.StrictBy text? tree common) :=
  inferInstanceAs (Decidable (∀ s < g.scopes.size, _ ↔ ∃ _ ∈ _, ∃ _ ∈ _, _))

theorem askForStrict_cons {text? : Option String} {texts : List (Option String)} :
    AskForStrict (text? :: texts) ↔ ∃ text, text? = some text ∧
      (text = "\"use strict\"" ∨ text = "'use strict'" ∨ AskForStrict texts) := by
  cases text? <;> simp [AskForStrict, or_assoc]

/-- The walk over the common tree takes the strings at the front for directives. -/
theorem Action.startsStrict_iff {ss : List (Ast.Node Ast.Place)} :
    startsStrict ss = true ↔ AskForStrict (ss.map Ast.Node.stringStatement?) := by
  induction ss with
  | nil => simp [startsStrict, AskForStrict]
  | cons s ss ih =>
    rw [List.map_cons, askForStrict_cons, ← ih]
    cases htext : s.stringStatement? with
    | some raw =>
      obtain ⟨l, l', value, rfl⟩ := Ast.Node.exists_of_stringStatement? htext
      simp [startsStrict, or_assoc]
    | none =>
      have hno : startsStrict (s :: ss) = false := by
        unfold startsStrict
        split
        · rename_i heq
          obtain ⟨rfl, rfl⟩ := List.cons.inj heq
          cases htext
        · rfl
      simp [hno]

section

variable {fileName text : String} {settings : Settings} {conversion : Conversion}

/-- What a node of the common tree runs begins with the strings that its origin begins with. -/
theorem map_stringStatement? {m : Ast.Node Ast.Place} {n : Syntax.Node Syntax.Place}
    (hn : n ∈ (Syntax.Tree.parse fileName text).root.nodes) (himage : n.kind.hasImage = true)
    (hmap : m.map Ast.Place.origin = (convert text.toList n).map Origin.node) :
    m.ownStatements.map Ast.Node.stringStatement? =
      n.ownStatements.map (Syntax.Tree.parse fileName text).stringStatement? := by
  -- the strings of both trees are compared through trees that are labelled with origins alone
  have hlabels : ∀ {α β : Type} (f : α → β) (n : Ast.Node α),
      (n.map f).ownStatements.map Ast.Node.stringStatement? = n.ownStatements.map Ast.Node.stringStatement? := by
    intro α β f n
    rw [Ast.Node.ownStatements_map, List.map_map]
    exact List.map_congr_left fun s _ => s.stringStatement?_map f
  obtain ⟨role, hformed⟩ := (Syntax.Tree.formed_root_parse fileName text).exists_role hn
  rw [← hlabels Ast.Place.origin, hmap, hlabels, Ast.ownStatements_convert hformed himage, List.map_map]
  exact List.map_congr_left fun s hs =>
    Ast.stringStatement?_convert (t := .parse fileName text) (hformed.of_mem_ownStatements hs)

/-- The node that opens a scope. -/
theorem exists_opensScope {t : Ast.Tree} (ht : t.Indexed) {options : Options} {s : ScopeId} {x : Scope}
    (hx : (ScopeGraph.ofTree options t).scopes[s]? = some x) :
    ∃ m, t.node? x.block = some m ∧ t.opensScope m = true := by
  obtain ⟨last, -, hblocks⟩ := located_ofTree ht options
  have hmem : x.block ∈ (ScopeGraph.ofTree options t).blocks :=
    List.mem_map_of_mem (Array.mem_toList_iff.mpr (Array.mem_of_getElem? hx))
  rw [hblocks, List.mem_append] at hmem
  rcases hmem with hmem | hmem
  · rw [List.eq_of_mem_replicate hmem]
    exact ⟨t.root, ht.node?_id t.root.mem_nodes_self, opensScope_root ht⟩
  · exact (sited_body ht).opensScope hmem

/-- The strict rules begin with a scope when its node says so and when the strings at its front say so. -/
theorem beginsStrict_iff (h : Conversion.ofTree (.parse fileName text) settings = .ok conversion) {options : Options}
    {s : ScopeId} {x : Scope} (hx : (ScopeGraph.ofTree options conversion.tree).scopes[s]? = some x) :
    x.BeginsStrict (Syntax.Tree.parse fileName text).stringStatement? (.parse fileName text) conversion.tree ↔
      ∃ m, conversion.tree.node? x.block = some m ∧ m.startsStrict x.type = true := by
  obtain ⟨m, hm, hopens⟩ := exists_opensScope (Conversion.indexed_ofTree h) hx
  obtain ⟨hmem, -⟩ := Conversion.of_node?_eq_some h hm
  -- what opens a scope is no ascription and no name, so it is what a node of the file has become
  have hproper : m.kind.isAscription = false := by
    cases hkind : m.kind <;> simp_all [Ast.Tree.opensScope, Ast.Kind.isAscription]
  have hname : ∀ i : Ast.Name Ast.Place (Ast.Node Ast.Place), m ≠ i.toNode := by
    rintro i rfl
    cases hopens
  obtain ⟨n, hn, himage, horigin, hmap⟩ := Conversion.exists_hasImage h hmem hproper hname
  have hnode := Syntax.Tree.node?_id fileName text hn
  rw [← horigin] at hnode
  have hasks : Action.startsStrict m.ownStatements = true ↔
      AskForStrict (n.ownStatements.map (Syntax.Tree.parse fileName text).stringStatement?) := by
    rw [Action.startsStrict_iff, map_stringStatement? hn himage hmap]
  simp only [Scope.BeginsStrict, hm, Option.mem_def, Option.some.injEq, exists_eq_left', hnode, ← hasks]
  cases x.type <;> simp [Ast.Node.startsStrict]

/-- Scope analysis follows the strings at the front of programs and functions. -/
theorem strictBy_strings (h : Conversion.ofTree (.parse fileName text) settings = .ok conversion) (options : Options) :
    (ScopeGraph.ofTree options conversion.tree).StrictBy (Syntax.Tree.parse fileName text).stringStatement?
      (.parse fileName text) conversion.tree := by
  intro s hs
  rw [ScopeGraph.isStrictAt_ofTree_iff (Conversion.indexed_ofTree h) options hs]
  refine exists_congr fun u => and_congr_right fun _ => exists_congr fun x => and_congr_right fun hx => ?_
  exact (beginsStrict_iff h hx).symm

end

/-- Where readers agree on the statements of a file the same scopes are strict. -/
theorem ScopeGraph.strictBy_congr {g : ScopeGraph} {tree : Syntax.Tree} {common : Ast.Tree}
    {text? text'? : Syntax.Node Syntax.Place → Option String}
    (htext : ∀ id n, tree.node? id = some n → n.ownStatements.map text? = n.ownStatements.map text'?) :
    g.StrictBy text? tree common ↔ g.StrictBy text'? tree common := by
  have hbegins : ∀ x : Scope, x.BeginsStrict text? tree common ↔ x.BeginsStrict text'? tree common := by
    intro x
    refine or_congr_right (and_congr_right fun _ => exists_congr fun m => and_congr_right fun _ => ?_)
    exact exists_congr fun n => and_congr_right fun hn => by rw [htext _ n hn]
  simp only [StrictBy, hbegins]

/-- In the scopes of a program the strict rules follow the strings at the front of programs and functions. -/
structure FollowsStrings (tree : Syntax.Tree) (common : Ast.Tree) (g : ScopeGraph) : Prop where
  /-- Parentheses around the strings make no difference. -/
  strings : g.StrictBy tree.stringStatement? tree common
  /-- Where no statement is a string in parentheses, the strict rules follow the directives. -/
  directives :
    (∀ s ∈ tree.root.nodes, (tree.stringStatement? s).isSome = true → (tree.directive? s).isSome = true) →
      g.StrictBy tree.directive? tree common

/-- **Where the strict rules hold.** A file without errors has a common tree. However it is analysed, a scope is
strict when it or a scope around it belongs to a module, or to a program or a function with the right string at
its front, and for the string parentheses make no difference. -/
theorem followsStrings_parse (fileName text : String) (settings : Settings) (options : Options)
    (herrors : (Syntax.Tree.parse fileName text).errors = []) :
    ∃ conversion, Conversion.ofTree (.parse fileName text) settings = .ok conversion ∧
      FollowsStrings (.parse fileName text) conversion.tree (.ofTree options conversion.tree) := by
  obtain ⟨conversion, h⟩ := Conversion.exists_ofTree herrors settings
  have hstrings := strictBy_strings h options
  refine ⟨conversion, h, hstrings, fun hdirectives => (ScopeGraph.strictBy_congr fun id n hn => ?_).mpr hstrings⟩
  refine List.map_congr_left fun s hs => ?_
  have hmem : s ∈ (Syntax.Tree.parse fileName text).root.nodes :=
    Syntax.Node.nodes_subset_of_mem_nodes (Syntax.Tree.of_node?_eq_some hn).1
      (Syntax.Node.mem_nodes_of_mem_ownStatements hs)
  cases hdirective : (Syntax.Tree.parse fileName text).directive? s with
  | some directive => exact (Syntax.Tree.stringStatement?_of_directive? hdirective).symm
  | none =>
    have hno := mt (hdirectives s hmem)
    rw [hdirective] at hno
    exact (Option.not_isSome_iff_eq_none.mp (hno Bool.false_ne_true)).symm

/-- A script that begins with a string in parentheses, run as the body of a function. -/
theorem followsStrings_parse_parenthesis :
    ∃ conversion, Conversion.ofTree (.parse "a" "('use strict'); function f() { x; }")
        (.ofTree (.parse "a" "('use strict'); function f() { x; }")) = .ok conversion ∧
      FollowsStrings (.parse "a" "('use strict'); function f() { x; }") conversion.tree
        (.ofTree { globalReturn := true, sourceType := .script } conversion.tree) :=
  followsStrings_parse "a" "('use strict'); function f() { x; }" _
    { globalReturn := true, sourceType := .script } (by decide +kernel)

set_option maxRecDepth 20000 in
/-- A string in parentheses is taken for a directive. -/
theorem not_strictBy_directives_parenthesis :
    ¬ ∀ (fileName text : String) (settings : Settings) (options : Options) (conversion : Conversion),
      (Syntax.Tree.parse fileName text).errors = [] →
      Conversion.ofTree (.parse fileName text) settings = .ok conversion →
      (ScopeGraph.ofTree options conversion.tree).StrictBy (Syntax.Tree.parse fileName text).directive?
        (.parse fileName text) conversion.tree := by
  intro hall
  obtain ⟨conversion, h⟩ : ∃ conversion, Conversion.ofTree (.parse "a" "(\"use strict\");")
      (.ofTree (.parse "a" "(\"use strict\");")) = .ok conversion :=
    Conversion.exists_ofTree (by decide +kernel) _
  have hmisses : (Conversion.ofTree (.parse "a" "(\"use strict\");")
      (.ofTree (.parse "a" "(\"use strict\");"))).toOption.all (fun c =>
        decide ((ScopeGraph.ofTree { sourceType := .script } c.tree).StrictBy
          (Syntax.Tree.parse "a" "(\"use strict\");").directive? (.parse "a" "(\"use strict\");") c.tree)) = false := by
    decide +kernel
  rw [h] at hmisses
  exact of_decide_eq_false hmisses (hall "a" _ _ { sourceType := .script } conversion (by decide +kernel) h)

end Scoping

end ScriptAnalysis

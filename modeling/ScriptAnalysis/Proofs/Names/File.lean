import ScriptAnalysis.Proofs.Names.Outline
import ScriptAnalysis.Proofs.Syntax.Parsed
import ScriptAnalysis.Semantics.Binding

/-!
# The outline of a file

A file's own tree has an outline too. What it says about declared names is what binding enters into
scopes: the variables of a function (`hoisted_outline`) and the declarations of a block, unless one of
them stands where no block collects it (`declared_outline`).
-/

namespace ScriptAnalysis

open Names (Declared Referred Outline)
open Scoping (ScopeType)
open Semantics (Declaration SymbolKind)

/-! ### What a block declares -/

/-- The first statement declares its names before the others declare theirs. -/
theorem Semantics.blockDeclarations_cons (n : Syntax.Node Syntax.Place) (ns : List (Syntax.Node Syntax.Place)) :
    blockDeclarations (n :: ns) = blockDeclarations [n] ++ blockDeclarations ns := by
  rw [blockDeclarations, blockDeclarations, List.flatMap_cons, List.flatMap_singleton]
  rfl

/-! ### Names by number -/

/-- A declaration by the number of its name. -/
def Semantics.Declaration.toDeclared (d : Declaration) : Declared Syntax.NodeId :=
  ⟨d.name.id, d.name.text, d.kind.isType⟩

/-- The outline of a file's tree by the numbers of the names. -/
def Names.Outline.byId (o : Outline Declaration (Referred Syntax.Place)) :
    Outline (Declared Syntax.NodeId) (Referred Syntax.NodeId) :=
  o.map Declaration.toDeclared (Referred.map Syntax.Place.id)

namespace Names.Outline

section

variable (o o' : Outline Declaration (Referred Syntax.Place))

@[simp] theorem byId_done : (done : Outline Declaration (Referred Syntax.Place)).byId = done := rfl

@[simp] theorem byId_append : (o ++ o').byId = o.byId ++ o'.byId := map_append o o' _ _

@[simp] theorem byId_declare (isHoisted : Bool) (d : Declaration) :
    (declare isHoisted d o).byId = declare isHoisted d.toDeclared o.byId := rfl

@[simp] theorem byId_refer (r : Referred Syntax.Place) :
    (refer r o).byId = refer (r.map Syntax.Place.id) o.byId := rfl

@[simp] theorem byId_scope (type : ScopeType) (header body : Outline Declaration (Referred Syntax.Place)) :
    (scope type header body o).byId = scope type header.byId body.byId o.byId := rfl

end

end Names.Outline

namespace Syntax

/-! ### Branches without braces -/

/-- What stands right under a condition or a loop. -/
def Kind.branches {ν β : Type} : Kind ν β → List β
  | ifStatement _ thenBranch elseBranch? => thenBranch :: elseBranch?.toList
  | whileStatement _ body => [body]
  | _ => []

/-- Whether the statement declares names in the block around it. -/
def Kind.isBlockDeclaration {ν β : Type} : Kind ν β → Bool
  | functionDeclaration .. | typeAlias .. => true
  | variableStatement keyword _ => keyword.isBlockScoped
  | _ => false

namespace Node

/-- Nothing that declares names in the block around it stands right under a condition or a loop. -/
def Blocked {α : Type} (n : Node α) : Prop :=
  ∀ m ∈ n.nodes, ∀ b ∈ m.kind.branches, b.kind.isBlockDeclaration = false

/-! ### Outlines -/

/-- The outline of a variable that gets its first value. -/
def outlineInitial (name : Ident Place) : Option (Node Place) → Outline Declaration (Referred Place)
  | none => .done
  | some _ => .refer ⟨name.label, name.text, false, true⟩ .done

mutual

/-- The outline of a node. -/
def outline : Node Place → Outline Declaration (Referred Place)
  | .mk _ (.sourceFile body) => .scope .global .done (outlineList body) .done
  | .mk _ (.variableStatement keyword nodes) => outlineVariables keyword nodes
  | .mk _ (.variableDeclaration _ type? init?) | .mk _ (.parameter _ type? init?) =>
    outlineOption type? ++ outlineOption init?
  | .mk l (.functionDeclaration name params returnType? body) =>
    .declare false ⟨name, l.id, .function⟩
      (.scope .function (outlineParams params ++ outlineOption returnType?) (outlineBody body) .done)
  | .mk l (.typeAlias name type) =>
    .declare false ⟨name, l.id, .typeAlias⟩ (.scope .typeAlias .done (outline type) .done)
  | .mk _ (.block body) => .scope .block .done (outlineList body) .done
  | .mk _ (.expressionStatement expr) | .mk _ (.parenthesized expr) | .mk _ (.prefixUnary _ expr)
  | .mk _ (.arrayType expr) | .mk _ (.propertyAccess expr _) => outline expr
  | .mk _ (.returnStatement expr?) => outlineOption expr?
  | .mk _ (.ifStatement cond thenBranch elseBranch?) =>
    outline cond ++ (outline thenBranch ++ outlineOption elseBranch?)
  | .mk _ (.whileStatement cond body) => outline cond ++ outline body
  | .mk l (.identifier text) => .refer ⟨l, text, false, false⟩ .done
  | .mk _ (.arrayLiteral nodes) | .mk _ (.unionType nodes) => outlineList nodes
  | .mk _ (.arrowFunction params returnType? body) =>
    .scope .function (outlineParams params ++ outlineOption returnType?) (outlineBody body) .done
  | .mk _ (.call callee args) => outline callee ++ outlineList args
  | .mk _ (.binary _ left right) => outline left ++ outline right
  | .mk _ (.typeReference name) => .refer ⟨name.label, name.text, true, false⟩ .done
  | .mk _ .emptyStatement | .mk _ (.numericLiteral _) | .mk _ (.stringLiteral _)
  | .mk _ .trueLiteral | .mk _ .falseLiteral | .mk _ .nullLiteral | .mk _ (.keywordType _) => .done
termination_by n => 2 * sizeOf n

/-- The outline of several nodes. -/
def outlineList : List (Node Place) → Outline Declaration (Referred Place)
  | [] => .done
  | node :: nodes => outline node ++ outlineList nodes
termination_by ns => 2 * sizeOf ns

/-- The outline of a node, if there is one. -/
def outlineOption : Option (Node Place) → Outline Declaration (Referred Place)
  | none => .done
  | some node => outline node
termination_by n? => 2 * sizeOf n?

/-- The outline of the body of a function, whose block has no scope of its own. -/
def outlineBody : Node Place → Outline Declaration (Referred Place)
  | .mk _ (.block body) => outlineList body
  | .mk l k => outline (.mk l k)
termination_by n => 2 * sizeOf n + 1

/-- The outline of the variables of a statement. -/
def outlineVariables (keyword : VariableKind) :
    List (Node Place) → Outline Declaration (Referred Place)
  | [] => .done
  | .mk l (.variableDeclaration name type? init?) :: nodes =>
    .declare (!keyword.isBlockScoped) ⟨name, l.id, .ofVariableKind keyword⟩
      (outlineOption type? ++ (outlineInitial name init? ++
        (outlineOption init? ++ outlineVariables keyword nodes)))
  | _ :: nodes => outlineVariables keyword nodes
termination_by ns => 2 * sizeOf ns

/-- The outline of the parameters of a function. -/
def outlineParams : List (Node Place) → Outline Declaration (Referred Place)
  | [] => .done
  | .mk l (.parameter name type? init?) :: nodes =>
    .declare false ⟨name, l.id, .functionVariable⟩
      (outlineOption type? ++ (outlineInitial name init? ++
        (outlineOption init? ++ outlineParams nodes)))
  | _ :: nodes => outlineParams nodes
termination_by ns => 2 * sizeOf ns

end

/-! ### Expressions and types -/

mutual

/-- A type declares nothing. -/
theorem silent_type : (n : Node Place) → n.Formed .type → n.outline.Silent
  | .mk l k, h => by
    have hfits := h.fits_kind
    have hparts := h.parts
    cases k <;> simp only [kind_mk, Kind.fits, Kind.isType, Bool.false_eq_true] at hfits <;>
      rw [outline]
    case keywordType => exact Outline.silent_done
    case typeReference => exact Outline.silent_refer _
    case arrayType element => exact silent_type element (hparts _ List.mem_cons_self)
    case unionType members =>
      exact silent_types members (formed_map_iff.mp hparts)

theorem silent_types : (ns : List (Node Place)) → (∀ n ∈ ns, n.Formed .type) →
    (outlineList ns).Silent
  | [], _ => by
    rw [outlineList]
    exact Outline.silent_done
  | n :: ns, h => by
    rw [outlineList]
    exact (silent_type n (h n List.mem_cons_self)).append
      (silent_types ns fun m hm => h m (List.mem_cons_of_mem _ hm))

end

mutual

/-- An expression declares nothing in the scopes around it. -/
theorem silent_expression : (n : Node Place) → n.Formed .expression → n.outline.Silent
  | .mk l k, h => by
    have hfits := h.fits_kind
    have hparts := h.parts
    cases k <;> simp only [kind_mk, Kind.fits, Kind.isExpression, Bool.false_eq_true] at hfits <;>
      rw [outline]
    case identifier => exact Outline.silent_refer _
    case arrayLiteral elements =>
      exact silent_expressions elements (formed_map_iff.mp hparts)
    case arrowFunction => exact Outline.silent_scope rfl _ _
    case parenthesized e => exact silent_expression e (hparts _ List.mem_cons_self)
    case propertyAccess e name => exact silent_expression e (hparts _ List.mem_cons_self)
    case prefixUnary op e => exact silent_expression e (hparts _ List.mem_cons_self)
    case call callee args =>
      refine (silent_expression callee (hparts _ List.mem_cons_self)).append ?_
      exact silent_expressions args fun e he =>
        hparts _ (List.mem_cons_of_mem _ (List.mem_map_of_mem he))
    case binary op left right =>
      refine (silent_expression left (hparts _ List.mem_cons_self)).append ?_
      exact silent_expression right (hparts _ (List.mem_cons_of_mem _ List.mem_cons_self))
    all_goals exact Outline.silent_done

theorem silent_expressions : (ns : List (Node Place)) → (∀ n ∈ ns, n.Formed .expression) →
    (outlineList ns).Silent
  | [], _ => by
    rw [outlineList]
    exact Outline.silent_done
  | n :: ns, h => by
    rw [outlineList]
    exact (silent_expression n (h n List.mem_cons_self)).append
      (silent_expressions ns fun m hm => h m (List.mem_cons_of_mem _ hm))

end

/-- What may follow the name of a variable or a parameter declares nothing. -/
theorem silent_type? {n? : Option (Node Place)} (h : ∀ n ∈ n?, n.Formed .type) :
    (outlineOption n?).Silent := by
  cases n? with
  | none => rw [outlineOption]; exact Outline.silent_done
  | some n => rw [outlineOption]; exact silent_type n (h n rfl)

theorem silent_expression? {n? : Option (Node Place)} (h : ∀ n ∈ n?, n.Formed .expression) :
    (outlineOption n?).Silent := by
  cases n? with
  | none => rw [outlineOption]; exact Outline.silent_done
  | some n => rw [outlineOption]; exact silent_expression n (h n rfl)

theorem silent_initial (name : Ident Place) (init? : Option (Node Place)) :
    (outlineInitial name init?).Silent := by
  cases init? with
  | none => exact Outline.silent_done
  | some init => exact Outline.silent_refer _

/-! ### Declarations of variables and parameters -/

/-- What follows the name of a variable or a parameter declares nothing. -/
theorem silent_after_name {type? init? : Option (Node Place)} (name : Ident Place)
    (h : ∀ part ∈ type?.toList.map (Role.type, ·) ++ init?.toList.map (Role.expression, ·),
      part.2.Formed part.1) :
    (outlineOption type? ++ (outlineInitial name init? ++ outlineOption init?)).Silent := by
  obtain ⟨htype, hinit⟩ := List.forall_mem_append.mp h
  exact (silent_type? (formed_toList_iff.mp htype)).append
    ((silent_initial name init?).append (silent_expression? (formed_toList_iff.mp hinit)))

theorem declared_append_of_silent {δ ρ : Type} {o o' : Outline δ ρ} (h : o.Silent) :
    (o ++ o').declared = o'.declared := by
  rw [Outline.declared_append, h.1, List.nil_append]

theorem hoisted_append_of_silent {δ ρ : Type} {o o' : Outline δ ρ} (h : o.Silent) :
    (o ++ o').hoisted = o'.hoisted := by
  rw [Outline.hoisted_append, h.2, List.nil_append]

/-- The variables of a statement belong to the block or to the function around. -/
theorem outlineVariables_spec (keyword : VariableKind) {ds : List (Node Place)}
    (h : ∀ d ∈ ds, d.Formed .declaration) :
    (outlineVariables keyword ds).declared = (if keyword.isBlockScoped then
        Semantics.variableDeclarations (.ofVariableKind keyword) ds else []) ∧
      (outlineVariables keyword ds).hoisted = (if keyword.isBlockScoped then [] else
        Semantics.variableDeclarations (.ofVariableKind keyword) ds) := by
  induction ds with
  | nil =>
    rw [outlineVariables]
    simp [Outline.declared, Outline.hoisted, Semantics.variableDeclarations]
  | cons d ds ih =>
    obtain ⟨hdeclared, hhoisted⟩ := ih fun d' hd' => h d' (List.mem_cons_of_mem _ hd')
    obtain ⟨l, k⟩ := d
    have hfits := (h _ List.mem_cons_self).fits_kind
    have hparts := (h _ List.mem_cons_self).parts
    cases k <;> simp only [kind_mk, Kind.fits, Bool.false_eq_true] at hfits
    case variableDeclaration name type? init? =>
      have hsilent := silent_after_name name hparts
      have hcons : Semantics.variableDeclarations (.ofVariableKind keyword)
          (.mk l (.variableDeclaration name type? init?) :: ds) =
            ⟨name, l.id, .ofVariableKind keyword⟩ ::
              Semantics.variableDeclarations (.ofVariableKind keyword) ds := rfl
      rw [outlineVariables, ← Outline.append_assoc (outlineInitial name init?),
        ← Outline.append_assoc (outlineOption type?), Outline.declared, Outline.hoisted,
        declared_append_of_silent hsilent, hoisted_append_of_silent hsilent, hdeclared, hhoisted, hcons]
      cases keyword.isBlockScoped <;> exact ⟨rfl, rfl⟩

/-- The parameters of a function belong to it. -/
theorem outlineParams_spec {ps : List (Node Place)} (h : ∀ p ∈ ps, p.Formed .parameter) :
    (outlineParams ps).declared = Semantics.parameterDeclarations ps ∧
      (outlineParams ps).hoisted = [] := by
  induction ps with
  | nil =>
    rw [outlineParams]
    exact ⟨rfl, rfl⟩
  | cons p ps ih =>
    obtain ⟨hdeclared, hhoisted⟩ := ih fun p' hp' => h p' (List.mem_cons_of_mem _ hp')
    obtain ⟨l, k⟩ := p
    have hfits := (h _ List.mem_cons_self).fits_kind
    have hparts := (h _ List.mem_cons_self).parts
    cases k <;> simp only [kind_mk, Kind.fits, Bool.false_eq_true] at hfits
    case parameter name type? init? =>
      have hsilent := silent_after_name name hparts
      rw [outlineParams, ← Outline.append_assoc (outlineInitial name init?),
        ← Outline.append_assoc (outlineOption type?), Outline.declared, Outline.hoisted,
        declared_append_of_silent hsilent, hoisted_append_of_silent hsilent, hdeclared, hhoisted]
      exact ⟨rfl, rfl⟩

/-! ### Statements -/

mutual

/-- The variables of a function that a statement declares. -/
theorem hoisted_outline :
    (n : Node Place) → n.Formed .statement → n.outline.hoisted = Semantics.hoistedVariables n
  | .mk l k, h => by
    have hfits := h.fits_kind
    have hparts := h.parts
    cases k <;> simp only [kind_mk, Kind.fits, Kind.isStatement, Bool.false_eq_true] at hfits <;>
      rw [outline]
    case variableStatement keyword ds =>
      rw [(outlineVariables_spec keyword (formed_map_iff.mp hparts)).2]
      cases keyword <;> rfl
    case functionDeclaration => rfl
    case typeAlias name type =>
      have hsilent := silent_type type (hparts _ List.mem_cons_self)
      rw [Outline.hoisted, Outline.hoisted, hsilent.2]
      rfl
    case block body =>
      rw [Outline.hoisted, hoisted_outlineList body (formed_map_iff.mp hparts)]
      simp [Outline.hoisted, ScopeType.isVariableScope, Semantics.hoistedVariables]
    case expressionStatement e =>
      rw [(silent_expression e (hparts _ List.mem_cons_self)).2]
      rfl
    case returnStatement e? =>
      rw [(silent_expression? (formed_toList_iff.mp hparts)).2]
      rfl
    case ifStatement cond thenBranch elseBranch? =>
      rw [hoisted_append_of_silent (silent_expression cond (hparts _ List.mem_cons_self)),
        Outline.hoisted_append,
        hoisted_outline thenBranch (hparts _ (List.mem_cons_of_mem _ List.mem_cons_self)),
        hoisted_outlineOption elseBranch? fun s hs => hparts _ (List.mem_cons_of_mem _
          (List.mem_cons_of_mem _ (List.mem_map_of_mem (Option.mem_toList.mpr hs)))),
        Semantics.hoistedVariables]
    case whileStatement cond body =>
      rw [hoisted_append_of_silent (silent_expression cond (hparts _ List.mem_cons_self)),
        hoisted_outline body (hparts _ (List.mem_cons_of_mem _ List.mem_cons_self)),
        Semantics.hoistedVariables]
    case emptyStatement => rfl

theorem hoisted_outlineList : (ns : List (Node Place)) → (∀ n ∈ ns, n.Formed .statement) →
    (outlineList ns).hoisted = Semantics.hoistedVariablesOfList ns
  | [], _ => by
    rw [outlineList, Semantics.hoistedVariablesOfList]
    rfl
  | n :: ns, h => by
    rw [outlineList, Outline.hoisted_append, Semantics.hoistedVariablesOfList,
      hoisted_outline n (h n List.mem_cons_self),
      hoisted_outlineList ns fun m hm => h m (List.mem_cons_of_mem _ hm)]

theorem hoisted_outlineOption : (n? : Option (Node Place)) → (∀ n ∈ n?, n.Formed .statement) →
    (outlineOption n?).hoisted = Semantics.hoistedVariablesOfOption n?
  | none, _ => by
    rw [outlineOption, Semantics.hoistedVariablesOfOption]
    rfl
  | some n, h => by
    rw [outlineOption, Semantics.hoistedVariablesOfOption, hoisted_outline n (h n rfl)]

end

theorem Blocked.of_mem_parts {l : Place} {k : Kind (Ident Place) (Node Place)}
    (h : (mk l k).Blocked) {part : Role × Node Place} (hpart : part ∈ k.parts) : part.2.Blocked :=
  fun m hm => h m (nodes_subset_of_mem_children (mem_children_of_mem_parts hpart) hm)

theorem Blocked.branch {l : Place} {k : Kind (Ident Place) (Node Place)} (h : (mk l k).Blocked)
    {b : Node Place} (hb : b ∈ k.branches) : Semantics.blockDeclarations [b] = [] := by
  have hkind := h _ (mem_nodes_self _) b hb
  obtain ⟨l', k'⟩ := b
  rw [Semantics.blockDeclarations, List.flatMap_singleton]
  cases k' <;> simp_all [Kind.isBlockDeclaration]

mutual

/-- What a statement declares in the block around it. -/
theorem declared_outline : (n : Node Place) → n.Formed .statement → n.Blocked →
    n.outline.declared = Semantics.blockDeclarations [n]
  | .mk l k, h, hblocked => by
    have hfits := h.fits_kind
    have hparts := h.parts
    cases k <;> simp only [kind_mk, Kind.fits, Kind.isStatement, Bool.false_eq_true] at hfits <;>
      rw [outline]
    case variableStatement keyword ds =>
      rw [(outlineVariables_spec keyword (formed_map_iff.mp hparts)).1]
      exact (List.flatMap_singleton ..).symm
    case functionDeclaration => rfl
    case typeAlias => rfl
    case block => rfl
    case expressionStatement e =>
      rw [(silent_expression e (hparts _ List.mem_cons_self)).1]
      rfl
    case returnStatement e? =>
      rw [(silent_expression? (formed_toList_iff.mp hparts)).1]
      rfl
    case ifStatement cond thenBranch elseBranch? =>
      have hthen : (Role.statement, thenBranch) ∈
          (Kind.ifStatement cond thenBranch elseBranch? : Kind (Ident Place) (Node Place)).parts :=
        List.mem_cons_of_mem _ List.mem_cons_self
      have helse : ∀ b ∈ elseBranch?, (Role.statement, b) ∈
          (Kind.ifStatement cond thenBranch elseBranch? : Kind (Ident Place) (Node Place)).parts :=
        fun b hb => List.mem_cons_of_mem _
          (List.mem_cons_of_mem _ (List.mem_map_of_mem (Option.mem_toList.mpr hb)))
      rw [declared_append_of_silent (silent_expression cond (hparts _ List.mem_cons_self)),
        Outline.declared_append,
        declared_outline thenBranch (hparts _ hthen) (hblocked.of_mem_parts hthen),
        hblocked.branch List.mem_cons_self,
        declared_outlineOption elseBranch? (fun b hb => hparts _ (helse b hb))
          (fun b hb => hblocked.of_mem_parts (helse b hb))
          fun b hb => hblocked.branch (List.mem_cons_of_mem _ (Option.mem_toList.mpr hb))]
      rfl
    case whileStatement cond body =>
      have hbody : (Role.statement, body) ∈
          (Kind.whileStatement cond body : Kind (Ident Place) (Node Place)).parts :=
        List.mem_cons_of_mem _ List.mem_cons_self
      rw [declared_append_of_silent (silent_expression cond (hparts _ List.mem_cons_self)),
        declared_outline body (hparts _ hbody) (hblocked.of_mem_parts hbody),
        hblocked.branch List.mem_cons_self]
      rfl
    case emptyStatement => rfl

theorem declared_outlineOption : (n? : Option (Node Place)) → (∀ n ∈ n?, n.Formed .statement) →
    (∀ n ∈ n?, n.Blocked) → (∀ n ∈ n?, Semantics.blockDeclarations [n] = []) →
    (outlineOption n?).declared = []
  | none, _, _, _ => by
    rw [outlineOption]
    rfl
  | some n, h, hblocked, hnone => by
    rw [outlineOption, declared_outline n (h n rfl) (hblocked n rfl), hnone n rfl]

end

/-- What statements declare in the block they make up. -/
theorem declared_outlineList {ns : List (Node Place)} (h : ∀ n ∈ ns, n.Formed .statement)
    (hblocked : ∀ n ∈ ns, n.Blocked) :
    (outlineList ns).declared = Semantics.blockDeclarations ns := by
  induction ns with
  | nil =>
    rw [outlineList]
    rfl
  | cons n ns ih =>
    rw [outlineList, Outline.declared_append, Semantics.blockDeclarations_cons,
      declared_outline n (h n List.mem_cons_self) (hblocked n List.mem_cons_self),
      ih (fun m hm => h m (List.mem_cons_of_mem _ hm))
        fun m hm => hblocked m (List.mem_cons_of_mem _ hm)]

end Node

end Syntax

end ScriptAnalysis

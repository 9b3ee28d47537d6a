import ScriptAnalysis.Proofs.Names.Common
import ScriptAnalysis.Proofs.Names.File
import ScriptAnalysis.Ast.Conversion

/-!
# Both trees have one outline

The change of shape leaves the outline of a file as it is: the common tree declares and refers to the same
names in the same scopes, and each name of it comes from the name of the file's tree
(`outlineList_convertList`).
-/

namespace ScriptAnalysis

open Ast (Origin convert convertKind convertList convertOption convertAscription ascribedName plainName)
open Names (Declared Referred Outline)
open Scoping (ScopeType)
open Semantics (Declaration)
open Syntax (Ident Kind Node NodeId Place VariableKind)

namespace Names

variable (source : List Char)

/-! ### Types -/

mutual

theorem outlineType_convert : (n : Node Place) → n.Formed .type →
    (convert source n).outlineType.relabel Origin.node = n.outline.byId
  | .mk p k, h => by
    have hfits := h.fits_kind
    have hparts := h.parts
    cases k <;> simp only [Node.kind_mk, Kind.fits, Kind.isType, Bool.false_eq_true] at hfits <;>
      rw [convert, convertKind, Node.outline]
    case keywordType => simp [Ast.Node.outlineType]
    case typeReference =>
      rw [Ast.Node.outlineType]
      rfl
    case arrayType element =>
      rw [Ast.Node.outlineType]
      exact outlineType_convert element (hparts _ List.mem_cons_self)
    case unionType members =>
      rw [Ast.Node.outlineType]
      exact outlineTypes_convertList members (Node.formed_map_iff.mp hparts)

theorem outlineTypes_convertList : (ns : List (Node Place)) → (∀ n ∈ ns, n.Formed .type) →
    (Ast.Node.outlineTypes (convertList source ns)).relabel Origin.node = (Node.outlineList ns).byId
  | [], _ => by
    rw [convertList, Node.outlineList]
    rfl
  | n :: ns, h => by
    rw [convertList, Ast.Node.outlineTypes, Node.outlineList, Outline.relabel_append,
      Outline.byId_append, outlineType_convert n (h n List.mem_cons_self),
      outlineTypes_convertList ns fun m hm => h m (List.mem_cons_of_mem _ hm)]

end

/-- An ascription says what its type says. -/
theorem outlineType?_convertAscription {n? : Option (Node Place)} (h : ∀ n ∈ n?, n.Formed .type) :
    (Ast.Node.outlineType? (convertAscription source n?)).relabel Origin.node =
      (Node.outlineOption n?).byId := by
  cases n? with
  | none =>
    rw [convertAscription, Node.outlineOption]
    rfl
  | some n =>
    have hn := outlineType_convert source n (h n rfl)
    obtain ⟨p, k⟩ := n
    rw [convert] at hn
    rw [convertAscription, Node.outlineOption, Ast.Node.outlineType?, Ast.Node.outlineType, hn]

/-! ### Bodies -/

/-- An expression is no block in its common shape either. -/
theorem kind_convert_expression_ne {n : Node Place} (h : n.Formed .expression) (ss : List (Ast.Node Origin)) :
    (convert source n).kind ≠ .blockStatement ss := by
  induction n using Node.induction_children with
  | h n ih =>
    obtain ⟨p, k⟩ := n
    have hfits := h.fits_kind
    have hparts := h.parts
    rw [convert]
    cases k <;>
      simp only [Node.kind_mk, Kind.fits, Kind.isExpression, Bool.false_eq_true] at hfits
    case parenthesized e =>
      rw [convertKind]
      exact ih e List.mem_cons_self (hparts _ List.mem_cons_self)
    all_goals simp [convertKind]

theorem outlineBody_convert_expression {n : Node Place} (h : n.Formed .expression) :
    (convert source n).outlineBody = (convert source n).outline := by
  have hno := kind_convert_expression_ne source h
  generalize convert source n = x at hno ⊢
  obtain ⟨l, k⟩ := x
  cases k with
  | blockStatement ss => exact absurd rfl (hno ss)
  | _ => simp [Ast.Node.outlineBody]

/-- Bodies have one outline when the nodes have one outline elsewhere. -/
theorem outlineBody_convert {n : Node Place} (h : n.Formed .body)
    (hn : (convert source n).outline.relabel Origin.node = n.outline.byId) :
    (convert source n).outlineBody.relabel Origin.node = n.outlineBody.byId := by
  rcases h.isBlock_or_expression with hblock | h
  · obtain ⟨p, k⟩ := n
    cases k <;> simp only [Node.kind_mk, Kind.isBlock, Bool.false_eq_true] at hblock
    case block body =>
      rw [convert, convertKind, Ast.Node.outline, Node.outline] at hn
      rw [convert, convertKind, Ast.Node.outlineBody, Node.outlineBody]
      exact (Outline.scope.inj hn).2.2.1
  · rw [outlineBody_convert_expression source h, hn]
    have hfits := h.fits_kind
    obtain ⟨p, k⟩ := n
    cases k with
    | block => exact absurd hfits Bool.false_ne_true
    | _ => simp [Node.outlineBody]

/-! ### Names -/

/-- A declared name comes from the declared name. -/
theorem outlineName_ascribedName (isHoisted : Bool) (d : Declaration) (type? : Option (Node Place))
    (ascription? : Option (Ast.Node Origin)) :
    (Ast.Node.outlineName isHoisted d.kind.isType (ascribedName d.name type? ascription?)).relabel
      Origin.node = (Outline.declare isHoisted d .done).byId := rfl

theorem outlineInitial_ascribedName (name : Ident Place) (type? : Option (Node Place))
    (ascription? : Option (Ast.Node Origin)) (init : Node Place) :
    (Ast.Node.outlineInitial (ascribedName name type? ascription?)).relabel Origin.node =
      (Node.outlineInitial name (some init)).byId := rfl

theorem isType_ofVariableKind (keyword : VariableKind) :
    (Semantics.SymbolKind.ofVariableKind keyword).isType = false := by
  cases keyword <;> rfl

/-! ### Statements and expressions -/

/-- A function has one outline when its parts have. -/
theorem relabel_function {params' type' body' : Outline (Declared Origin) (Referred Origin)}
    {params type body : Outline Declaration (Referred Place)}
    (hparams : params'.relabel Origin.node = params.byId)
    (htype : type'.relabel Origin.node = type.byId)
    (hbody : body'.relabel Origin.node = body.byId) :
    (Outline.scope .function (params' ++ type') body' .done).relabel Origin.node =
      (Outline.scope .function (params ++ type) body .done).byId := by
  rw [Outline.relabel_scope, Outline.relabel_append, Outline.byId_scope, Outline.byId_append,
    hparams, htype, hbody]
  rfl

mutual

/-- **The change of shape keeps the outline.** -/
theorem outline_convert : (n : Node Place) → {role : Syntax.Role} → n.Formed role →
    role.isRun = true → (convert source n).outline.relabel Origin.node = n.outline.byId
  | .mk p k, role, h, hrole => by
    have hkind := Kind.isStatement_or_isExpression hrole h.fits_kind
    have hparts := h.parts
    rw [convert]
    cases k <;>
      simp only [Node.kind_mk, Kind.isStatement, Kind.isExpression, Bool.or_self,
        Bool.false_eq_true] at hkind <;>
      rw [convertKind, Node.outline]
    case variableStatement keyword ds =>
      rw [Ast.Node.outline]
      exact outlineDeclarators_convertList keyword ds (Node.formed_map_iff.mp hparts)
    case functionDeclaration name params returnType? body =>
      obtain ⟨hparams, hparts⟩ := List.forall_mem_append.mp hparts
      obtain ⟨htype, hbody⟩ := List.forall_mem_append.mp hparts
      have hbody : body.Formed .block := hbody _ List.mem_cons_self
      have hfunction := relabel_function
        (outlineParams_convertList params (Node.formed_map_iff.mp hparams))
        (outlineType?_convertAscription source (Node.formed_toList_iff.mp htype))
        (outlineBody_convert source (hbody.of_fits (Kind.fits_body_of_isBlock hbody.fits_kind))
          (outline_convert body hbody rfl))
      rw [Ast.Node.outline, Outline.relabel_append, hfunction]
      rfl
    case typeAlias name type =>
      have htype := outlineType_convert source type (hparts _ List.mem_cons_self)
      rw [Ast.Node.outline, Outline.relabel_append, Outline.relabel_scope, htype]
      rfl
    case block body =>
      rw [Ast.Node.outline, Outline.relabel_scope, Outline.byId_scope,
        outlineList_convertList body (Node.formed_map_iff.mp hparts) rfl]
      rfl
    case expressionStatement e =>
      rw [Ast.Node.outline]
      exact outline_convert e (hparts _ List.mem_cons_self) rfl
    case returnStatement e? =>
      rw [Ast.Node.outline]
      exact outlineOption_convertOption e? (Node.formed_toList_iff.mp hparts) rfl
    case ifStatement cond thenBranch elseBranch? =>
      rw [Ast.Node.outline, Outline.relabel_append, Outline.relabel_append, Outline.byId_append,
        Outline.byId_append, outline_convert cond (hparts _ List.mem_cons_self) rfl,
        outline_convert thenBranch (hparts _ (List.mem_cons_of_mem _ List.mem_cons_self)) rfl,
        outlineOption_convertOption elseBranch? (fun s hs => hparts _ (List.mem_cons_of_mem _
          (List.mem_cons_of_mem _ (List.mem_map_of_mem (Option.mem_toList.mpr hs))))) rfl]
    case whileStatement cond body =>
      rw [Ast.Node.outline, Outline.relabel_append, Outline.byId_append,
        outline_convert cond (hparts _ List.mem_cons_self) rfl,
        outline_convert body (hparts _ (List.mem_cons_of_mem _ List.mem_cons_self)) rfl]
    case identifier text =>
      rw [Ast.Node.outline]
      rfl
    case arrayLiteral elements =>
      rw [Ast.Node.outline]
      exact outlineList_convertList elements (Node.formed_map_iff.mp hparts) rfl
    case parenthesized e => exact outline_convert e (hparts _ List.mem_cons_self) rfl
    case arrowFunction params returnType? body =>
      obtain ⟨hparams, hparts⟩ := List.forall_mem_append.mp hparts
      obtain ⟨htype, hbody⟩ := List.forall_mem_append.mp hparts
      have hbody : body.Formed .body := hbody _ List.mem_cons_self
      rw [Ast.Node.outline]
      exact relabel_function
        (outlineParams_convertList params (Node.formed_map_iff.mp hparams))
        (outlineType?_convertAscription source (Node.formed_toList_iff.mp htype))
        (outlineBody_convert source hbody (outline_convert body hbody rfl))
    case call callee args =>
      rw [Ast.Node.outline, Outline.relabel_append, Outline.byId_append,
        outline_convert callee (hparts _ List.mem_cons_self) rfl,
        outlineList_convertList args (fun e he =>
          hparts _ (List.mem_cons_of_mem _ (List.mem_map_of_mem he))) rfl]
    case propertyAccess e name =>
      rw [Ast.Node.outline]
      exact outline_convert e (hparts _ List.mem_cons_self) rfl
    case prefixUnary op e =>
      rw [Ast.Node.outline]
      exact outline_convert e (hparts _ List.mem_cons_self) rfl
    case binary op left right =>
      rw [Ast.Node.outline, Outline.relabel_append, Outline.byId_append,
        outline_convert left (hparts _ List.mem_cons_self) rfl,
        outline_convert right (hparts _ (List.mem_cons_of_mem _ List.mem_cons_self)) rfl]
    all_goals
      rw [Ast.Node.outline]
      rfl

theorem outlineList_convertList : (ns : List (Node Place)) → {role : Syntax.Role} →
    (∀ n ∈ ns, n.Formed role) → role.isRun = true →
    (Ast.Node.outlineList (convertList source ns)).relabel Origin.node = (Node.outlineList ns).byId
  | [], role, _, _ => by
    rw [convertList, Node.outlineList, Ast.Node.outlineList]
    rfl
  | n :: ns, role, h, hrole => by
    rw [convertList, Ast.Node.outlineList, Node.outlineList, Outline.relabel_append,
      Outline.byId_append, outline_convert n (h n List.mem_cons_self) hrole,
      outlineList_convertList ns (fun m hm => h m (List.mem_cons_of_mem _ hm)) hrole]

theorem outlineOption_convertOption : (n? : Option (Node Place)) → {role : Syntax.Role} →
    (∀ n ∈ n?, n.Formed role) → role.isRun = true →
    (Ast.Node.outlineOption (convertOption source n?)).relabel Origin.node =
      (Node.outlineOption n?).byId
  | none, role, _, _ => by
    rw [convertOption, Node.outlineOption, Ast.Node.outlineOption]
    rfl
  | some n, role, h, hrole => by
    rw [convertOption, Ast.Node.outlineOption, Node.outlineOption, outline_convert n (h n rfl) hrole]

theorem outlineDeclarators_convertList (keyword : VariableKind) : (ns : List (Node Place)) →
    (∀ n ∈ ns, n.Formed .declaration) →
    (Ast.Node.outlineDeclarators (!keyword.isBlockScoped) (convertList source ns)).relabel
      Origin.node = (Node.outlineVariables keyword ns).byId
  | [], _ => by
    rw [convertList, Ast.Node.outlineDeclarators, Node.outlineVariables]
    rfl
  | .mk p k :: ns, h => by
    have hns := outlineDeclarators_convertList keyword ns fun m hm => h m (List.mem_cons_of_mem _ hm)
    have hfits := (h _ List.mem_cons_self).fits_kind
    have hparts := (h _ List.mem_cons_self).parts
    cases k <;> simp only [Node.kind_mk, Kind.fits, Bool.false_eq_true] at hfits
    case variableDeclaration name type? init? =>
      obtain ⟨htype, hinit⟩ := List.forall_mem_append.mp hparts
      have htype := outlineType?_convertAscription source (Node.formed_toList_iff.mp htype)
      have hname := outlineName_ascribedName (!keyword.isBlockScoped)
        ⟨name, p.id, .ofVariableKind keyword⟩ type? (convertAscription source type?)
      rw [isType_ofVariableKind] at hname
      rw [convertList, convert, convertKind]
      cases init? with
      | none =>
        rw [convertOption, Ast.Node.outlineDeclarators, Outline.relabel_append,
          Outline.relabel_append, hname, hns]
        simp only [ascribedName, htype, Node.outlineVariables, Node.outlineInitial, Node.outlineOption,
          Outline.done_append, Outline.byId_declare, Outline.byId_append, Outline.byId_done,
          Outline.declare_append]
      | some init =>
        have hinit := outline_convert init (hinit (.expression, init) List.mem_cons_self) rfl
        rw [convertOption, Ast.Node.outlineDeclarators, Outline.relabel_append,
          Outline.relabel_append, Outline.relabel_append, Outline.relabel_append, hname, hns, hinit,
          outlineInitial_ascribedName name _ _ init]
        simp only [ascribedName, htype, Node.outlineVariables, Node.outlineOption,
          Outline.done_append, Outline.byId_declare, Outline.byId_append, Outline.byId_done,
          Outline.declare_append]

theorem outlineParams_convertList : (ns : List (Node Place)) → (∀ n ∈ ns, n.Formed .parameter) →
    (Ast.Node.outlineParams (convertList source ns)).relabel Origin.node =
      (Node.outlineParams ns).byId
  | [], _ => by
    rw [convertList, Ast.Node.outlineParams, Node.outlineParams]
    rfl
  | .mk p k :: ns, h => by
    have hns := outlineParams_convertList ns fun m hm => h m (List.mem_cons_of_mem _ hm)
    have hfits := (h _ List.mem_cons_self).fits_kind
    have hparts := (h _ List.mem_cons_self).parts
    cases k <;> simp only [Node.kind_mk, Kind.fits, Bool.false_eq_true] at hfits
    case parameter name type? init? =>
      obtain ⟨htype, hinit⟩ := List.forall_mem_append.mp hparts
      have htype := outlineType?_convertAscription source (Node.formed_toList_iff.mp htype)
      cases init? with
      | none =>
        rw [convertList, convert, convertKind, Ast.Name.toNode, Ast.Node.outlineParams,
          Outline.relabel_append, Outline.relabel_append, hns]
        simp only [ascribedName, htype, Node.outlineParams, Node.outlineInitial, Node.outlineOption,
          Outline.done_append, Outline.byId_declare, Outline.byId_append]
        rfl
      | some init =>
        have hinit := outline_convert init (hinit (.expression, init) List.mem_cons_self) rfl
        rw [convertList, convert, convertKind, Ast.Node.outlineParams, Outline.relabel_append,
          Outline.relabel_append, Outline.relabel_append, Outline.relabel_append, hns, hinit,
          outlineInitial_ascribedName name _ _ init]
        simp only [ascribedName, htype, Node.outlineParams, Node.outlineOption, Outline.byId_declare,
          Outline.byId_append]
        rfl

end

end Names

end ScriptAnalysis

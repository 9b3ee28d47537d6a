import ScriptAnalysis.Proofs.Names.File

/-!
# Binding follows the outline

Binding a file does what its outline says (`walks_bindNode`): in front of a scope names that belong to it
are declared, and the others are declared on the way. `Outline.Walks` is this walk over an outline; what is
declared in front of a body is a relation to what belongs to it. Where no declaration stands right under a
condition or a loop all of it is, and the walk is the function `Outline.bound` (`after_bindNode`).
-/

namespace ScriptAnalysis

open Names (Referred Outline)
open Semantics (Declaration SymbolKind)
open Semantics.Binding (Bind State)
open Syntax (Ident Kind Node Place Role VariableKind)

/-! ### The walk over an outline -/

namespace Semantics.Binding

/-- The state with one more scope. -/
def State.push (s : State) : State := { s with frames := {} :: s.frames }

/-- The state without the innermost scope. -/
def State.pop (s : State) : State := { s with frames := s.frames.tail }

/-- The state after a declaration that is reached on the way. -/
def State.declareLate (s : State) (d : Declaration) : State :=
  if s.isDeclared d.name then s else s.declare d

end Semantics.Binding

namespace Names.Outline

/-- The state after binding what an outline says. In a header nothing is declared on the way, since the
parameters of a function are declared in front. -/
def bound (late : Bool) : Outline Declaration (Referred Place) → State → State
  | done, s => s
  | declare _ d rest, s => rest.bound late (if late then s.declareLate d else s)
  | refer r rest, s =>
    rest.bound late (if r.isInitial then s else s.refer r.isType ⟨r.label, r.name⟩)
  | scope type header body rest, s =>
    let entered := header.bound false ((header.own type).foldl State.declare s.push)
    rest.bound late (body.bound true ((body.own type).foldl State.declare entered)).pop

/-- The walk over an outline from one state to another. In front of a body some of the names that belong to
it are declared: `First` relates them to all of them. No variable that is declared with `var` is in a
header. -/
inductive Walks (First : List Declaration → List Declaration → Prop) :
    Bool → Outline Declaration (Referred Place) → State → State → Prop where
  | done {late : Bool} {s : State} : Walks First late done s s
  | declare {late isHoisted : Bool} {d : Declaration} {rest : Outline Declaration (Referred Place)}
      {s s' : State} (next : Walks First late rest (if late then s.declareLate d else s) s') :
      Walks First late (declare isHoisted d rest) s s'
  | refer {late : Bool} {r : Referred Place} {rest : Outline Declaration (Referred Place)} {s s' : State}
      (next : Walks First late rest (if r.isInitial then s else s.refer r.isType ⟨r.label, r.name⟩) s') :
      Walks First late (refer r rest) s s'
  | scope {late : Bool} {type : Scoping.ScopeType} {header body rest : Outline Declaration (Referred Place)}
      {s s₁ s₂ s' : State} {first : List Declaration} (hheader : header.hoisted = [])
      (hfirst : First first (body.own type))
      (inHeader : Walks First false header ((header.own type).foldl State.declare s.push) s₁)
      (inBody : Walks First true body (first.foldl State.declare s₁) s₂)
      (next : Walks First late rest s₂.pop s') : Walks First late (scope type header body rest) s s'

section

variable {First : List Declaration → List Declaration → Prop} {late : Bool}
  {o o' : Outline Declaration (Referred Place)} {s s' s'' : State}

theorem Walks.append (h : Walks First late o s s') (h' : Walks First late o' s' s'') :
    Walks First late (o ++ o') s s'' := by
  induction h with
  | done => exact h'
  | declare _ ih => exact .declare (ih h')
  | refer _ ih => exact .refer (ih h')
  | scope hheader hfirst inHeader inBody _ _ _ ih => exact .scope hheader hfirst inHeader inBody (ih h')

/-- Where nothing is declared, nothing is declared on the way. -/
theorem Walks.of_silent (h : Walks First late o s s') (hsilent : o.Silent) {late' : Bool} :
    Walks First late' o s s' := by
  induction h with
  | done => exact .done
  | @declare _ isHoisted =>
    cases isHoisted with
    | true => exact absurd hsilent.2 (List.cons_ne_nil _ _)
    | false => exact absurd hsilent.1 (List.cons_ne_nil _ _)
  | refer _ ih => exact .refer (ih hsilent)
  | scope hheader hfirst inHeader inBody _ _ _ ih =>
    refine .scope hheader hfirst inHeader inBody (ih ⟨hsilent.1, ?_⟩)
    exact (List.append_eq_nil_iff.mp hsilent.2).2

/-- The walk is a function where all names that belong to a body are declared in front of it. -/
theorem Walks.eq_bound (h : Walks (· = ·) late o s s') : s' = o.bound late s := by
  induction h with
  | done => rfl
  | declare _ ih => exact ih
  | refer _ ih => exact ih
  | scope _ hfirst _ _ _ ihHeader ihBody ih =>
    subst hfirst
    rw [ih, ihBody, ihHeader]
    rfl

end

end Names.Outline

/-! ### Types -/

namespace Syntax.Node

theorem findSome?_push (s : State) (isType : Bool) (name : String) :
    s.push.frames.findSome? (·.lookup? isType name) =
      s.frames.findSome? (·.lookup? isType name) := by
  have hnone : ({} : Semantics.Binding.Frame).lookup? isType name = none := by
    cases isType <;> rfl
  rw [State.push, List.findSome?_cons, hnone]

/-- A scope without names makes no difference to a reference. -/
theorem refer_push (s : State) (isType : Bool) (name : Ident Place) :
    s.push.refer isType name = (s.refer isType name).push := by
  rw [State.refer, State.refer, findSome?_push]
  split
  · rfl
  · dsimp only
    split
    · rfl
    · split <;> rfl

end Syntax.Node

/-! ### Binding -/

namespace Semantics.Binding

/-- The state after a step of binding. -/
def Bind.after (step : Bind Unit) (s : State) : State := (step.run s).2

section

variable (step : Bind Unit) (next : Unit → Bind Unit) (f : State → State) (ds : List Declaration)
  (s : State)

@[simp] theorem after_pure : Bind.after (pure ()) s = s := rfl

@[simp] theorem after_bind : Bind.after (step >>= next) s = Bind.after (next ()) (step.after s) := rfl

@[simp] theorem after_openScope : Bind.after openScope s = s.push := rfl

@[simp] theorem after_closeScope : Bind.after closeScope s = s.pop := rfl

@[simp] theorem after_declareAll : Bind.after (declareAll ds) s = ds.foldl State.declare s := rfl

@[simp] theorem after_declareLate (d : Declaration) :
    Bind.after (declareLate d) s = s.declareLate d := rfl

@[simp] theorem after_referToValue (name : Ident Place) :
    Bind.after (referToValue name) s = s.refer false name := rfl

@[simp] theorem after_referToType (name : Ident Place) :
    Bind.after (referToType name) s = s.refer true name := rfl

end

end Semantics.Binding

namespace Syntax.Node

open Semantics.Binding

mutual

/-- A scope without names makes no difference to a type. -/
theorem after_push_type : (n : Node Place) → n.Formed .type → (s : State) →
    (bindNode n).after s.push = ((bindNode n).after s).push
  | .mk p k, h, s => by
    have hfits := h.fits_kind
    have hparts := h.parts
    cases k <;> simp only [kind_mk, Kind.fits, Kind.isType, Bool.false_eq_true] at hfits <;>
      rw [bindNode]
    case keywordType => rfl
    case typeReference name => exact refer_push s true name
    case arrayType element => exact after_push_type element (hparts _ List.mem_cons_self) s
    case unionType members => exact after_push_types members (formed_map_iff.mp hparts) s

theorem after_push_types : (ns : List (Node Place)) → (∀ n ∈ ns, n.Formed .type) → (s : State) →
    (bindList ns).after s.push = ((bindList ns).after s).push
  | [], _, s => by
    rw [bindList]
    rfl
  | n :: ns, h, s => by
    rw [bindList, after_bind, after_bind, after_push_type n (h n List.mem_cons_self) s]
    exact after_push_types ns (fun m hm => h m (List.mem_cons_of_mem _ hm)) _

end

/-! ### What is declared in front of statements -/

/-- What statements declare before they are bound, in a scope of the type. -/
def declaredFirst (type : Scoping.ScopeType) (ns : List (Node Place)) : List Declaration :=
  (if type.isVariableScope then Semantics.hoistedVariablesOfList ns else []) ++
    Semantics.blockDeclarations ns

/-- In trees that `P` holds of, what the statements of a file or of a block declare before they are bound is
related to all that belongs to their scope. -/
structure Collects (First : List Declaration → List Declaration → Prop) (P : Node Place → Prop) :
    Prop where
  parts : ∀ {l : Place} {k : Kind (Ident Place) (Node Place)}, P (.mk l k) →
    ∀ part ∈ k.parts, P part.2
  /-- Where nothing belongs to a scope, nothing is declared first. -/
  nil : First [] []
  first : ∀ {l : Place} {k : Kind (Ident Place) (Node Place)} {ns : List (Node Place)}
    (type : Scoping.ScopeType), P (.mk l k) → k = .sourceFile ns ∨ k = .block ns →
    (∀ n ∈ ns, n.Formed .statement ∧ P n) → First (declaredFirst type ns) ((outlineList ns).own type)

section

variable {First : List Declaration → List Declaration → Prop} {P : Node Place → Prop}
  (hc : Collects First P) {role : Role}

include hc in
theorem Collects.of_parts {l : Place} {k : Kind (Ident Place) (Node Place)}
    (h : (Node.mk l k).Formed role ∧ P (.mk l k)) : ∀ part ∈ k.parts, part.2.Formed part.1 ∧ P part.2 :=
  fun part hpart => ⟨h.1.parts part hpart, hc.parts h.2 part hpart⟩

theorem formed_and_map {ns : List (Node Place)}
    (h : ∀ part ∈ ns.map (role, ·), part.2.Formed part.1 ∧ P part.2) : ∀ n ∈ ns, n.Formed role ∧ P n := by
  simpa using h

theorem formed_and_toList {n? : Option (Node Place)}
    (h : ∀ part ∈ n?.toList.map (role, ·), part.2.Formed part.1 ∧ P part.2) :
    ∀ n ∈ n?, n.Formed role ∧ P n := by
  simpa using h

end

/-- Binds the body of a function. -/
def bindBody : Node Place → Bind Unit
  | .mk _ (.block statements) => do
    declareAll (Semantics.hoistedVariablesOfList statements)
    declareAll (Semantics.blockDeclarations statements)
    bindList statements
  | .mk l k => bindNode (.mk l k)

/-- Binds a function. -/
def bindFunction (params : List (Node Place)) (returnType? : Option (Node Place))
    (body : Node Place) : Bind Unit := do
  openScope
  declareAll (Semantics.parameterDeclarations params)
  bindList params
  bindOption returnType?
  bindBody body
  closeScope

theorem after_functionDeclaration (l : Place) (name : Ident Place) (params : List (Node Place))
    (returnType? : Option (Node Place)) (body : Node Place) (s : State) :
    (bindNode (.mk l (.functionDeclaration name params returnType? body))).after s =
      (bindFunction params returnType? body).after (s.declareLate ⟨name, l.id, .function⟩) := by
  rw [bindNode, bindFunction]
  simp only [after_bind]
  split
  · rfl
  · rename_i h
    rw [bindBody] <;> first | rfl | exact h

theorem after_arrowFunction (l : Place) (params : List (Node Place))
    (returnType? : Option (Node Place)) (body : Node Place) (s : State) :
    (bindNode (.mk l (.arrowFunction params returnType? body))).after s =
      (bindFunction params returnType? body).after s := by
  rw [bindNode, bindFunction]
  simp only [after_bind]
  split
  · rfl
  · rename_i h
    rw [bindBody] <;> first | rfl | exact h

section

variable {First : List Declaration → List Declaration → Prop} {P : Node Place → Prop}

theorem walks_outlineInitial {late : Bool} (name : Ident Place) (init? : Option (Node Place)) (s : State) :
    (outlineInitial name init?).Walks First late s s := by
  cases init? with
  | none => exact .done
  | some init => exact .refer .done

variable (First) in
/-- The statements in a block are bound as their outline says. -/
def WalksInside (n : Node Place) : Prop :=
  ∀ statements, n.kind = .block statements → ∀ s : State,
    (outlineList statements).Walks First true s ((bindList statements).after s)

/-- The body of a function is bound as its outline says. -/
theorem walks_bindBody (hc : Collects First P) {n : Node Place} (h : n.Formed .body ∧ P n)
    (hinside : WalksInside First n) (hn : ∀ s, n.outline.Walks First true s ((bindNode n).after s))
    (s : State) :
    ∃ first, First first (n.outlineBody.own .function) ∧
      n.outlineBody.Walks First true (first.foldl State.declare s) ((bindBody n).after s) := by
  obtain ⟨l, k⟩ := n
  rcases h.1.isBlock_or_expression with hblock | hexpression
  · have hparts := hc.of_parts h
    cases k <;> simp only [kind_mk, Kind.isBlock, Bool.false_eq_true] at hblock
    case block statements =>
      have hstatements := formed_and_map hparts
      rw [outlineBody]
      refine ⟨declaredFirst .function statements, ?_, ?_⟩
      · exact hc.first .function h.2 (.inr rfl) hstatements
      · rw [bindBody, after_bind, after_bind, after_declareAll, after_declareAll, ← List.foldl_append]
        exact hinside statements rfl _
  · have hfits := hexpression.fits_kind
    have hsilent := silent_expression _ hexpression
    have hbody : (mk l k).outlineBody = (mk l k).outline := by
      cases k with
      | block => exact absurd hfits Bool.false_ne_true
      | _ => simp [outlineBody]
    have hbind : bindBody (mk l k) = bindNode (mk l k) := by
      cases k with
      | block => exact absurd hfits Bool.false_ne_true
      | _ => rw [bindBody]; simp
    have hown : (mk l k).outline.own .function = [] := by
      rw [Outline.own, hsilent.1, hsilent.2]
      rfl
    rw [hbody, hbind, hown]
    exact ⟨[], hc.nil, hn s⟩

/-- A function is bound as its outline says when its parts are. -/
theorem walks_bindFunction {params : List (Node Place)} {returnType? : Option (Node Place)}
    {body : Node Place} (hformed : ∀ p ∈ params, p.Formed .parameter)
    (htype : ∀ t ∈ returnType?, t.Formed .type)
    (hparams : ∀ s, (outlineParams params).Walks First false s ((bindList params).after s))
    (hreturn : ∀ s, (outlineOption returnType?).Walks First true s ((bindOption returnType?).after s))
    (hbody : ∀ s, ∃ first, First first (body.outlineBody.own .function) ∧
      body.outlineBody.Walks First true (first.foldl State.declare s) ((bindBody body).after s))
    (s : State) : (Outline.scope .function (outlineParams params ++ outlineOption returnType?)
        body.outlineBody .done).Walks First true s ((bindFunction params returnType? body).after s) := by
  have hsilent := silent_type? htype
  obtain ⟨hdeclared, hhoisted⟩ := outlineParams_spec hformed
  have hheader : (outlineParams params ++ outlineOption returnType?).hoisted = [] := by
    rw [Outline.hoisted_append, hhoisted, hsilent.2]
    rfl
  have hown : (outlineParams params ++ outlineOption returnType?).own .function =
      Semantics.parameterDeclarations params := by
    rw [Outline.own, hheader, Outline.declared_append, hsilent.1, hdeclared]
    simp
  rw [bindFunction]
  simp only [after_bind, after_openScope, after_closeScope, after_declareAll]
  obtain ⟨first, hfirst, hwalks⟩ := hbody
    ((bindOption returnType?).after ((bindList params).after
      ((Semantics.parameterDeclarations params).foldl State.declare s.push)))
  refine .scope hheader hfirst ?_ hwalks .done
  rw [hown]
  exact (hparams _).append ((hreturn _).of_silent hsilent)

mutual

/-- **Binding follows the outline.** -/
theorem walks_bindNode (hc : Collects First P) : (n : Node Place) → {role : Role} →
    n.Formed role ∧ P n → (s : State) → n.outline.Walks First true s ((bindNode n).after s)
  | .mk l k, role, h, s => by
    have hparts := hc.of_parts h
    cases k
    case functionDeclaration name params returnType? body =>
      obtain ⟨hparams, hrest⟩ := List.forall_mem_append.mp hparts
      obtain ⟨htype, hbody⟩ := List.forall_mem_append.mp hrest
      have hparams := formed_and_map hparams
      have htype := formed_and_toList htype
      have hblock : body.Formed .block ∧ P body := hbody _ List.mem_cons_self
      have hbody : body.Formed .body ∧ P body :=
        ⟨hblock.1.of_fits (Kind.fits_body_of_isBlock hblock.1.fits_kind), hblock.2⟩
      rw [after_functionDeclaration, outline]
      refine .declare ?_
      exact walks_bindFunction (fun p hp => (hparams p hp).1) (fun t ht => (htype t ht).1)
        (walks_bindParams hc params hparams) (walks_bindOption hc returnType? htype)
        (walks_bindBody hc hbody (walksInside hc body hbody) (walks_bindNode hc body hbody)) _
    case arrowFunction params returnType? body =>
      obtain ⟨hparams, hrest⟩ := List.forall_mem_append.mp hparts
      obtain ⟨htype, hbody⟩ := List.forall_mem_append.mp hrest
      have hparams := formed_and_map hparams
      have htype := formed_and_toList htype
      have hbody : body.Formed .body ∧ P body := hbody _ List.mem_cons_self
      rw [after_arrowFunction, outline]
      exact walks_bindFunction (fun p hp => (hparams p hp).1) (fun t ht => (htype t ht).1)
        (walks_bindParams hc params hparams) (walks_bindOption hc returnType? htype)
        (walks_bindBody hc hbody (walksInside hc body hbody) (walks_bindNode hc body hbody)) _
    all_goals rw [bindNode, outline]
    case sourceFile body =>
      have hbody := formed_and_map hparts
      simp only [after_bind, after_openScope, after_declareAll, after_closeScope, ← List.foldl_append]
      exact .scope rfl (hc.first .global h.2 (.inl rfl) hbody) .done (walks_bindList hc body hbody _) .done
    case variableStatement keyword ds => exact walks_bindVariables hc keyword ds (formed_and_map hparts) s
    case variableDeclaration name type? init? =>
      obtain ⟨htype, hinit⟩ := List.forall_mem_append.mp hparts
      rw [after_bind]
      exact (walks_bindOption hc type? (formed_and_toList htype) _).append
        (walks_bindOption hc init? (formed_and_toList hinit) _)
    case parameter name type? init? =>
      obtain ⟨htype, hinit⟩ := List.forall_mem_append.mp hparts
      rw [after_bind]
      exact (walks_bindOption hc type? (formed_and_toList htype) _).append
        (walks_bindOption hc init? (formed_and_toList hinit) _)
    case typeAlias name type =>
      have htype : type.Formed .type ∧ P type := hparts _ List.mem_cons_self
      rw [after_bind, after_declareLate]
      have hwalks := walks_bindNode hc type htype (s.declareLate ⟨name, l.id, .typeAlias⟩).push
      have hfirst : First [] (type.outline.own .typeAlias) := by
        rw [show type.outline.own .typeAlias = [] from (silent_type type htype.1).1]
        exact hc.nil
      -- the scope of a type makes no difference
      rw [after_push_type type htype.1] at hwalks
      exact .declare (.scope rfl hfirst .done hwalks .done)
    case block body =>
      have hbody := formed_and_map hparts
      simp only [after_bind, after_openScope, after_declareAll, after_closeScope]
      exact .scope rfl (hc.first .block h.2 (.inr rfl) hbody) .done (walks_bindList hc body hbody _) .done
    case expressionStatement e => exact walks_bindNode hc e (hparts _ List.mem_cons_self) s
    case returnStatement e? => exact walks_bindOption hc e? (formed_and_toList hparts) s
    case ifStatement cond thenBranch elseBranch? =>
      obtain ⟨hcond, hbranches⟩ := List.forall_mem_cons.mp hparts
      obtain ⟨hthen, helse⟩ := List.forall_mem_cons.mp hbranches
      rw [after_bind, after_bind]
      exact (walks_bindNode hc cond hcond _).append ((walks_bindNode hc thenBranch hthen _).append
        (walks_bindOption hc elseBranch? (formed_and_toList helse) _))
    case whileStatement cond body =>
      obtain ⟨hcond, hbody⟩ := List.forall_mem_cons.mp hparts
      rw [after_bind]
      exact (walks_bindNode hc cond hcond _).append (walks_bindNode hc body (hbody _ List.mem_cons_self) _)
    case identifier text => exact .refer .done
    case arrayLiteral elements => exact walks_bindList hc elements (formed_and_map hparts) s
    case parenthesized e => exact walks_bindNode hc e (hparts _ List.mem_cons_self) s
    case call callee args =>
      obtain ⟨hcallee, hargs⟩ := List.forall_mem_cons.mp hparts
      rw [after_bind]
      exact (walks_bindNode hc callee hcallee _).append (walks_bindList hc args (formed_and_map hargs) _)
    case propertyAccess e name => exact walks_bindNode hc e (hparts _ List.mem_cons_self) s
    case prefixUnary op e => exact walks_bindNode hc e (hparts _ List.mem_cons_self) s
    case binary op left right =>
      obtain ⟨hleft, hright⟩ := List.forall_mem_cons.mp hparts
      rw [after_bind]
      exact (walks_bindNode hc left hleft _).append (walks_bindNode hc right (hright _ List.mem_cons_self) _)
    case typeReference name => exact .refer .done
    case arrayType element => exact walks_bindNode hc element (hparts _ List.mem_cons_self) s
    case unionType members => exact walks_bindList hc members (formed_and_map hparts) s
    all_goals exact .done

theorem walksInside (hc : Collects First P) : (n : Node Place) → {role : Role} →
    n.Formed role ∧ P n → WalksInside First n
  | .mk l k, role, h => by
    have hparts := hc.of_parts h
    intro statements hk
    cases k <;> simp only [kind_mk, reduceCtorEq, Kind.block.injEq] at hk
    case block body =>
      subst hk
      exact walks_bindList hc body (formed_and_map hparts)

theorem walks_bindList (hc : Collects First P) : (ns : List (Node Place)) → {role : Role} →
    (∀ n ∈ ns, n.Formed role ∧ P n) → (s : State) →
    (outlineList ns).Walks First true s ((bindList ns).after s)
  | [], _, _, s => by
    rw [bindList, outlineList]
    exact .done
  | n :: ns, _, h, s => by
    rw [bindList, outlineList, after_bind]
    exact (walks_bindNode hc n (h n List.mem_cons_self) s).append
      (walks_bindList hc ns (fun m hm => h m (List.mem_cons_of_mem _ hm)) _)

theorem walks_bindOption (hc : Collects First P) : (n? : Option (Node Place)) → {role : Role} →
    (∀ n ∈ n?, n.Formed role ∧ P n) → (s : State) →
    (outlineOption n?).Walks First true s ((bindOption n?).after s)
  | none, _, _, s => by
    rw [bindOption, outlineOption]
    exact .done
  | some n, _, h, s => by
    rw [bindOption, outlineOption]
    exact walks_bindNode hc n (h n rfl) s

theorem walks_bindVariables (hc : Collects First P) (keyword : VariableKind) : (ns : List (Node Place)) →
    (∀ n ∈ ns, n.Formed .declaration ∧ P n) → (s : State) →
    (outlineVariables keyword ns).Walks First true s ((bindVariables keyword ns).after s)
  | [], _, s => by
    rw [bindVariables, outlineVariables]
    exact .done
  | .mk l k :: ns, h, s => by
    have hfits := (h _ List.mem_cons_self).1.fits_kind
    have hparts := hc.of_parts (h _ List.mem_cons_self)
    have hns := walks_bindVariables hc keyword ns (fun m hm => h m (List.mem_cons_of_mem _ hm))
    cases k <;> simp only [kind_mk, Kind.fits, Bool.false_eq_true] at hfits
    case variableDeclaration name type? init? =>
      obtain ⟨htype, hinit⟩ := List.forall_mem_append.mp hparts
      rw [bindVariables, outlineVariables, after_bind, after_bind, after_bind, after_declareLate]
      refine .declare ((walks_bindOption hc type? (formed_and_toList htype) _).append ?_)
      exact (walks_outlineInitial name init? _).append
        ((walks_bindOption hc init? (formed_and_toList hinit) _).append (hns _))

/-- The parameters of a function are declared in front. -/
theorem walks_bindParams (hc : Collects First P) : (ns : List (Node Place)) →
    (∀ n ∈ ns, n.Formed .parameter ∧ P n) → (s : State) →
    (outlineParams ns).Walks First false s ((bindList ns).after s)
  | [], _, s => by
    rw [bindList, outlineParams]
    exact .done
  | .mk l k :: ns, h, s => by
    have hfits := (h _ List.mem_cons_self).1.fits_kind
    have hparts := hc.of_parts (h _ List.mem_cons_self)
    have hns := walks_bindParams hc ns (fun m hm => h m (List.mem_cons_of_mem _ hm))
    cases k <;> simp only [kind_mk, Kind.fits, Bool.false_eq_true] at hfits
    case parameter name type? init? =>
      obtain ⟨htype, hinit⟩ := List.forall_mem_append.mp hparts
      have htype := formed_and_toList htype
      have hinit := formed_and_toList hinit
      have htypeSilent := silent_type? fun t ht => (htype t ht).1
      have hinitSilent := silent_expression? fun e he => (hinit e he).1
      rw [bindList, bindNode, outlineParams, after_bind, after_bind]
      refine .declare (((walks_bindOption hc type? htype _).of_silent htypeSilent).append ?_)
      exact (walks_outlineInitial name init? _).append
        (((walks_bindOption hc init? hinit _).of_silent hinitSilent).append (hns _))

end

end

/-! ### All or some declarations in front -/

/-- Where nothing is declared right under a condition or a loop, all names that belong to a scope are
declared in front of it. -/
theorem collects_blocked : Collects (· = ·) Blocked where
  parts h _ hpart := h.of_mem_parts hpart
  nil := rfl
  first type _ _ h := by
    rw [declaredFirst, Outline.own, hoisted_outlineList _ fun n hn => (h n hn).1,
      declared_outlineList (fun n hn => (h n hn).1) fun n hn => (h n hn).2]

/-- Binding is a walk that declares all names in front. -/
theorem after_bindNode (n : Node Place) {role : Role} (h : n.Formed role) (hblocked : n.Blocked)
    (s : State) : (bindNode n).after s = n.outline.bound true s :=
  (walks_bindNode collects_blocked n ⟨h, hblocked⟩ s).eq_bound

/-- What a statement declares for the block around it belongs there. -/
theorem sublist_declared_outline {n : Node Place} (h : n.Formed .statement) :
    (Semantics.blockDeclarations [n]).Sublist n.outline.declared := by
  obtain ⟨l, k⟩ := n
  have hfits := h.fits_kind
  cases k <;> simp only [kind_mk, Kind.fits, Kind.isStatement, Bool.false_eq_true] at hfits <;>
    rw [outline]
  case variableStatement keyword ds =>
    rw [(outlineVariables_spec keyword (formed_map_iff.mp h.parts)).1]
    rw [Semantics.blockDeclarations, List.flatMap_singleton]
    exact List.Sublist.refl _
  case functionDeclaration => exact List.Sublist.refl _
  case typeAlias => exact List.Sublist.refl _
  all_goals exact List.nil_sublist _

/-- In every tree, the names that are declared in front of a scope are some of those that belong to it. -/
theorem collects_any : Collects List.Sublist fun _ => True where
  parts _ _ _ := trivial
  nil := List.Sublist.refl _
  first {_ _ ns} type _ hk h := by
    clear hk
    rw [declaredFirst, Outline.own, hoisted_outlineList ns fun n hn => (h n hn).1]
    refine (List.Sublist.refl _).append ?_
    induction ns with
    | nil => exact List.nil_sublist _
    | cons n ns ih =>
      rw [outlineList, Outline.declared_append, Semantics.blockDeclarations_cons]
      exact (sublist_declared_outline (h n List.mem_cons_self).1).append
        (ih fun m hm => h m (List.mem_cons_of_mem _ hm))

end Syntax.Node

end ScriptAnalysis

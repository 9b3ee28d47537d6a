import ScriptAnalysis.Proofs.Names.Classification
import ScriptAnalysis.Proofs.Syntax.OneTree

/-!
# The references of one scope

Binding keeps scopes for the file, for functions and for blocks. `Outline.levels` lists for each of them the
references that stand in the scope itself, and with each reference what the scope has declared when binding
comes to it: what is declared in front, and what has been passed on the way. Only declarations right under a
condition or a loop are not declared in front (`Tree.declaresLate`, `Node.collects_front`).
-/

namespace ScriptAnalysis

open Names (Referred Outline)
open Scoping (ScopeType)
open Semantics (Declaration SymbolKind)
open Syntax (Ident Kind Node NodeId Place Role Tree VariableKind)

namespace Names

/-! ### Levels -/

/-- A reference and what the scope that it stands in has declared when binding comes to it. -/
structure Placed where
  /-- The reference. -/
  reference : Referred Place
  /-- What has been declared. -/
  declared : List Declaration

namespace Placed

/-- Whether the scope itself has declared what the reference names. -/
def isOwn (x : Placed) : Bool := x.declared.any (·.toDeclared.answers x.reference)

/-- The number of the reference. -/
def id (x : Placed) : NodeId := x.reference.label.id

/-- Whether two references name the same: both are to values or both to types, and they have one name. -/
def NamesSame (x y : Placed) : Prop :=
  x.reference.name = y.reference.name ∧ x.reference.isType = y.reference.isType

instance (x y : Placed) : Decidable (x.NamesSame y) := inferInstanceAs (Decidable (_ ∧ _))

end Placed

namespace Outline

/-- The references that stand in a scope itself. What the scope declares in front is given; a type has no
scope of its own. -/
def direct (declared : List Declaration) : Outline Declaration (Referred Place) → List Placed
  | done => []
  | declare isHoisted d rest => rest.direct (if isHoisted then declared else declared ++ [d])
  | refer r rest => (if r.isInitial then [] else [⟨r, declared⟩]) ++ rest.direct declared
  | scope type _ body rest =>
    (if type = .typeAlias then body.direct declared else []) ++ rest.direct declared

/-- The references of each scope; `isLate` says which declarations are not declared in front. -/
def levels (isLate : Declaration → Bool) : Outline Declaration (Referred Place) → List (List Placed)
  | done => []
  | declare _ _ rest => rest.levels isLate
  | refer _ rest => rest.levels isLate
  | scope type header body rest =>
    header.levels isLate ++
      ((if type = .typeAlias then []
        else [body.direct (header.own type ++ (body.own type).filter (!isLate ·))]) ++
        (body.levels isLate ++ rest.levels isLate))

section

variable {o : Outline Declaration (Referred Place)} {isLate : Declaration → Bool}

/-- Which references stand in a scope does not depend on what has been declared. -/
theorem map_reference_direct (o : Outline Declaration (Referred Place)) (declared declared' : List Declaration) :
    (o.direct declared).map Placed.reference = (o.direct declared').map Placed.reference := by
  induction o generalizing declared declared' with
  | done => rfl
  | declare isHoisted d rest ih => exact ih _ _
  | refer r rest ih =>
    rw [direct, direct, List.map_append, List.map_append, ih declared declared']
    cases r.isInitial <;> rfl
  | scope type header body rest _ ihBody ih =>
    rw [direct, direct, List.map_append, List.map_append, ih declared declared']
    split
    · rw [ihBody declared declared']
    · rfl

theorem map_reference_levels (o : Outline Declaration (Referred Place)) (isLate isLate' : Declaration → Bool) :
    (o.levels isLate).map (·.map Placed.reference) = (o.levels isLate').map (·.map Placed.reference) := by
  induction o with
  | done => rfl
  | declare isHoisted d rest ih => exact ih
  | refer r rest ih => exact ih
  | scope type header body rest ihHeader ihBody ih =>
    rw [levels, levels]
    simp only [List.map_append, ihHeader, ihBody, ih]
    split
    · rfl
    · rw [List.map_singleton, List.map_singleton, map_reference_direct]

theorem reference_mem_reads_of_mem_direct {declared : List Declaration} {x : Placed}
    (h : x ∈ o.direct declared) : x.reference ∈ o.reads := by
  induction o generalizing declared with
  | done => exact absurd h List.not_mem_nil
  | declare isHoisted d rest ih => exact ih h
  | refer r rest ih =>
    rw [direct] at h
    rw [reads_refer]
    rcases List.mem_append.mp h with h | h
    · split at h
      · exact absurd h List.not_mem_nil
      · obtain rfl := List.mem_singleton.mp h
        simp_all
    · exact List.mem_append_right _ (ih h)
  | scope type header body rest _ ihBody ih =>
    rw [direct] at h
    rw [reads_scope]
    rcases List.mem_append.mp h with h | h
    · split at h
      · exact List.mem_append_right _ (List.mem_append_left _ (ihBody h))
      · exact absurd h List.not_mem_nil
    · exact List.mem_append_right _ (List.mem_append_right _ (ih h))

theorem reference_mem_reads_of_mem_levels {level : List Placed} (hlevel : level ∈ o.levels isLate) {x : Placed}
    (hx : x ∈ level) : x.reference ∈ o.reads := by
  induction o with
  | done => exact absurd hlevel List.not_mem_nil
  | declare isHoisted d rest ih => exact ih hlevel
  | refer r rest ih =>
    rw [reads_refer]
    exact List.mem_append_right _ (ih hlevel)
  | scope type header body rest ihHeader ihBody ih =>
    rw [levels] at hlevel
    rw [reads_scope]
    rcases List.mem_append.mp hlevel with hlevel | hlevel
    · exact List.mem_append_left _ (ihHeader hlevel)
    refine List.mem_append_right _ ?_
    rcases List.mem_append.mp hlevel with hlevel | hlevel
    · split at hlevel
      · exact absurd hlevel List.not_mem_nil
      · obtain rfl := List.mem_singleton.mp hlevel
        exact List.mem_append_left _ (reference_mem_reads_of_mem_direct hx)
    · exact List.mem_append.mpr ((List.mem_append.mp hlevel).imp ihBody ih)

/-- A reference that is in no header stands in the outline itself or in one of its scopes. -/
theorem placed_of_mem_occurrences (o : Outline Declaration (Referred Place)) (declared : List Declaration)
    {scopes : List (List Declaration)} {x : Referred Place × List (List Declaration)}
    (hx : x ∈ o.occurrences scopes) (hinitial : x.1.isInitial = false) :
    (∃ y ∈ o.direct declared, y.reference = x.1) ∨ ∃ level ∈ o.levels isLate, ∃ y ∈ level, y.reference = x.1 := by
  induction o generalizing declared scopes with
  | done => exact absurd hx List.not_mem_nil
  | declare isHoisted d rest ih => exact ih _ hx
  | refer r rest ih =>
    rcases List.mem_cons.mp hx with rfl | hx
    · refine .inl ⟨⟨r, declared⟩, ?_, rfl⟩
      have hread : r.isInitial = false := hinitial
      rw [direct, hread]
      exact List.mem_cons_self
    · refine (ih declared hx).imp_left fun ⟨y, hy, heq⟩ => ⟨y, ?_, heq⟩
      exact List.mem_append_right _ hy
  | scope type header body rest _ ihBody ih =>
    rw [direct, levels]
    rcases List.mem_append.mp hx with hx | hx
    · by_cases halias : type = .typeAlias
      · simp only [if_pos halias]
        refine (ihBody declared hx).imp (fun ⟨y, hy, heq⟩ => ⟨y, List.mem_append_left _ hy, heq⟩) ?_
        exact fun ⟨level, hlevel, h⟩ => ⟨level, by simp [hlevel], h⟩
      · simp only [if_neg halias]
        refine .inr ?_
        rcases ihBody (header.own type ++ (body.own type).filter (!isLate ·)) hx with h | ⟨level, hlevel, h⟩
        · exact ⟨_, by simp, h⟩
        · exact ⟨level, by simp [hlevel], h⟩
    · refine (ih declared hx).imp (fun ⟨y, hy, heq⟩ => ⟨y, List.mem_append_right _ hy, heq⟩) ?_
      exact fun ⟨level, hlevel, h⟩ => ⟨level, by simp [hlevel], h⟩

end

/-! ### Outlines of trees -/

/-- Nothing but references, as in a type. -/
def RefersOnly : Outline Declaration (Referred Place) → Prop
  | refer _ rest => rest.RefersOnly
  | done => True
  | _ => False

/-- What the outlines of all trees have in common: variables of functions alone are hoisted, and the scope
of a type alias has nothing but references. -/
def WellMade : Outline Declaration (Referred Place) → Prop
  | done => True
  | declare isHoisted d rest => (isHoisted = true → d.kind = .functionVariable) ∧ rest.WellMade
  | refer _ rest => rest.WellMade
  | scope type header body rest =>
    (type = .typeAlias → header = done ∧ body.RefersOnly) ∧ header.WellMade ∧ body.WellMade ∧ rest.WellMade

section

variable {o o' : Outline Declaration (Referred Place)}

theorem RefersOnly.append (h : o.RefersOnly) (h' : o'.RefersOnly) : (o ++ o').RefersOnly := by
  induction o with
  | done => exact h'
  | refer r rest ih => exact ih h
  | declare => exact h.elim
  | scope => exact h.elim

theorem WellMade.append (h : o.WellMade) (h' : o'.WellMade) : (o ++ o').WellMade := by
  induction o with
  | done => exact h'
  | declare isHoisted d rest ih => exact ⟨h.1, ih h.2⟩
  | refer r rest ih => exact ih h
  | scope type header body rest _ _ ih => exact ⟨h.1, h.2.1, h.2.2.1, ih h.2.2.2⟩

theorem RefersOnly.wellMade (h : o.RefersOnly) : o.WellMade := by
  induction o with
  | done => trivial
  | refer r rest ih => exact ih h
  | declare => exact h.elim
  | scope => exact h.elim

theorem RefersOnly.silent (h : o.RefersOnly) : o.Silent := by
  induction o with
  | done => exact silent_done
  | refer r rest ih => exact ih h
  | declare => exact h.elim
  | scope => exact h.elim

theorem WellMade.kind_of_mem_hoisted (h : o.WellMade) {d : Declaration} (hd : d ∈ o.hoisted) :
    d.kind = .functionVariable := by
  induction o with
  | done => exact absurd hd List.not_mem_nil
  | declare isHoisted d' rest ih =>
    cases isHoisted with
    | false => exact ih h.2 hd
    | true => exact (List.mem_cons.mp hd).elim (fun heq => heq ▸ h.1 rfl) (ih h.2)
  | refer r rest ih => exact ih h hd
  | scope type header body rest ihHeader ihBody ih =>
    rw [hoisted] at hd
    rcases List.mem_append.mp hd with hd | hd
    · split at hd
      · exact absurd hd List.not_mem_nil
      · exact (List.mem_append.mp hd).elim (ihHeader h.2.1) (ihBody h.2.2.1)
    · exact ih h.2.2.2 hd

/-- Every level is what stands in the body of one scope. -/
theorem WellMade.exists_scope (h : o.WellMade) {isLate : Declaration → Bool} {level : List Placed}
    (hlevel : level ∈ o.levels isLate) :
    ∃ (type : ScopeType) (header body : Outline Declaration (Referred Place)), body.WellMade ∧
      level = body.direct (header.own type ++ (body.own type).filter (!isLate ·)) := by
  induction o with
  | done => exact absurd hlevel List.not_mem_nil
  | declare isHoisted d rest ih => exact ih h.2 hlevel
  | refer r rest ih => exact ih h hlevel
  | scope type header body rest ihHeader ihBody ih =>
    rw [levels] at hlevel
    rcases List.mem_append.mp hlevel with hlevel | hlevel
    · exact ihHeader h.2.1 hlevel
    rcases List.mem_append.mp hlevel with hlevel | hlevel
    · split at hlevel
      · exact absurd hlevel List.not_mem_nil
      · exact ⟨type, header, body, h.2.2.1, List.mem_singleton.mp hlevel⟩
    · exact (List.mem_append.mp hlevel).elim (ihBody h.2.2.1) (ih h.2.2.2)

/-- What a scope has declared at a reference is what is declared in front and some of what stands in it. -/
theorem WellMade.declared_of_mem_direct (h : o.WellMade) {declared : List Declaration} {x : Placed}
    (hx : x ∈ o.direct declared) : declared ⊆ x.declared ∧ x.declared ⊆ declared ++ o.declared := by
  induction o generalizing declared with
  | done => exact absurd hx List.not_mem_nil
  | declare isHoisted d rest ih =>
    cases isHoisted with
    | true => exact ih h.2 hx
    | false =>
      obtain ⟨hfront, hall⟩ := ih h.2 hx
      rw [if_neg Bool.false_ne_true] at hfront hall
      rw [List.append_assoc] at hall
      exact ⟨List.Subset.trans (List.subset_append_left _ _) hfront, hall⟩
  | refer r rest ih =>
    rcases List.mem_append.mp hx with hx | hx
    · split at hx
      · exact absurd hx List.not_mem_nil
      · obtain rfl := List.mem_singleton.mp hx
        exact ⟨List.Subset.refl _, List.subset_append_left _ _⟩
    · exact ih h hx
  | scope type header body rest _ ihBody ih =>
    rcases List.mem_append.mp hx with hx | hx
    · split at hx
      · rename_i halias
        obtain ⟨hfront, hall⟩ := ihBody h.2.2.1 hx
        rw [(h.1 halias).2.silent.1, List.append_nil] at hall
        exact ⟨hfront, List.Subset.trans hall (List.subset_append_left _ _)⟩
      · exact absurd hx List.not_mem_nil
    · exact ih h.2.2.2 hx

/-- A name that a scope has declared at one of its references and not at another is declared late. -/
theorem WellMade.exists_late (h : o.WellMade) {isLate : Declaration → Bool} {level : List Placed}
    (hlevel : level ∈ o.levels isLate) {x y : Placed} (hx : x ∈ level) (hy : y ∈ level) (hsame : x.NamesSame y)
    (hown : x.isOwn = true) (hother : y.isOwn = false) :
    ∃ d ∈ x.declared, isLate d = true ∧ d.toDeclared.answers x.reference = true := by
  obtain ⟨type, header, body, hbody, rfl⟩ := h.exists_scope hlevel
  obtain ⟨d, hd, hanswers⟩ := List.any_eq_true.mp hown
  refine ⟨d, hd, ?_, hanswers⟩
  have hnot : d ∉ y.declared := by
    intro hd'
    rw [Declared.answers_iff, hsame.1, hsame.2, ← Declared.answers_iff] at hanswers
    rw [Placed.isOwn, List.any_eq_true.mpr ⟨d, hd', hanswers⟩] at hother
    cases hother
  have hfront := fun hmem => hnot ((hbody.declared_of_mem_direct hy).1 hmem)
  have hstands := ((List.mem_append.mp ((hbody.declared_of_mem_direct hx).2 hd))).resolve_left hfront
  by_contra hlate
  refine hfront (List.mem_append_right _ (List.mem_filter.mpr ⟨List.mem_append_right _ hstands, ?_⟩))
  simpa using hlate

end

end Outline

end Names

namespace Syntax.Node

mutual

/-- A type refers to names and does nothing else. -/
theorem refersOnly_type : (n : Node Place) → n.Formed .type → n.outline.RefersOnly
  | .mk l k, h => by
    have hfits := h.fits_kind
    have hparts := h.parts
    cases k <;> simp only [kind_mk, Kind.fits, Kind.isType, Bool.false_eq_true] at hfits <;>
      rw [outline]
    case keywordType => trivial
    case typeReference => trivial
    case arrayType element => exact refersOnly_type element (hparts _ List.mem_cons_self)
    case unionType members => exact refersOnly_types members (formed_map_iff.mp hparts)

theorem refersOnly_types : (ns : List (Node Place)) → (∀ n ∈ ns, n.Formed .type) →
    (outlineList ns).RefersOnly
  | [], _ => by
    rw [outlineList]
    trivial
  | n :: ns, h => by
    rw [outlineList]
    exact (refersOnly_type n (h n List.mem_cons_self)).append
      (refersOnly_types ns fun m hm => h m (List.mem_cons_of_mem _ hm))

end

/-- No reference stands outside a file. -/
theorem direct_file {n : Node Place} (h : n.Formed .file) (declared : List Declaration) :
    n.outline.direct declared = [] := by
  obtain ⟨l, k⟩ := n
  have hfits := h.fits_kind
  cases k <;> simp only [kind_mk, Kind.fits, Bool.false_eq_true] at hfits
  case sourceFile body =>
    rw [outline]
    rfl

theorem wellMade_outlineInitial (name : Ident Place) (init? : Option (Node Place)) :
    (outlineInitial name init?).WellMade := by
  cases init? <;> trivial

theorem wellMade_outlineBody_of {n : Node Place} (h : n.outline.WellMade) : n.outlineBody.WellMade := by
  obtain ⟨l, k⟩ := n
  cases k with
  | block body =>
    rw [outline] at h
    rw [outlineBody]
    exact h.2.2.1
  | _ => simpa [outlineBody] using h

theorem wellMade_function {header body rest : Outline Declaration (Referred Place)} (hheader : header.WellMade)
    (hbody : body.WellMade) (hrest : rest.WellMade) :
    (Outline.scope .function header body rest).WellMade :=
  ⟨nofun, hheader, hbody, hrest⟩

mutual

/-- The outlines of trees are well made. -/
theorem wellMade_outline : (n : Node Place) → {role : Role} → n.Formed role → n.outline.WellMade
  | .mk l k, role, h => by
    have hparts := h.parts
    cases k <;> rw [outline]
    case sourceFile body =>
      exact ⟨nofun, trivial, wellMade_outlineList body (formed_map_iff.mp hparts), trivial⟩
    case variableStatement keyword ds => exact wellMade_outlineVariables keyword ds (formed_map_iff.mp hparts)
    case variableDeclaration name type? init? =>
      obtain ⟨htype, hinit⟩ := List.forall_mem_append.mp hparts
      exact (wellMade_outlineOption type? (formed_toList_iff.mp htype)).append
        (wellMade_outlineOption init? (formed_toList_iff.mp hinit))
    case parameter name type? init? =>
      obtain ⟨htype, hinit⟩ := List.forall_mem_append.mp hparts
      exact (wellMade_outlineOption type? (formed_toList_iff.mp htype)).append
        (wellMade_outlineOption init? (formed_toList_iff.mp hinit))
    case functionDeclaration name params returnType? body =>
      obtain ⟨hparams, hrest⟩ := List.forall_mem_append.mp hparts
      obtain ⟨htype, hbody⟩ := List.forall_mem_append.mp hrest
      refine ⟨nofun, wellMade_function ?_ ?_ trivial⟩
      · exact (wellMade_outlineParams params (formed_map_iff.mp hparams)).append
          (wellMade_outlineOption returnType? (formed_toList_iff.mp htype))
      · exact wellMade_outlineBody_of (wellMade_outline body (hbody _ List.mem_cons_self))
    case arrowFunction params returnType? body =>
      obtain ⟨hparams, hrest⟩ := List.forall_mem_append.mp hparts
      obtain ⟨htype, hbody⟩ := List.forall_mem_append.mp hrest
      refine wellMade_function ?_ ?_ trivial
      · exact (wellMade_outlineParams params (formed_map_iff.mp hparams)).append
          (wellMade_outlineOption returnType? (formed_toList_iff.mp htype))
      · exact wellMade_outlineBody_of (wellMade_outline body (hbody _ List.mem_cons_self))
    case typeAlias name type =>
      have htype := refersOnly_type type (hparts _ List.mem_cons_self)
      exact ⟨nofun, fun _ => ⟨rfl, htype⟩, trivial, htype.wellMade, trivial⟩
    case block body =>
      exact ⟨nofun, trivial, wellMade_outlineList body (formed_map_iff.mp hparts), trivial⟩
    case expressionStatement e => exact wellMade_outline e (hparts _ List.mem_cons_self)
    case returnStatement e? => exact wellMade_outlineOption e? (formed_toList_iff.mp hparts)
    case ifStatement cond thenBranch elseBranch? =>
      obtain ⟨hcond, hbranches⟩ := List.forall_mem_cons.mp hparts
      obtain ⟨hthen, helse⟩ := List.forall_mem_cons.mp hbranches
      exact (wellMade_outline cond hcond).append ((wellMade_outline thenBranch hthen).append
        (wellMade_outlineOption elseBranch? (formed_toList_iff.mp helse)))
    case whileStatement cond body =>
      obtain ⟨hcond, hbody⟩ := List.forall_mem_cons.mp hparts
      exact (wellMade_outline cond hcond).append (wellMade_outline body (hbody _ List.mem_cons_self))
    case arrayLiteral elements => exact wellMade_outlineList elements (formed_map_iff.mp hparts)
    case parenthesized e => exact wellMade_outline e (hparts _ List.mem_cons_self)
    case call callee args =>
      obtain ⟨hcallee, hargs⟩ := List.forall_mem_cons.mp hparts
      exact (wellMade_outline callee hcallee).append (wellMade_outlineList args (formed_map_iff.mp hargs))
    case propertyAccess e name => exact wellMade_outline e (hparts _ List.mem_cons_self)
    case prefixUnary op e => exact wellMade_outline e (hparts _ List.mem_cons_self)
    case binary op left right =>
      obtain ⟨hleft, hright⟩ := List.forall_mem_cons.mp hparts
      exact (wellMade_outline left hleft).append (wellMade_outline right (hright _ List.mem_cons_self))
    case arrayType element => exact wellMade_outline element (hparts _ List.mem_cons_self)
    case unionType members => exact wellMade_outlineList members (formed_map_iff.mp hparts)
    all_goals trivial

theorem wellMade_outlineList : (ns : List (Node Place)) → {role : Role} → (∀ n ∈ ns, n.Formed role) →
    (outlineList ns).WellMade
  | [], _, _ => by
    rw [outlineList]
    trivial
  | n :: ns, _, h => by
    rw [outlineList]
    exact (wellMade_outline n (h n List.mem_cons_self)).append
      (wellMade_outlineList ns fun m hm => h m (List.mem_cons_of_mem _ hm))

theorem wellMade_outlineOption : (n? : Option (Node Place)) → {role : Role} → (∀ n ∈ n?, n.Formed role) →
    (outlineOption n?).WellMade
  | none, _, _ => by
    rw [outlineOption]
    trivial
  | some n, _, h => by
    rw [outlineOption]
    exact wellMade_outline n (h n rfl)

theorem wellMade_outlineVariables (keyword : VariableKind) : (ns : List (Node Place)) →
    (∀ n ∈ ns, n.Formed .declaration) → (outlineVariables keyword ns).WellMade
  | [], _ => by
    rw [outlineVariables]
    trivial
  | .mk l k :: ns, h => by
    have hfits := (h _ List.mem_cons_self).fits_kind
    have hparts := (h _ List.mem_cons_self).parts
    have hns := wellMade_outlineVariables keyword ns fun m hm => h m (List.mem_cons_of_mem _ hm)
    cases k <;> simp only [kind_mk, Kind.fits, Bool.false_eq_true] at hfits
    case variableDeclaration name type? init? =>
      obtain ⟨htype, hinit⟩ := List.forall_mem_append.mp hparts
      rw [outlineVariables]
      refine ⟨fun hvar => ?_, (wellMade_outlineOption type? (formed_toList_iff.mp htype)).append
        ((wellMade_outlineInitial name init?).append
          ((wellMade_outlineOption init? (formed_toList_iff.mp hinit)).append hns))⟩
      -- only `var` is not scoped to blocks
      cases keyword with
      | var => rfl
      | _ => cases hvar

theorem wellMade_outlineParams : (ns : List (Node Place)) → (∀ n ∈ ns, n.Formed .parameter) →
    (outlineParams ns).WellMade
  | [], _ => by
    rw [outlineParams]
    trivial
  | .mk l k :: ns, h => by
    have hfits := (h _ List.mem_cons_self).fits_kind
    have hparts := (h _ List.mem_cons_self).parts
    have hns := wellMade_outlineParams ns fun m hm => h m (List.mem_cons_of_mem _ hm)
    cases k <;> simp only [kind_mk, Kind.fits, Bool.false_eq_true] at hfits
    case parameter name type? init? =>
      obtain ⟨htype, hinit⟩ := List.forall_mem_append.mp hparts
      rw [outlineParams]
      exact ⟨fun _ => rfl, (wellMade_outlineOption type? (formed_toList_iff.mp htype)).append
        ((wellMade_outlineInitial name init?).append
          ((wellMade_outlineOption init? (formed_toList_iff.mp hinit)).append hns))⟩

end

end Syntax.Node

/-! ### Declarations that are not in front -/

/-- In front is what is not late. -/
def Semantics.Binding.InFront (isLate : Declaration → Bool) (first own : List Declaration) : Prop :=
  first = own.filter (!isLate ·)

namespace Syntax.Tree

/-- Whether a node stands right under a condition or a loop. -/
def isBranch (t : Tree) (id : NodeId) : Bool := (t.parentNode? id).any fun n => !n.kind.branches.isEmpty

/-- Whether a declaration is entered only when binding comes to it: it belongs to the block around it, and
the statement that it is part of stands right under a condition or a loop. -/
def declaresLate (t : Tree) (d : Declaration) : Bool :=
  match d.kind with
  | .function | .typeAlias => t.isBranch d.node
  | .blockVariable | .constant => (t.parent? d.node).any t.isBranch
  | _ => false

namespace Numbered

variable {t : Tree} (ht : t.Numbered) {n c : Node Place}

include ht

theorem isBranch_id (hn : n ∈ t.root.nodes) (hc : c ∈ n.children) :
    t.isBranch c.id = !n.kind.branches.isEmpty := by
  rw [isBranch, parentNode?, ht.parent?_id hn hc, Option.bind_some, ht.node?_iff.mpr ⟨hn, rfl⟩]
  rfl

/-- What a statement declares in the block around it is late when the statement is a branch. -/
theorem declaresLate_eq (hn : n ∈ t.root.nodes) {d : Declaration}
    (hd : d ∈ Semantics.blockDeclarations [n]) : t.declaresLate d = t.isBranch n.id := by
  obtain ⟨l, k⟩ := n
  rw [Semantics.blockDeclarations, List.flatMap_singleton] at hd
  cases k <;> simp only [Node.kind_mk, List.not_mem_nil] at hd
  case variableStatement keyword ds =>
    split at hd
    · rename_i hscoped
      obtain ⟨c, hc, hc'⟩ := List.mem_filterMap.mp hd
      have hchild : c ∈ (Node.mk l (.variableStatement keyword ds)).children := by
        simpa [Node.children, Node.shape, Kind.map, Kind.children] using hc
      split at hc'
      · obtain rfl := Option.some.inj hc'
        have hparent := ht.parent?_id hn hchild
        cases keyword with
        | var => cases hscoped
        | _ =>
          rw [declaresLate]
          dsimp only [SymbolKind.ofVariableKind]
          rw [hparent]
          rfl
      · cases hc'
    · exact absurd hd List.not_mem_nil
  case functionDeclaration => exact List.mem_singleton.mp hd ▸ rfl
  case typeAlias => exact List.mem_singleton.mp hd ▸ rfl

end Numbered

end Syntax.Tree

namespace Syntax.Node

section

variable {t : Tree}

/-- Nothing of what a branch declares in the block around it is in front. -/
theorem front_branch (ht : t.Numbered) {l : Place} {k : Kind (Ident Place) (Node Place)} {b : Node Place}
    (hn : mk l k ∈ t.root.nodes) (hb : b ∈ (mk l k).children) (hk : k.branches ≠ []) :
    (Semantics.blockDeclarations [b]).filter (!t.declaresLate ·) = [] := by
  have hbranch : t.isBranch b.id = true := by
    rw [ht.isBranch_id hn hb]
    simpa using hk
  refine List.filter_eq_nil_iff.mpr fun d hd => ?_
  have hmem := nodes_subset_of_mem_nodes hn (nodes_subset_of_mem_children hb (mem_nodes_self b))
  simp [ht.declaresLate_eq hmem hd, hbranch]

mutual

/-- Of what a statement declares in the block around it, in front is what the block collects. -/
theorem front_outline (ht : t.Numbered) : (n : Node Place) → n.Formed .statement → n ∈ t.root.nodes →
    n.outline.declared.filter (!t.declaresLate ·) =
      (Semantics.blockDeclarations [n]).filter (!t.declaresLate ·)
  | .mk l k, h, hn => by
    have hfits := h.fits_kind
    have hparts := h.parts
    have hchild : ∀ part ∈ k.parts, part.2 ∈ (mk l k).children := fun _ => mem_children_of_mem_parts
    have hnodes : ∀ part ∈ k.parts, part.2 ∈ t.root.nodes := fun part hpart =>
      nodes_subset_of_mem_nodes hn (nodes_subset_of_mem_children (hchild part hpart) (mem_nodes_self _))
    cases k <;> simp only [kind_mk, Kind.fits, Kind.isStatement, Bool.false_eq_true] at hfits <;>
      rw [outline]
    case variableStatement keyword ds =>
      rw [(outlineVariables_spec keyword (formed_map_iff.mp hparts)).1]
      exact congrArg _ (List.flatMap_singleton ..).symm
    case functionDeclaration => rfl
    case typeAlias => rfl
    case block => rfl
    case expressionStatement e =>
      rw [(silent_expression e (hparts _ List.mem_cons_self)).1]
      rfl
    case returnStatement e? =>
      rw [(silent_expression? (formed_toList_iff.mp hparts)).1]
      rfl
    case ifStatement cond thenBranch elseBranch? =>
      have hthen : (Role.statement, thenBranch) ∈
          (Kind.ifStatement cond thenBranch elseBranch? : Kind (Ident Place) (Node Place)).parts :=
        List.mem_cons_of_mem _ List.mem_cons_self
      have helse : ∀ b ∈ elseBranch?, (Role.statement, b) ∈
          (Kind.ifStatement cond thenBranch elseBranch? : Kind (Ident Place) (Node Place)).parts :=
        fun b hb => List.mem_cons_of_mem _
          (List.mem_cons_of_mem _ (List.mem_map_of_mem (Option.mem_toList.mpr hb)))
      rw [declared_append_of_silent (silent_expression cond (hparts _ List.mem_cons_self)),
        Outline.declared_append, List.filter_append,
        front_outline ht thenBranch (hparts _ hthen) (hnodes _ hthen),
        front_branch ht hn (hchild _ hthen) (List.cons_ne_nil _ _),
        front_outlineOption ht elseBranch? (fun b hb => hparts _ (helse b hb))
          (fun b hb => hnodes _ (helse b hb))
          fun b hb => front_branch ht hn (hchild _ (helse b hb)) (List.cons_ne_nil _ _)]
      rfl
    case whileStatement cond body =>
      have hbody : (Role.statement, body) ∈
          (Kind.whileStatement cond body : Kind (Ident Place) (Node Place)).parts :=
        List.mem_cons_of_mem _ List.mem_cons_self
      rw [declared_append_of_silent (silent_expression cond (hparts _ List.mem_cons_self)),
        front_outline ht body (hparts _ hbody) (hnodes _ hbody),
        front_branch ht hn (hchild _ hbody) (List.cons_ne_nil _ _)]
      rfl
    case emptyStatement => rfl

theorem front_outlineOption (ht : t.Numbered) : (n? : Option (Node Place)) → (∀ n ∈ n?, n.Formed .statement) →
    (∀ n ∈ n?, n ∈ t.root.nodes) →
    (∀ n ∈ n?, (Semantics.blockDeclarations [n]).filter (!t.declaresLate ·) = []) →
    (outlineOption n?).declared.filter (!t.declaresLate ·) = []
  | none, _, _, _ => by
    rw [outlineOption]
    rfl
  | some n, h, hn, hnone => by
    rw [outlineOption, front_outline ht n (h n rfl) (hn n rfl), hnone n rfl]

end

theorem front_outlineList (ht : t.Numbered) {ns : List (Node Place)}
    (h : ∀ n ∈ ns, n.Formed .statement ∧ n ∈ t.root.nodes) :
    (outlineList ns).declared.filter (!t.declaresLate ·) =
      (Semantics.blockDeclarations ns).filter (!t.declaresLate ·) := by
  induction ns with
  | nil =>
    rw [outlineList]
    rfl
  | cons n ns ih =>
    rw [outlineList, Outline.declared_append, Semantics.blockDeclarations_cons, List.filter_append,
      List.filter_append, front_outline ht n (h n List.mem_cons_self).1 (h n List.mem_cons_self).2,
      ih fun m hm => h m (List.mem_cons_of_mem _ hm)]

/-- What the statements of a file or of a block declare in the block is in front. -/
theorem front_blockDeclarations (ht : t.Numbered) {l : Place} {k : Kind (Ident Place) (Node Place)}
    {ns : List (Node Place)} (hn : mk l k ∈ t.root.nodes) (hk : k = .sourceFile ns ∨ k = .block ns) :
    ∀ d ∈ Semantics.blockDeclarations ns, t.declaresLate d = false := by
  intro d hd
  obtain ⟨n, hmem, hd⟩ := List.mem_flatMap.mp hd
  have hchild : n ∈ (mk l k).children := by
    rcases hk with rfl | rfl <;> simpa [children, shape, Kind.map, Kind.children] using hmem
  have hbranches : k.branches = [] := by rcases hk with rfl | rfl <;> rfl
  have hnode := nodes_subset_of_mem_nodes hn (nodes_subset_of_mem_children hchild (mem_nodes_self n))
  rw [ht.declaresLate_eq hnode (by simpa [Semantics.blockDeclarations] using hd), ht.isBranch_id hn hchild,
    kind_mk, hbranches]
  rfl

/-- In front of the statements of a file or of a block, what belongs to their scope and is not late is
declared. -/
theorem collects_front (ht : t.Numbered) :
    Collects (Semantics.Binding.InFront t.declaresLate) (· ∈ t.root.nodes) where
  parts h _ hpart :=
    nodes_subset_of_mem_nodes h (nodes_subset_of_mem_children (mem_children_of_mem_parts hpart) (mem_nodes_self _))
  nil := rfl
  first {l k ns} type hn hk h := by
    have hhoisted : ((outlineList ns).hoisted).filter (!t.declaresLate ·) = (outlineList ns).hoisted := by
      refine List.filter_eq_self.mpr fun d hd => ?_
      rw [Tree.declaresLate, (wellMade_outlineList ns fun n hn => (h n hn).1).kind_of_mem_hoisted hd]
      rfl
    have hfront : (Semantics.blockDeclarations ns).filter (!t.declaresLate ·) =
        Semantics.blockDeclarations ns :=
      List.filter_eq_self.mpr fun d hd => by simp [front_blockDeclarations ht hn hk d hd]
    have hdeclared := front_outlineList ht h
    rw [Semantics.Binding.InFront, declaredFirst, Outline.own, List.filter_append, hdeclared, hfront,
      ← hoisted_outlineList ns fun n hn => (h n hn).1]
    cases type.isVariableScope with
    | true => rw [if_pos rfl, hhoisted]
    | false => rfl

end

end Syntax.Node

end ScriptAnalysis

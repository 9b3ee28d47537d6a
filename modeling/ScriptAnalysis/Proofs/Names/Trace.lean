import Mathlib.Data.List.Forall2
import ScriptAnalysis.Proofs.Names.Common

/-!
# What happens where

A trace follows the steps of a walk and notes for every declared name the scope that it goes to, and for
every reference the scopes around it, innermost first. Scopes are numbered in the order in which they are
opened.

The trace of an outline is what the outline says: the declarations in a scope are the ones that the scope
owns (`mem_declarations_visit`), and the scopes around a reference declare what its occurrence says
(`references_visit`).
-/

namespace ScriptAnalysis.Names

open Scoping (ScopeId ScopeType)

/-- An open scope. -/
structure Site where
  /-- The number of the scope. -/
  id : ScopeId
  /-- The scope that variables declared with `var` in it go to. -/
  variableScope : ScopeId
  deriving DecidableEq, Repr

/-- What has happened in a walk. -/
structure Trace (α : Type) where
  /-- How many scopes have been opened. -/
  count : Nat
  /-- The open scopes, innermost first. -/
  sites : List Site
  /-- The declared names, each with the scope that it goes to. -/
  declarations : List (ScopeId × Declared α)
  /-- The references, each with the scopes around it. -/
  references : List (List ScopeId × Referred α)

namespace Trace

variable {α : Type}

/-- Nothing has happened. -/
def empty : Trace α := ⟨0, [], [], []⟩

/-- The scope that is opened next. -/
def nextSite (t : Trace α) (type : ScopeType) : Site :=
  ⟨t.count, if type.isVariableScope then t.count
    else (t.sites.head?.map (·.variableScope)).getD t.count⟩

/-- The trace after a step. -/
def step (t : Trace α) : Step α → Trace α
  | .openScope type => { t with count := t.count + 1, sites := t.nextSite type :: t.sites }
  | .closeScope => { t with sites := t.sites.tail }
  | .declare isHoisted d =>
    match t.sites with
    | [] => t
    | site :: _ =>
      let scope := if isHoisted then site.variableScope else site.id
      { t with declarations := t.declarations ++ [(scope, d)] }
  | .refer r =>
    match t.sites with
    | [] => t
    | _ :: _ => { t with references := t.references ++ [(t.sites.map (·.id), r)] }

/-- The trace after several steps. -/
def follow (t : Trace α) (steps : List (Step α)) : Trace α := steps.foldl step t

@[simp] theorem follow_nil (t : Trace α) : t.follow [] = t := rfl

@[simp] theorem follow_cons (t : Trace α) (a : Step α) (as : List (Step α)) :
    t.follow (a :: as) = (t.step a).follow as := rfl

@[simp] theorem follow_append (t : Trace α) (as bs : List (Step α)) :
    t.follow (as ++ bs) = (t.follow as).follow bs := List.foldl_append

/-! ### Open scopes -/

/-- Open scopes have numbers below `n`, inner ones larger than outer ones, and the scope for `var` of
each is the scope itself or one around it. -/
def Nested : Nat → List Site → Prop
  | _, [] => True
  | n, site :: sites =>
    site.id < n ∧ site.variableScope ∈ (site :: sites).map (·.id) ∧ Nested site.id sites

theorem Nested.mono {n m : Nat} {sites : List Site} (h : Nested n sites) (hle : n ≤ m) :
    Nested m sites := by
  cases sites with
  | nil => trivial
  | cons site sites => exact ⟨Nat.lt_of_lt_of_le h.1 hle, h.2⟩

theorem Nested.lt {n : Nat} {sites : List Site} (h : Nested n sites) {s : ScopeId}
    (hs : s ∈ sites.map (·.id)) : s < n := by
  induction sites generalizing n with
  | nil => simp at hs
  | cons site sites ih =>
    rcases List.mem_cons.mp hs with rfl | hs
    · exact h.1
    · exact Nat.lt_trans (ih h.2.2 hs) h.1

theorem Nested.nodup {n : Nat} {sites : List Site} (h : Nested n sites) :
    (sites.map (·.id)).Nodup := by
  induction sites generalizing n with
  | nil => exact List.nodup_nil
  | cons site sites ih =>
    refine List.nodup_cons.mpr ⟨fun hmem => ?_, ih h.2.2⟩
    exact Nat.lt_irrefl _ (h.2.2.lt hmem)

theorem Nested.variableScope_mem {n : Nat} {sites : List Site} (h : Nested n sites) {site : Site}
    (hsite : site ∈ sites) : site.variableScope ∈ sites.map (·.id) := by
  induction sites generalizing n with
  | nil => simp at hsite
  | cons first sites ih =>
    rcases List.mem_cons.mp hsite with rfl | hsite
    · exact h.2.1
    · exact List.mem_cons_of_mem _ (ih h.2.2 hsite)

/-- What holds of every trace of a walk. -/
structure Sound (t : Trace α) : Prop where
  nested : Nested t.count t.sites
  declarations : ∀ x ∈ t.declarations, x.1 < t.count
  references : ∀ x ∈ t.references, ∀ s ∈ x.1, s < t.count

theorem sound_empty : (empty : Trace α).Sound :=
  ⟨trivial, by simp [empty], by simp [empty]⟩

theorem Sound.step {t : Trace α} (h : t.Sound) (a : Step α) : (t.step a).Sound := by
  obtain ⟨hnested, hdeclarations, hreferences⟩ := h
  cases a with
  | openScope type =>
    refine ⟨⟨Nat.lt_succ_self _, ?_, hnested⟩, fun x hx => Nat.lt_succ_of_lt (hdeclarations x hx),
      fun x hx s hs => Nat.lt_succ_of_lt (hreferences x hx s hs)⟩
    unfold nextSite
    cases htype : type.isVariableScope with
    | true => simp
    | false =>
      cases hsites : t.sites with
      | nil => simp
      | cons site sites =>
        rw [hsites] at hnested
        exact List.mem_cons_of_mem _ hnested.2.1
  | closeScope =>
    refine ⟨?_, hdeclarations, hreferences⟩
    show Nested t.count t.sites.tail
    cases hsites : t.sites with
    | nil => trivial
    | cons site sites =>
      rw [hsites] at hnested
      exact hnested.2.2.mono (Nat.le_of_lt hnested.1)
  | declare isHoisted d =>
    cases hsites : t.sites with
    | nil => simpa [Trace.step, hsites] using ⟨hnested, hdeclarations, hreferences⟩
    | cons site sites =>
      refine ⟨by simpa [Trace.step, hsites] using hnested, ?_,
        by simpa [Trace.step, hsites] using hreferences⟩
      simp only [Trace.step, hsites, List.mem_append, List.mem_singleton]
      rintro x (hx | rfl)
      · exact hdeclarations x hx
      · rw [hsites] at hnested
        cases isHoisted with
        | true => exact hnested.lt hnested.2.1
        | false => exact hnested.1
  | refer r =>
    cases hsites : t.sites with
    | nil => simpa [Trace.step, hsites] using ⟨hnested, hdeclarations, hreferences⟩
    | cons site sites =>
      refine ⟨by simpa [Trace.step, hsites] using hnested,
        by simpa [Trace.step, hsites] using hdeclarations, ?_⟩
      simp only [Trace.step, hsites, List.mem_append, List.mem_singleton]
      rintro x (hx | rfl) s hs
      · exact hreferences x hx s hs
      · rw [hsites] at hnested
        exact hnested.lt hs

theorem Sound.follow {t : Trace α} (h : t.Sound) (steps : List (Step α)) :
    (t.follow steps).Sound := by
  induction steps generalizing t with
  | nil => exact h
  | cons a as ih => exact ih (h.step a)

/-! ### Walking an outline -/

/-- The trace after a walk over what an outline says. -/
def visit (t : Trace α) (o : Outline (Declared α) (Referred α)) : Trace α := t.follow o.steps

section

variable (t : Trace α)

@[simp] theorem visit_done : t.visit .done = t := rfl

theorem visit_declare (isHoisted : Bool) (d : Declared α) (o : Outline (Declared α) (Referred α)) :
    t.visit (.declare isHoisted d o) =
      (if d.name = "" then t else t.step (.declare isHoisted d)).visit o := by
  rw [visit, Outline.steps, follow_append]
  split <;> rfl

theorem visit_refer (r : Referred α) (o : Outline (Declared α) (Referred α)) :
    t.visit (.refer r o) = (if r.name = "" then t else t.step (.refer r)).visit o := by
  rw [visit, Outline.steps, follow_append]
  split <;> rfl

theorem visit_scope (type : ScopeType) (header body o : Outline (Declared α) (Referred α)) :
    t.visit (.scope type header body o) =
      ((((t.step (.openScope type)).visit header).visit body).step .closeScope).visit o := by
  simp [visit, Outline.steps]

end

theorem Sound.visit {t : Trace α} (h : t.Sound) (o : Outline (Declared α) (Referred α)) :
    (t.visit o).Sound := h.follow _

@[simp] theorem sites_step_declare (t : Trace α) (isHoisted : Bool) (d : Declared α) :
    (t.step (.declare isHoisted d)).sites = t.sites := by
  unfold step
  cases h : t.sites <;> simp [h]

@[simp] theorem sites_step_refer (t : Trace α) (r : Referred α) :
    (t.step (.refer r)).sites = t.sites := by
  unfold step
  cases h : t.sites <;> simp [h]

@[simp] theorem count_step_declare (t : Trace α) (isHoisted : Bool) (d : Declared α) :
    (t.step (.declare isHoisted d)).count = t.count := by
  unfold step
  cases h : t.sites <;> rfl

@[simp] theorem count_step_refer (t : Trace α) (r : Referred α) :
    (t.step (.refer r)).count = t.count := by
  unfold step
  cases h : t.sites <;> rfl

/-- Every scope that is opened is closed. -/
@[simp] theorem sites_visit (t : Trace α) (o : Outline (Declared α) (Referred α)) :
    (t.visit o).sites = t.sites := by
  induction o generalizing t with
  | done => rfl
  | declare isHoisted d rest ih =>
    rw [visit_declare, ih]
    split <;> simp
  | refer r rest ih =>
    rw [visit_refer, ih]
    split <;> simp
  | scope type header body rest ihHeader ihBody ih =>
    rw [visit_scope, ih]
    show ((((t.step (.openScope type)).visit header).visit body)).sites.tail = _
    rw [ihBody, ihHeader]
    rfl

theorem count_le_visit (t : Trace α) (o : Outline (Declared α) (Referred α)) :
    t.count ≤ (t.visit o).count := by
  induction o generalizing t with
  | done => exact Nat.le_refl _
  | declare isHoisted d rest ih =>
    rw [visit_declare]
    refine Nat.le_trans ?_ (ih _)
    split <;> simp
  | refer r rest ih =>
    rw [visit_refer]
    refine Nat.le_trans ?_ (ih _)
    split <;> simp
  | scope type header body rest ihHeader ihBody ih =>
    rw [visit_scope]
    have h1 := ihHeader (t.step (.openScope type))
    have h2 := ihBody ((t.step (.openScope type)).visit header)
    have h3 := ih ((((t.step (.openScope type)).visit header).visit body).step .closeScope)
    exact Nat.le_trans (Nat.le_succ _) (Nat.le_trans h1 (Nat.le_trans h2 h3))

/-- What the declarations of an outline mean for a scope that is open around it. -/
def Lands (site : Site) (o : Outline (Declared α) (Referred α)) (s : ScopeId) (d : Declared α) : Prop :=
  s = site.id ∧ d ∈ o.declared ∨ s = site.variableScope ∧ d ∈ o.hoisted

theorem lands_declare {site : Site} {isHoisted : Bool} {d' : Declared α}
    {o : Outline (Declared α) (Referred α)} {s : ScopeId} {d : Declared α} :
    Lands site (.declare isHoisted d' o) s d ↔
      (s, d) = (if isHoisted then site.variableScope else site.id, d') ∨ Lands site o s d := by
  cases isHoisted <;>
    · simp only [Lands, Outline.declared, Outline.hoisted, Prod.mk.injEq]
      grind

theorem lands_scope {site : Site} {type : ScopeType} {header body o : Outline (Declared α) (Referred α)}
    {s : ScopeId} {d : Declared α} :
    Lands site (.scope type header body o) s d ↔
      type.isVariableScope = false ∧ s = site.variableScope ∧
        (d ∈ header.hoisted ∨ d ∈ body.hoisted) ∨ Lands site o s d := by
  cases htype : type.isVariableScope <;>
    · simp only [Lands, Outline.declared, Outline.hoisted, htype]
      grind

/-- What is declared inside a scope reaches the scopes around only where variables declared with `var`
pass through. -/
theorem lands_nextSite {t : Trace α} {site : Site} {sites : List Site}
    (hsites : t.sites = site :: sites) {type : ScopeType} {o : Outline (Declared α) (Referred α)}
    {s : ScopeId} (hs : s < t.count) {d : Declared α} :
    Lands (t.nextSite type) o s d ↔
      type.isVariableScope = false ∧ s = site.variableScope ∧ d ∈ o.hoisted := by
  have hne : s ≠ t.count := Nat.ne_of_lt hs
  cases htype : type.isVariableScope <;> simp [Lands, nextSite, htype, hsites, hne]

/-- **Where declarations go.** Of the names that an outline declares, a scope opened before gets the ones
that belong to the block around and the ones that belong where variables declared with `var` do. -/
theorem mem_declarations_visit {t : Trace α} {site : Site} {sites : List Site}
    (hsites : t.sites = site :: sites) (o : Outline (Declared α) (Referred α)) {s : ScopeId}
    (hs : s < t.count) (d : Declared α) :
    (s, d) ∈ (t.visit o).declarations ↔
      (s, d) ∈ t.declarations ∨ d.name ≠ "" ∧ Lands site o s d := by
  induction o generalizing t site sites with
  | done => simp [Lands, Outline.declared, Outline.hoisted]
  | declare isHoisted d' rest ih =>
    rw [visit_declare, lands_declare]
    by_cases hname : d'.name = ""
    · rw [if_pos hname, ih hsites hs]
      grind
    · have hstep : (t.step (.declare isHoisted d')).declarations = t.declarations ++
          [(if isHoisted then site.variableScope else site.id, d')] := by
        simp [step, hsites]
      have hsites' : (t.step (.declare isHoisted d')).sites = site :: sites := by
        rw [sites_step_declare, hsites]
      rw [if_neg hname, ih hsites' (by simpa using hs), hstep, List.mem_append, List.mem_singleton]
      grind
  | refer r rest ih =>
    have hstep : (if r.name = "" then t else t.step (.refer r)).declarations = t.declarations := by
      split
      · rfl
      · simp [step, hsites]
    have hsites' : (if r.name = "" then t else t.step (.refer r)).sites = site :: sites := by
      split <;> simp [hsites]
    rw [visit_refer, ih hsites' (by split <;> simp [hs]), hstep]
    rfl
  | scope type header body rest ihHeader ihBody ih =>
    have hheader := ihHeader (t := t.step (.openScope type)) rfl (Nat.lt_succ_of_lt hs)
    have hbody := ihBody (t := (t.step (.openScope type)).visit header) (sites_visit ..)
      (Nat.lt_of_lt_of_le (Nat.lt_succ_of_lt hs) (count_le_visit (t.step (.openScope type)) header))
    have hsites' : ((((t.step (.openScope type)).visit header).visit body).step .closeScope).sites =
        site :: sites := by
      show ((((t.step (.openScope type)).visit header).visit body)).sites.tail = _
      rw [sites_visit, sites_visit, ← hsites]
      rfl
    have hlt : s < ((((t.step (.openScope type)).visit header).visit body).step .closeScope).count :=
      Nat.lt_of_lt_of_le (Nat.lt_succ_of_lt hs)
        (Nat.le_trans (count_le_visit (t.step (.openScope type)) header) (count_le_visit ..))
    rw [visit_scope, ih hsites' hlt, lands_scope]
    show (s, d) ∈ (((t.step (.openScope type)).visit header).visit body).declarations ∨ _ ↔ _
    rw [hbody, hheader, lands_nextSite hsites hs, lands_nextSite hsites hs]
    have hstep : (t.step (.openScope type)).declarations = t.declarations := rfl
    rw [hstep]
    grind

/-- What is declared inside a scope and belongs to it. -/
theorem lands_nextSite_count {t : Trace α} (ht : t.Sound) {site : Site} {sites : List Site}
    (hsites : t.sites = site :: sites) {type : ScopeType} {o : Outline (Declared α) (Referred α)}
    {d : Declared α} : Lands (t.nextSite type) o t.count d ↔ d ∈ o.own type := by
  have hnested := ht.nested
  rw [hsites] at hnested
  have hne : t.count ≠ site.variableScope := (Nat.ne_of_lt (hnested.lt hnested.2.1)).symm
  cases htype : type.isVariableScope with
  | true => simp [Lands, nextSite, htype, Outline.own, or_comm]
  | false => simp [Lands, nextSite, htype, hsites, hne, Outline.own]

/-! ### The scopes around references -/

/-- Of all declarations, a scope has the ones listed. -/
def Declares (declarations : List (ScopeId × Declared α)) (s : ScopeId) (ds : List (Declared α)) :
    Prop :=
  ∀ d, (s, d) ∈ declarations ↔ d.name ≠ "" ∧ d ∈ ds

theorem mem_references_of_mem_visit {t : Trace α} {o : Outline (Declared α) (Referred α)}
    {x : List ScopeId × Referred α} (hx : x ∈ (t.visit o).references) :
    x ∈ t.references ∨ x.2 ∈ o.references := by
  induction o generalizing t with
  | done => exact .inl hx
  | declare isHoisted d rest ih =>
    rw [visit_declare] at hx
    have hstep : (if d.name = "" then t else t.step (.declare isHoisted d)).references =
        t.references := by
      split
      · rfl
      · unfold step
        cases h : t.sites <;> rfl
    rw [← hstep]
    exact ih hx
  | refer r rest ih =>
    rw [visit_refer] at hx
    have hstep : x ∈ (if r.name = "" then t else t.step (.refer r)).references →
        x ∈ t.references ∨ x.2 = r := by
      split
      · exact .inl
      · unfold step
        cases h : t.sites with
        | nil => exact .inl
        | cons site sites =>
          intro hx
          rcases List.mem_append.mp hx with hx | hx
          · exact .inl hx
          · rw [List.mem_singleton.mp hx]
            exact .inr rfl
    rcases ih hx with hx | hx
    · rcases hstep hx with hx | hx
      · exact .inl hx
      · exact .inr (hx ▸ List.mem_cons_self)
    · exact .inr (List.mem_cons_of_mem _ hx)
  | scope type header body rest ihHeader ihBody ih =>
    rw [visit_scope] at hx
    simp only [Outline.references, List.mem_append]
    rcases ih hx with hx | hx
    · rcases ihBody hx with hx | hx
      · rcases ihHeader hx with hx | hx
        · exact .inl hx
        · exact .inr (.inl (.inl hx))
      · exact .inr (.inl (.inr hx))
    · exact .inr (.inr hx)

/-- Nothing that is declared after a scope has been closed goes to it. -/
theorem mem_declarations_of_closed {t : Trace α} (ht : t.Sound) {site : Site} {sites : List Site}
    (hsites : t.sites = site :: sites) (o : Outline (Declared α) (Referred α)) {s : ScopeId}
    (hs : s < t.count) (hclosed : s ∉ t.sites.map (·.id)) (d : Declared α) :
    (s, d) ∈ (t.visit o).declarations ↔ (s, d) ∈ t.declarations := by
  have hnested := ht.nested
  rw [hsites] at hnested hclosed
  rw [mem_declarations_visit hsites o hs]
  constructor
  · rintro (h | ⟨-, ⟨rfl, -⟩ | ⟨rfl, -⟩⟩)
    · exact h
    · exact absurd List.mem_cons_self hclosed
    · exact absurd hnested.2.1 hclosed
  · exact .inl

/-- **The scopes around a reference.** A reference that an outline has outside headers is among its
occurrences, and the scopes around it declare what the occurrence says. -/
theorem references_visit {t : Trace α} (ht : t.Sound) (hne : t.sites ≠ [])
    (o : Outline (Declared α) (Referred α)) {declarations : List (ScopeId × Declared α)}
    (hdeclarations : ∀ x : ScopeId × Declared α, t.count ≤ x.1 → x.1 < (t.visit o).count →
      (x ∈ declarations ↔ x ∈ (t.visit o).declarations))
    {scopes : List (List (Declared α))}
    (hscopes : List.Forall₂ (Declares declarations) (t.sites.map (·.id)) scopes)
    {x : List ScopeId × Referred α} (hx : x ∈ (t.visit o).references) :
    x ∈ t.references ∨ x.2 ∈ o.headerReferences ∨ ∃ around, (x.2, around) ∈ o.occurrences scopes ∧
      x.2.name ≠ "" ∧ List.Forall₂ (Declares declarations) x.1 around := by
  induction o generalizing t scopes with
  | done => exact .inl hx
  | declare isHoisted d rest ih =>
    rw [visit_declare] at hx hdeclarations
    by_cases hname : d.name = ""
    · rw [if_pos hname] at hx hdeclarations
      exact ih ht hne hdeclarations hscopes hx
    · rw [if_neg hname] at hx hdeclarations
      have hstep : (t.step (.declare isHoisted d)).references = t.references := by
        unfold step
        cases h : t.sites <;> rfl
      rw [← hstep]
      exact ih (ht.step _) (by simpa using hne) (by simpa using hdeclarations) (by simpa using hscopes) hx
  | refer r rest ih =>
    rw [visit_refer] at hx hdeclarations
    simp only [Outline.occurrences, List.mem_cons]
    by_cases hname : r.name = ""
    · rw [if_pos hname] at hx hdeclarations
      rcases ih ht hne hdeclarations hscopes hx with h | h | ⟨around, h⟩
      · exact .inl h
      · exact .inr (.inl h)
      · exact .inr (.inr ⟨around, .inr h.1, h.2⟩)
    · rw [if_neg hname] at hx hdeclarations
      have hstep : (t.step (.refer r)).references = t.references ++ [(t.sites.map (·.id), r)] := by
        unfold step
        cases h : t.sites with
        | nil => exact absurd h hne
        | cons => simp
      rcases ih (ht.step _) (by simpa using hne) (by simpa using hdeclarations)
        (by simpa using hscopes) hx with h | h | ⟨around, h⟩
      · rw [hstep, List.mem_append, List.mem_singleton] at h
        rcases h with h | rfl
        · exact .inl h
        · exact .inr (.inr ⟨scopes, .inl rfl, hname, hscopes⟩)
      · exact .inr (.inl h)
      · exact .inr (.inr ⟨around, .inr h.1, h.2⟩)
  | scope type header body rest ihHeader ihBody ih =>
    obtain ⟨site, sites, hsites⟩ := List.exists_cons_of_ne_nil hne
    rw [visit_scope] at hx hdeclarations
    let opened := t.step (.openScope type)
    let entered := opened.visit header
    let left := (entered.visit body).step .closeScope
    have hopened : opened.sites = t.nextSite type :: t.sites := rfl
    have hentered : entered.sites = t.nextSite type :: t.sites := sites_visit ..
    have hleft : left.sites = t.sites := by
      show (entered.visit body).sites.tail = t.sites
      rw [sites_visit, hentered]
      rfl
    have htEntered : entered.Sound := (ht.step _).visit header
    have htLeft : left.Sound := (htEntered.visit body).step _
    have hltEntered : t.count < entered.count :=
      Nat.lt_of_lt_of_le (Nat.lt_succ_self _) (count_le_visit opened header)
    have hleLeft : entered.count ≤ left.count := count_le_visit entered body
    have hleRest : left.count ≤ (left.visit rest).count := count_le_visit left rest
    -- what is declared inside the scope is complete when the scope is closed
    have hinside : ∀ x : ScopeId × Declared α, t.count ≤ x.1 → x.1 < left.count →
        (x ∈ declarations ↔ x ∈ (entered.visit body).declarations) := by
      rintro ⟨s, d⟩ hge hlt
      rw [hdeclarations _ hge (Nat.lt_of_lt_of_le hlt hleRest)]
      refine mem_declarations_of_closed htLeft (hleft.trans hsites) rest hlt (fun hmem => ?_) d
      rw [hleft] at hmem
      exact Nat.not_lt.mpr hge (ht.nested.lt hmem)
    have hown : Declares declarations t.count (header.own type ++ body.own type) := by
      intro d
      rw [hinside _ (Nat.le_refl _) (Nat.lt_of_lt_of_le hltEntered hleLeft),
        mem_declarations_visit hentered body hltEntered, lands_nextSite_count ht hsites,
        mem_declarations_visit hopened header (Nat.lt_succ_self _), lands_nextSite_count ht hsites]
      have hnew : (t.count, d) ∉ opened.declarations :=
        fun hmem => Nat.lt_irrefl _ (ht.declarations _ hmem)
      simp only [hnew, false_or, List.mem_append, and_or_left]
    simp only [Outline.occurrences, Outline.headerReferences, List.mem_append]
    rcases ih htLeft (by rw [hleft]; exact hne)
      (fun x hge hlt => hdeclarations x (Nat.le_trans (Nat.le_of_lt hltEntered)
        (Nat.le_trans hleLeft hge)) hlt) (by rw [hleft]; exact hscopes) hx with h | h | ⟨around, h⟩
    · rcases ihBody htEntered (by rw [hentered]; exact List.cons_ne_nil _ _)
        (fun x hge hlt => hinside x (Nat.le_trans (Nat.le_of_lt hltEntered) hge) hlt)
        (by rw [hentered]; exact .cons hown hscopes) h with h | h | ⟨around, h⟩
      · rcases mem_references_of_mem_visit h with h | h
        · exact .inl h
        · exact .inr (.inl (.inl (.inl h)))
      · exact .inr (.inl (.inl (.inr h)))
      · exact .inr (.inr ⟨around, .inl h.1, h.2⟩)
    · exact .inr (.inl (.inr h))
    · exact .inr (.inr ⟨around, .inr h.1, h.2⟩)

end Trace

end ScriptAnalysis.Names

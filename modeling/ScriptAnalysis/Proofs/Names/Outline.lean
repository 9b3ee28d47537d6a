import ScriptAnalysis.Scoping.Graph

/-!
# Outlines

The outline of a program keeps what the meaning of its names depends on, in source order: the names that
are declared, the names that are referred to, and the scopes. What is said about a declared name is `δ`
and about a reference `ρ`. A scope has a header, such as the parameters of a function, and a body.

What a scope declares (`own`) can be read off its outline before anything in it is looked at, and so can
the declarations of all scopes around a reference (`occurrences`). `meaning?` is the innermost of them
that declare the name.
-/

namespace ScriptAnalysis.Names

open Scoping (ScopeType)

/-- A declared name. -/
structure Declared (α : Type) where
  /-- The label of the name. -/
  label : α
  /-- The name. -/
  name : String
  /-- Whether it names a type. -/
  isType : Bool
  deriving DecidableEq, Repr

/-- A name that is referred to. -/
structure Referred (α : Type) where
  /-- The label of the name. -/
  label : α
  /-- The name. -/
  name : String
  /-- Whether a type is referred to. -/
  isType : Bool
  /-- Whether what is declared at the same place gets its first value. -/
  isInitial : Bool
  deriving DecidableEq, Repr

/-- The declared name with its label changed. -/
def Declared.map {α β : Type} (f : α → β) (d : Declared α) : Declared β := { d with label := f d.label }

/-- The reference with its label changed. -/
def Referred.map {α β : Type} (f : α → β) (r : Referred α) : Referred β := { r with label := f r.label }

@[simp] theorem Declared.name_map {α β : Type} (f : α → β) (d : Declared α) :
    (d.map f).name = d.name := rfl

@[simp] theorem Referred.name_map {α β : Type} (f : α → β) (r : Referred α) :
    (r.map f).name = r.name := rfl

/-- What a program declares and refers to, in source order. -/
inductive Outline (δ ρ : Type) where
  /-- Nothing more. -/
  | done
  /-- A name is declared; `isHoisted` says that it belongs where variables declared with `var` do. -/
  | declare (isHoisted : Bool) (declared : δ) (rest : Outline δ ρ)
  /-- A name is referred to. -/
  | refer (reference : ρ) (rest : Outline δ ρ)
  /-- A scope. -/
  | scope (type : ScopeType) (header body rest : Outline δ ρ)

namespace Outline

variable {δ δ' ρ ρ' : Type}

/-- One outline and then another. -/
def append : Outline δ ρ → Outline δ ρ → Outline δ ρ
  | done, o => o
  | declare isHoisted d rest, o => declare isHoisted d (rest.append o)
  | refer r rest, o => refer r (rest.append o)
  | scope type header body rest, o => scope type header body (rest.append o)

instance : Append (Outline δ ρ) := ⟨append⟩

/-- The outline with its declarations and references changed. -/
def map (f : δ → δ') (g : ρ → ρ') : Outline δ ρ → Outline δ' ρ'
  | done => done
  | declare isHoisted d rest => declare isHoisted (f d) (rest.map f g)
  | refer r rest => refer (g r) (rest.map f g)
  | scope type header body rest =>
    scope type (header.map f g) (body.map f g) (rest.map f g)

section Append

variable (o o' : Outline δ ρ)

@[simp] theorem done_append : done ++ o = o := rfl

@[simp] theorem declare_append (isHoisted : Bool) (d : δ) :
    declare isHoisted d o ++ o' = declare isHoisted d (o ++ o') := rfl

@[simp] theorem refer_append (r : ρ) : refer r o ++ o' = refer r (o ++ o') := rfl

@[simp] theorem scope_append (type : ScopeType) (header body : Outline δ ρ) :
    scope type header body o ++ o' = scope type header body (o ++ o') := rfl

@[simp] theorem append_done : o ++ done = o := by
  induction o <;> simp_all

@[simp] theorem append_assoc (o'' : Outline δ ρ) : o ++ o' ++ o'' = o ++ (o' ++ o'') := by
  induction o <;> simp_all

@[simp] theorem map_append (f : δ → δ') (g : ρ → ρ') :
    (o ++ o').map f g = o.map f g ++ o'.map f g := by
  induction o <;> simp_all [map]

end Append

theorem map_map {δ'' ρ'' : Type} (f : δ → δ') (g : ρ → ρ') (f' : δ' → δ'') (g' : ρ' → ρ'')
    (o : Outline δ ρ) : (o.map f g).map f' g' = o.map (fun d => f' (f d)) (fun r => g' (g r)) := by
  induction o <;> simp_all [map]

/-! ### What is declared -/

/-- What belongs to the block around. -/
def declared : Outline δ ρ → List δ
  | done => []
  | declare isHoisted d rest => if isHoisted then rest.declared else d :: rest.declared
  | refer _ rest => rest.declared
  | scope _ _ _ rest => rest.declared

/-- What belongs where variables declared with `var` do, inner blocks included. -/
def hoisted : Outline δ ρ → List δ
  | done => []
  | declare isHoisted d rest => if isHoisted then d :: rest.hoisted else rest.hoisted
  | refer _ rest => rest.hoisted
  | scope type header body rest =>
    (if type.isVariableScope then [] else header.hoisted ++ body.hoisted) ++ rest.hoisted

/-- What belongs to the scope that an outline is the header or the body of. -/
def own (type : ScopeType) (o : Outline δ ρ) : List δ :=
  (if type.isVariableScope then o.hoisted else []) ++ o.declared

section

variable (o o' : Outline δ ρ)

@[simp] theorem declared_append : (o ++ o').declared = o.declared ++ o'.declared := by
  induction o with
  | declare isHoisted d rest ih => cases isHoisted <;> simp [declared, ih]
  | _ => simp_all [declared]

@[simp] theorem hoisted_append : (o ++ o').hoisted = o.hoisted ++ o'.hoisted := by
  induction o with
  | declare isHoisted d rest ih => cases isHoisted <;> simp [hoisted, ih]
  | _ => simp_all [hoisted]

@[simp] theorem declared_map (f : δ → δ') (g : ρ → ρ') : (o.map f g).declared = o.declared.map f := by
  induction o with
  | declare isHoisted d rest ih => cases isHoisted <;> simp [map, declared, ih]
  | _ => simp_all [map, declared]

@[simp] theorem hoisted_map (f : δ → δ') (g : ρ → ρ') : (o.map f g).hoisted = o.hoisted.map f := by
  induction o with
  | done => rfl
  | declare isHoisted d rest ih => cases isHoisted <;> simp [map, hoisted, ih]
  | refer r rest ih => simpa [map, hoisted] using ih
  | scope type header body rest ihHeader ihBody ih =>
    cases h : type.isVariableScope <;> simp [map, hoisted, h, ihHeader, ihBody, ih]

@[simp] theorem own_map (type : ScopeType) (f : δ → δ') (g : ρ → ρ') :
    (o.map f g).own type = (o.own type).map f := by
  cases h : type.isVariableScope <;> simp [own, h]

end

/-- Nothing is declared that belongs to the scopes around. -/
def Silent (o : Outline δ ρ) : Prop := o.declared = [] ∧ o.hoisted = []

theorem silent_done : (done : Outline δ ρ).Silent := ⟨rfl, rfl⟩

theorem silent_refer (r : ρ) : (refer r done : Outline δ ρ).Silent := ⟨rfl, rfl⟩

/-- What is declared inside a function does not belong to the scopes around. -/
theorem silent_scope {type : ScopeType} (htype : type.isVariableScope = true)
    (header body : Outline δ ρ) : (scope type header body done).Silent := by
  simp [Silent, declared, hoisted, htype]

theorem Silent.append {o o' : Outline δ ρ} (h : o.Silent) (h' : o'.Silent) : (o ++ o').Silent := by
  rw [Silent, declared_append, hoisted_append, h.1, h.2, h'.1, h'.2]
  exact ⟨rfl, rfl⟩

/-! ### What is referred to -/

/-- All references. -/
def references : Outline δ ρ → List ρ
  | done => []
  | declare _ _ rest => rest.references
  | refer r rest => r :: rest.references
  | scope _ header body rest => header.references ++ body.references ++ rest.references

/-- The references in the headers of scopes. -/
def headerReferences : Outline δ ρ → List ρ
  | done => []
  | declare _ _ rest => rest.headerReferences
  | refer _ rest => rest.headerReferences
  | scope _ header body rest =>
    header.references ++ body.headerReferences ++ rest.headerReferences

/-- The references that are in no header, each with what the scopes around it declare, the innermost
scope first; the scopes around the outline are given. -/
def occurrences (scopes : List (List δ)) : Outline δ ρ → List (ρ × List (List δ))
  | done => []
  | declare _ _ rest => rest.occurrences scopes
  | refer r rest => (r, scopes) :: rest.occurrences scopes
  | scope type header body rest =>
    body.occurrences ((header.own type ++ body.own type) :: scopes) ++ rest.occurrences scopes

section

variable (o o' : Outline δ ρ)

@[simp] theorem references_append : (o ++ o').references = o.references ++ o'.references := by
  induction o <;> simp_all [references]

@[simp] theorem headerReferences_append :
    (o ++ o').headerReferences = o.headerReferences ++ o'.headerReferences := by
  induction o <;> simp_all [headerReferences]

@[simp] theorem occurrences_append (scopes : List (List δ)) :
    (o ++ o').occurrences scopes = o.occurrences scopes ++ o'.occurrences scopes := by
  induction o <;> simp_all [occurrences]

@[simp] theorem references_map (f : δ → δ') (g : ρ → ρ') :
    (o.map f g).references = o.references.map g := by
  induction o <;> simp_all [map, references]

@[simp] theorem headerReferences_map (f : δ → δ') (g : ρ → ρ') :
    (o.map f g).headerReferences = o.headerReferences.map g := by
  induction o <;> simp_all [map, headerReferences]

/-- Changing what is said about names changes it in all occurrences. -/
theorem occurrences_map (f : δ → δ') (g : ρ → ρ') (scopes : List (List δ)) :
    (o.map f g).occurrences (scopes.map (·.map f)) =
      (o.occurrences scopes).map fun x => (g x.1, x.2.map (·.map f)) := by
  induction o generalizing scopes with
  | done => rfl
  | declare isHoisted d rest ih => exact ih scopes
  | refer r rest ih => simp [map, occurrences, ih]
  | scope type header body rest _ ihBody ih =>
    have hbody := ihBody ((header.own type ++ body.own type) :: scopes)
    simp only [List.map_cons, List.map_append] at hbody
    simp [map, occurrences, hbody, ih]

/-- Changing what is said about names changes it in all occurrences in a scope. -/
theorem occurrences_own_map (type : ScopeType) (f : δ → δ') (g : ρ → ρ') :
    (o.map f g).occurrences [(o.map f g).own type] =
      (o.occurrences [o.own type]).map fun x => (g x.1, x.2.map (·.map f)) := by
  rw [own_map]
  exact occurrences_map o f g [o.own type]

/-- Scopes further out are around every occurrence. -/
theorem occurrences_append_scopes (scopes outer : List (List δ)) :
    o.occurrences (scopes ++ outer) = (o.occurrences scopes).map fun x => (x.1, x.2 ++ outer) := by
  induction o generalizing scopes with
  | done => rfl
  | declare isHoisted d rest ih => exact ih scopes
  | refer r rest ih => simp [occurrences, ih]
  | scope type header body rest _ ihBody ih =>
    have hbody := ihBody ((header.own type ++ body.own type) :: scopes)
    rw [List.cons_append] at hbody
    simp [occurrences, hbody, ih]

end

end Outline

/-! ### What a name means -/

section

variable {α β : Type}

/-- Whether a declaration is one of what a reference names. -/
def Declared.answers (d : Declared α) (r : Referred β) : Bool :=
  d.name == r.name && d.isType == r.isType

theorem Declared.answers_iff {d : Declared α} {r : Referred β} :
    d.answers r = true ↔ d.name = r.name ∧ d.isType = r.isType := by
  simp [answers]

@[simp] theorem Declared.map_answers_map {α' β' : Type} (f : α → α') (g : β → β') (d : Declared α)
    (r : Referred β) : (d.map f).answers (r.map g) = d.answers r := rfl

/-- What the innermost scope declares that declares what a reference names. -/
def meaning? (scopes : List (List (Declared α))) (r : Referred β) : Option (List (Declared α)) :=
  scopes.find? (·.any (·.answers r))

theorem meaning?_cons_of_pos {ds : List (Declared α)} {r : Referred β}
    (h : ds.any (·.answers r) = true) (scopes : List (List (Declared α))) :
    meaning? (ds :: scopes) r = some ds :=
  List.find?_cons_of_pos h

theorem meaning?_cons_of_neg {ds : List (Declared α)} {r : Referred β}
    (h : ¬ds.any (·.answers r) = true) (scopes : List (List (Declared α))) :
    meaning? (ds :: scopes) r = meaning? scopes r :=
  List.find?_cons_of_neg h

/-- What a name means does not depend on labels. -/
theorem meaning?_map {α' β' : Type} (f : α → α') (g : β → β') (scopes : List (List (Declared α)))
    (r : Referred β) : meaning? (scopes.map (·.map (·.map f))) (r.map g) =
      (meaning? scopes r).map (·.map (·.map f)) := by
  rw [meaning?, List.find?_map, meaning?]
  congr 2
  funext ds
  simp [Function.comp_def]

/-- What a name means is declared by one of the scopes around. -/
theorem mem_of_meaning? {scopes : List (List (Declared α))} {r : Referred β} {ds : List (Declared α)}
    (h : meaning? scopes r = some ds) : ds ∈ scopes :=
  List.mem_of_find?_eq_some h

/-- Scopes that declare nothing make no difference. -/
theorem meaning?_append_replicate (scopes : List (List (Declared α))) (n : Nat) (r : Referred β) :
    meaning? (scopes ++ List.replicate n []) r = meaning? scopes r := by
  have hnone : (List.replicate n []).find? (fun ds : List (Declared α) => ds.any (·.answers r)) =
      none := by
    rw [List.find?_eq_none]
    intro ds hds
    simp [List.eq_of_mem_replicate hds]
  rw [meaning?, List.find?_append, hnone, Option.or_none]
  rfl

end

end ScriptAnalysis.Names

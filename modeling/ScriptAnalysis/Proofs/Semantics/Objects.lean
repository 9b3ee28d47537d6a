import ScriptAnalysis.Proofs.Semantics.Kept
import ScriptAnalysis.Proofs.Types.Normal

/-!
# Objects in types

No text makes an object of its own: every object in the type of a node, at whatever depth, is the object of the
environment with its number (`View.getElem?_objects_of_typeAt`). The objects of the environment are numbered in the
order in which they come along (`Globals.numbered_ofLibs`), and putting types together brings no others.
-/

namespace ScriptAnalysis

namespace Ty

/-- Every object in the type, at whatever depth, is one that `Q` holds of. -/
inductive ObjectsAre (Q : Nat → String → List (String × Ty) → Prop) : Ty → Prop where
  /-- The objects in the parts are, and so is the type itself if it is an object. -/
  | mk {t : Ty} (parts : ∀ p ∈ t.parts, ObjectsAre Q p)
      (object : ∀ id name members, t = object id name members → Q id name members) : ObjectsAre Q t

variable {Q Q' : Nat → String → List (String × Ty) → Prop} {t : Ty} {ts : List Ty} {strict : Bool}

/-! ### Forms of types -/

@[simp] theorem objectsAre_of_isPlain (h : t.isPlain = true) : t.ObjectsAre Q := by
  refine ⟨?_, ?_⟩ <;> cases t <;> first | exact absurd h Bool.false_ne_true | exact nofun

@[simp] theorem objectsAre_object_iff {id : Nat} {name : String} {members : List (String × Ty)} :
    (object id name members).ObjectsAre Q ↔ Q id name members ∧ ∀ m ∈ members, m.2.ObjectsAre Q := by
  constructor
  · rintro ⟨parts, object⟩
    exact ⟨object _ _ _ rfl, List.forall_mem_map.mp parts⟩
  · rintro ⟨hobject, hmembers⟩
    refine ⟨List.forall_mem_map.mpr hmembers, fun id' name' members' h => ?_⟩
    cases h
    exact hobject

theorem objectsAre_iff_of_ne_object (h : ∀ id name members, t ≠ object id name members) :
    t.ObjectsAre Q ↔ ∀ p ∈ t.parts, p.ObjectsAre Q :=
  ⟨fun ⟨parts, _⟩ => parts, fun parts => ⟨parts, fun id name members ht => absurd ht (h id name members)⟩⟩

@[simp] theorem objectsAre_array_iff : (array t).ObjectsAre Q ↔ t.ObjectsAre Q := by
  rw [objectsAre_iff_of_ne_object (t := array t) nofun]
  exact List.forall_mem_singleton

@[simp] theorem objectsAre_function_iff {params : List (Param Ty)} {ret : Ty} :
    (function params ret).ObjectsAre Q ↔ (∀ p ∈ params, p.type.ObjectsAre Q) ∧ ret.ObjectsAre Q := by
  rw [objectsAre_iff_of_ne_object (t := function params ret) nofun]
  simp [parts, or_imp, forall_and]

theorem objectsAre_union_iff : (union ts).ObjectsAre Q ↔ ∀ t ∈ ts, t.ObjectsAre Q :=
  objectsAre_iff_of_ne_object nofun

theorem ObjectsAre.mono (h : t.ObjectsAre Q) (hQ : ∀ id name members, Q id name members → Q' id name members) :
    t.ObjectsAre Q' := by
  induction h with
  | mk _ object ih => exact ⟨ih, fun id name members ht => hQ _ _ _ (object id name members ht)⟩

/-! ### Unions and widening -/

theorem ObjectsAre.of_mem_constituents (h : t.ObjectsAre Q) {u : Ty} (hu : u ∈ t.constituents) :
    u.ObjectsAre Q := by
  cases t with
  | union members => exact objectsAre_union_iff.mp h u hu
  | never => exact absurd hu List.not_mem_nil
  | _ => exact List.mem_singleton.mp hu ▸ h

/-- A union has the objects of its members. -/
theorem objectsAre_unionOf (h : ∀ t ∈ ts, t.ObjectsAre Q) : (unionOf strict ts).ObjectsAre Q := by
  have hmembers : ∀ u ∈ dedupAfter [] (absorbNullish strict (absorbLiterals (joinBooleans
      (ts.flatMap constituents)))), u.ObjectsAre Q := by
    intro u hu
    rcases mem_of_mem_steps hu with hu | rfl
    · obtain ⟨t, ht, hut⟩ := List.mem_flatMap.mp hu
      exact (h t ht).of_mem_constituents hut
    · exact objectsAre_of_isPlain rfl
  rw [unionOf]
  split
  · exact objectsAre_of_isPlain rfl
  split
  · exact objectsAre_of_isPlain rfl
  · unfold ofMembers
    split
    · exact objectsAre_of_isPlain rfl
    · rename_i heq
      exact hmembers _ (heq ▸ List.mem_cons_self)
    · exact objectsAre_union_iff.mpr hmembers

/-- Widening brings no objects along. -/
theorem ObjectsAre.widen (h : t.ObjectsAre Q) : (t.widen strict).ObjectsAre Q := by
  induction h with
  | @mk t parts object ih =>
    cases t with
    | union ts =>
      rw [Ty.widen, widenList_eq_map]
      exact objectsAre_unionOf (List.forall_mem_map.mpr ih)
    | null | undefined =>
      rw [Ty.widen]
      split <;> exact objectsAre_of_isPlain rfl
    | numberLiteral | stringLiteral | booleanLiteral => exact objectsAre_of_isPlain rfl
    | _ => exact ⟨parts, object⟩

end Ty

namespace Semantics

open Syntax

/-! ### The objects of the environment -/

/-- The objects of the environment in the order of their numbers, each with the name of its type and its
members. -/
def Globals.objects (globals : Globals) : List (String × List (String × Ty)) :=
  globals.all.filterMap fun g => match g.type with
    | .object _ name members => some (name, members)
    | _ => none

/-- Every object in the type is the one of the environment with its number. -/
def Globals.Knows (globals : Globals) : Ty → Prop :=
  Ty.ObjectsAre fun id name members => globals.objects[id]? = some (name, members)

/-- There is no object in what a name of the environment is, apart from itself. -/
def Ambient.IsFlat : Ambient → Prop
  | value type => type.ObjectsAre fun _ _ _ => False
  | object _ members => ∀ m ∈ members, m.2.ObjectsAre fun _ _ _ => False

theorem Ambient.isFlat_of_mem : ∀ e ∈ language ++ document, e.2.IsFlat := by
  simp (disch := decide) [-Prod.forall, language, document, console, IsFlat, unaryMath, variadicMath, print,
    required, optional, rest]

namespace Globals

/-- The objects are numbered in their order, and there are no others. -/
structure Numbered (globals : Globals) : Prop where
  count : globals.objectCount = globals.objects.length
  knows : ∀ g ∈ globals.all, globals.Knows g.type

variable {globals : Globals}

theorem objects_append (globals : Globals) (g : Global) (count : Nat) :
    (Globals.mk (globals.all ++ [g]) count).objects = globals.objects ++ (Globals.mk [g] 0).objects :=
  List.filterMap_append

/-- Types without objects are known. -/
theorem knows_of_flat {t : Ty} (h : t.ObjectsAre fun _ _ _ => False) : globals.Knows t := h.mono nofun

/-- A name that comes along leaves known what is known. -/
theorem Knows.append {t : Ty} (h : globals.Knows t) (g : Global) (count : Nat) :
    (Globals.mk (globals.all ++ [g]) count).Knows t := by
  refine Ty.ObjectsAre.mono h fun id name members hget => ?_
  rw [objects_append, List.getElem?_append_left (List.getElem?_eq_some_iff.mp hget).1, hget]

theorem Numbered.define (h : globals.Numbered) {entry : String × Ambient} (hentry : entry.2.IsFlat) :
    (globals.define entry).Numbered := by
  rw [Globals.define]
  split
  · exact h
  split
  · rename_i type htype
    rw [htype] at hentry
    have hobjects : (Globals.mk [⟨entry.1, kindOf type, type⟩] 0).objects = [] := by
      cases type with
      | object id name members => exact absurd (Ty.objectsAre_object_iff.mp hentry).1 not_false
      | _ => rfl
    refine ⟨?_, List.forall_mem_append.mpr ⟨fun g hg => (h.knows g hg).append _ _, ?_⟩⟩
    · rw [objects_append, hobjects, List.append_nil]
      exact h.count
    · exact List.forall_mem_singleton.mpr (knows_of_flat hentry)
  · rename_i typeName members htype
    rw [htype] at hentry
    refine ⟨?_, List.forall_mem_append.mpr ⟨fun g hg => (h.knows g hg).append _ _, ?_⟩⟩
    · rw [objects_append, List.length_append, ← h.count]
      rfl
    · refine List.forall_mem_singleton.mpr (Ty.objectsAre_object_iff.mpr ⟨?_, fun m hm => ?_⟩)
      · -- the new object is the last one, and its number is how many there were
        rw [objects_append, h.count]
        exact List.getElem?_concat_length
      · exact knows_of_flat (hentry m hm)

theorem numbered_ofLibs (libs : List Config.Lib) : (ofLibs libs).Numbered :=
  induction_ofLibs libs ⟨rfl, List.forall_mem_singleton.mpr (Ty.objectsAre_of_isPlain rfl)⟩
    fun _ h e he => h.define (Ambient.isFlat_of_mem e he)

end Globals

/-! ### The types of nodes -/

namespace View

variable {v : View}

theorem keeps_knows (hglobals : v.globals.Numbered) : v.Keeps v.globals.Knows where
  plain _ ht := Ty.objectsAre_of_isPlain ht
  array _ ht := Ty.objectsAre_array_iff.mpr ht
  function _ _ hparams hret := Ty.objectsAre_function_iff.mpr ⟨hparams, hret⟩
  result _ _ h := (Ty.objectsAre_function_iff.mp h).2
  member _ _ _ h := (Ty.objectsAre_object_iff.mp h).2
  union _ h := Ty.objectsAre_unionOf h
  widen _ ht := ht.widen
  globals := hglobals.knows

/-- **A node whose type is an object** has the object of the environment with its number. -/
theorem getElem?_objects_of_typeAt (hglobals : v.globals.Numbered) {id : NodeId} {number : Nat} {name : String}
    {members : List (String × Ty)} (h : v.typeAt id = .object number name members) :
    v.globals.objects[number]? = some (name, members) := by
  have hknows := (keeps_knows hglobals).typeAt id
  rw [h] at hknows
  exact (Ty.objectsAre_object_iff.mp hknows).1

end View

end Semantics

end ScriptAnalysis

import Mathlib.Data.List.Forall2
import ScriptAnalysis.Proofs.Names.File

/-!
# What binding has entered

`State.Represents s scopes` says that the open scopes of binding hold what `scopes` declare. Declaring names
that are new adds them to the innermost scope (`foldl_declare`); referring to a name settles it
(`Represents.settled`). What has been entered once stays, as long as the numbers that are entered later
are new (`Extends`).
-/

namespace ScriptAnalysis

open Names (Declared Referred meaning? meaning?_cons_of_neg meaning?_cons_of_pos)
open Semantics (Declaration SymbolKind)
open Syntax (Ident NodeId Place)

namespace Semantics.Binding

/-! ### New numbers -/

/-- None of the numbers has been entered. -/
def State.New (s : State) (ids : List NodeId) : Prop :=
  ∀ id ∈ ids, s.binding.declared.lookup id = none ∧ s.binding.resolved.lookup id = none

/-- Which symbol a number stands for. -/
def symbolId? (b : Binding) (index : Nat) : Option SymbolId := b.symbols[index]?.map (·.id)

/-- The binding goes on and enters nothing but these numbers. -/
structure Extends (ids : List NodeId) (s s' : State) : Prop where
  declared : ∀ id ∉ ids, s'.binding.declared.lookup id = s.binding.declared.lookup id
  resolved : ∀ id ∉ ids, s'.binding.resolved.lookup id = s.binding.resolved.lookup id
  symbols : ∀ index id, symbolId? s.binding index = some id → symbolId? s'.binding index = some id

namespace Extends

variable {ids ids' : List NodeId} {s s' s'' : State}

/-- Nothing is entered when the binding stays as it is. -/
theorem of_eq (h : s'.binding = s.binding) : Extends ids s s' := by
  constructor <;> simp [h]

theorem trans (h : Extends ids s s') (h' : Extends ids' s' s'') : Extends (ids ++ ids') s s'' := by
  constructor
  case declared =>
    intro id hid
    rw [List.mem_append, not_or] at hid
    rw [h'.declared id hid.2, h.declared id hid.1]
  case resolved =>
    intro id hid
    rw [List.mem_append, not_or] at hid
    rw [h'.resolved id hid.2, h.resolved id hid.1]
  case symbols => exact fun index id hid => h'.symbols index id (h.symbols index id hid)

/-- Numbers that are not entered stay new. -/
theorem new (h : Extends ids s s') (hnew : s.New ids') (hdisjoint : ∀ id ∈ ids', id ∉ ids) :
    s'.New ids' := by
  intro id hid
  rw [h.declared id (hdisjoint id hid), h.resolved id (hdisjoint id hid)]
  exact hnew id hid

/-- What was entered before stays. -/
theorem lookup_declared (h : Extends ids s s') (hnew : s.New ids) {id : NodeId} {index : Nat}
    (hid : s.binding.declared.lookup id = some index) :
    s'.binding.declared.lookup id = some index := by
  rw [h.declared id, hid]
  intro hmem
  rw [(hnew id hmem).1] at hid
  cases hid

theorem lookup_resolved (h : Extends ids s s') (hnew : s.New ids) {id : NodeId} {index : Nat}
    (hid : s.binding.resolved.lookup id = some index) :
    s'.binding.resolved.lookup id = some index := by
  rw [h.resolved id, hid]
  intro hmem
  rw [(hnew id hmem).2] at hid
  cases hid

end Extends

theorem State.New.of_subset {s : State} {ids ids' : List NodeId} (h : s.New ids) (hsub : ids' ⊆ ids) :
    s.New ids' :=
  fun id hid => h id (hsub hid)

/-! ### Open scopes -/

/-- The scope holds what is declared, under the symbols that the names declare. -/
structure Frame.Represents (b : Binding) (frame : Frame) (ds : List Declaration) : Prop where
  declared : ∀ isType name index, frame.lookup? isType name = some index →
    (∃ d ∈ ds, d.name.text = name ∧ d.kind.isType = isType) ∧
      symbolId? b index = some (.localSymbol index)
  index : ∀ d ∈ ds, d.name.text ≠ "" → ∃ index, frame.lookup? d.kind.isType d.name.text = some index ∧
    b.declared.lookup d.name.id = some index

/-- The open scopes hold what is declared. -/
def State.Represents (s : State) (scopes : List (List Declaration)) : Prop :=
  List.Forall₂ (Frame.Represents s.binding) s.frames scopes

theorem Frame.represents_empty (b : Binding) : ({} : Frame).Represents b [] where
  declared isType name index h := by cases isType <;> cases h
  index d hd := absurd hd List.not_mem_nil

theorem Frame.Represents.mono {s s' : State} {frame : Frame} {ds : List Declaration}
    (h : frame.Represents s.binding ds) {ids : List NodeId} (hext : Extends ids s s')
    (hnew : s.New ids) : frame.Represents s'.binding ds where
  declared isType name index hindex :=
    ⟨(h.declared isType name index hindex).1,
      hext.symbols _ _ (h.declared isType name index hindex).2⟩
  index d hd hname := by
    obtain ⟨index, hindex, hdeclared⟩ := h.index d hd hname
    exact ⟨index, hindex, hext.lookup_declared hnew hdeclared⟩

theorem State.Represents.mono {s s' : State} {scopes : List (List Declaration)}
    (h : s.Represents scopes) (hframes : s'.frames = s.frames) {ids : List NodeId}
    (hext : Extends ids s s') (hnew : s.New ids) : s'.Represents scopes := by
  rw [Represents, hframes]
  exact h.imp fun _ _ hframe => hframe.mono hext hnew

theorem Frame.lookup?_add (frame : Frame) (isType isType' : Bool) (name name' : String) (index : Nat) :
    (frame.add isType name index).lookup? isType' name' =
      if isType' = isType ∧ name' = name then some index else frame.lookup? isType' name' := by
  cases isType <;> cases isType' <;> simp [Frame.add, Frame.lookup?, List.lookup_cons] <;> grind

/-! ### Declarations -/

section

variable {s : State} {d : Declaration} {frame : Frame} {frames : List Frame}

theorem declare_of_no_scope (hframes : s.frames = []) : s.declare d = s := by
  rw [State.declare, hframes]

theorem declare_of_missing (hname : d.name.text = "") : s.declare d = s := by
  rw [State.declare]
  split
  · rfl
  · rw [if_pos hname]

/-- A name that the innermost scope holds keeps its symbol. -/
theorem declare_of_some (hframes : s.frames = frame :: frames) (hname : d.name.text ≠ "") {index : Nat}
    (hindex : frame.lookup? d.kind.isType d.name.text = some index) :
    (s.declare d).frames = s.frames ∧
      (s.declare d).binding.declared = (d.name.id, index) :: s.binding.declared ∧
      (s.declare d).binding.resolved = s.binding.resolved ∧
      ∀ i, symbolId? (s.declare d).binding i = symbolId? s.binding i := by
  rw [State.declare, hframes]
  simp only [if_neg hname, hindex]
  refine ⟨trivial, trivial, trivial, fun i => ?_⟩
  rw [symbolId?, symbolId?, Array.getElem?_modify]
  split
  · rw [Option.map_map]
    rfl
  · rfl

/-- A name that the innermost scope does not hold gets a new symbol. -/
theorem declare_of_none (hframes : s.frames = frame :: frames) (hname : d.name.text ≠ "")
    (hindex : frame.lookup? d.kind.isType d.name.text = none) :
    (s.declare d).frames = frame.add d.kind.isType d.name.text s.binding.symbols.size :: frames ∧
      (s.declare d).binding.declared =
        (d.name.id, s.binding.symbols.size) :: s.binding.declared ∧
      (s.declare d).binding.resolved = s.binding.resolved ∧
      ∀ i, symbolId? (s.declare d).binding i = if i = s.binding.symbols.size
        then some (.localSymbol s.binding.symbols.size) else symbolId? s.binding i := by
  rw [State.declare, hframes]
  simp only [if_neg hname, hindex]
  refine ⟨trivial, trivial, trivial, fun i => ?_⟩
  rw [symbolId?, symbolId?, Array.getElem?_push]
  split <;> rfl

end

theorem lookup_cons_of_notMem {id id' : NodeId} {index : Nat} {entries : List (NodeId × Nat)}
    (h : id' ∉ [id]) : ((id, index) :: entries).lookup id' = entries.lookup id' := by
  rw [List.mem_singleton] at h
  rw [List.lookup_cons, beq_false_of_ne h]

/-- A declaration enters the number of its name and nothing else. -/
theorem extends_declare (s : State) (d : Declaration) : Extends [d.name.id] s (s.declare d) := by
  cases hframes : s.frames with
  | nil => exact .of_eq (by rw [declare_of_no_scope hframes])
  | cons frame frames =>
  by_cases hname : d.name.text = ""
  · exact .of_eq (by rw [declare_of_missing hname])
  cases hindex : frame.lookup? d.kind.isType d.name.text with
  | some index =>
    obtain ⟨-, hdeclared, hresolved, hsymbols⟩ := declare_of_some hframes hname hindex
    exact ⟨fun id hid => by rw [hdeclared, lookup_cons_of_notMem hid], fun id _ => by rw [hresolved],
      fun i id hid => by rw [hsymbols, hid]⟩
  | none =>
    obtain ⟨-, hdeclared, hresolved, hsymbols⟩ := declare_of_none hframes hname hindex
    refine ⟨fun id hid => by rw [hdeclared, lookup_cons_of_notMem hid], fun id _ => by rw [hresolved],
      fun i id hid => ?_⟩
    have hne : i ≠ s.binding.symbols.size := by
      rintro rfl
      simp [symbolId?] at hid
    rw [hsymbols, if_neg hne, hid]

theorem extends_foldl (new : List Declaration) (s : State) :
    Extends (new.map (·.name.id)) s (new.foldl State.declare s) := by
  induction new generalizing s with
  | nil => exact .of_eq rfl
  | cons d new ih => exact (extends_declare s d).trans (ih _)

theorem tail_frames_declare (s : State) (d : Declaration) : (s.declare d).frames.tail = s.frames.tail := by
  rw [State.declare]
  split
  · rfl
  · rename_i frame frames hframes
    split
    · rfl
    · dsimp only
      split
      · rfl
      · rw [hframes]
        rfl

theorem tail_frames_foldl (new : List Declaration) (s : State) :
    (new.foldl State.declare s).frames.tail = s.frames.tail := by
  induction new generalizing s with
  | nil => rfl
  | cons d new ih => exact (ih _).trans (tail_frames_declare s d)

/-- A new name is added to what the innermost scope holds. -/
theorem represents_declare {s : State} {d : Declaration} {ds : List Declaration}
    {scopes : List (List Declaration)} (h : s.Represents (ds :: scopes)) (hnew : s.New [d.name.id]) :
    (s.declare d).Represents ((ds ++ [d]) :: scopes) := by
  have hmono : ∀ {frame : Frame} {ds : List Declaration}, frame.Represents s.binding ds →
      frame.Represents (s.declare d).binding ds := fun hframe => hframe.mono (extends_declare s d) hnew
  obtain ⟨frame, frames, hframe, hrest, hframes⟩ := List.forall₂_cons_right_iff.mp h
  have hframe' := hmono hframe
  by_cases hname : d.name.text = ""
  · rw [declare_of_missing hname] at hframe' ⊢
    rw [State.Represents, hframes]
    refine .cons ⟨fun isType name index hindex => ?_, fun d' hd' hname' => ?_⟩ hrest
    · obtain ⟨⟨d', hd', hd''⟩, hsymbol⟩ := hframe'.declared isType name index hindex
      exact ⟨⟨d', List.mem_append_left _ hd', hd''⟩, hsymbol⟩
    · rcases List.mem_append.mp hd' with hd' | hd'
      · exact hframe'.index d' hd' hname'
      · rw [List.mem_singleton.mp hd'] at hname'
        exact absurd hname hname'
  · cases hindex : frame.lookup? d.kind.isType d.name.text with
    | some index =>
      obtain ⟨hframes', hdeclared, -, -⟩ := declare_of_some hframes hname hindex
      rw [State.Represents, hframes', hframes]
      refine .cons ⟨fun isType name i hi => ?_, fun d' hd' hname' => ?_⟩ (hrest.imp fun _ _ => hmono)
      · obtain ⟨⟨d', hd', hd''⟩, hsymbol⟩ := hframe'.declared isType name i hi
        exact ⟨⟨d', List.mem_append_left _ hd', hd''⟩, hsymbol⟩
      · rcases List.mem_append.mp hd' with hd' | hd'
        · exact hframe'.index d' hd' hname'
        · rw [List.mem_singleton.mp hd']
          exact ⟨index, hindex, by rw [hdeclared, List.lookup_cons_self]⟩
    | none =>
      obtain ⟨hframes', hdeclared, -, hsymbols⟩ := declare_of_none hframes hname hindex
      rw [State.Represents, hframes']
      refine .cons ⟨fun isType name i hi => ?_, fun d' hd' hname' => ?_⟩ (hrest.imp fun _ _ => hmono)
      · rw [Frame.lookup?_add] at hi
        split at hi
        · rename_i heq
          cases hi
          refine ⟨⟨d, List.mem_append_right _ List.mem_cons_self, heq.2.symm, heq.1.symm⟩, ?_⟩
          rw [hsymbols, if_pos rfl]
        · obtain ⟨⟨d', hd', hd''⟩, hsymbol⟩ := hframe'.declared isType name i hi
          exact ⟨⟨d', List.mem_append_left _ hd', hd''⟩, hsymbol⟩
      · rcases List.mem_append.mp hd' with hd' | hd'
        · obtain ⟨i, hi, hi'⟩ := hframe'.index d' hd' hname'
          have hne : ¬(d'.kind.isType = d.kind.isType ∧ d'.name.text = d.name.text) := by
            intro heq
            rw [heq.1, heq.2, hindex] at hi
            cases hi
          exact ⟨i, by rw [Frame.lookup?_add, if_neg hne, hi], hi'⟩
        · rw [List.mem_singleton.mp hd']
          exact ⟨_, by rw [Frame.lookup?_add, if_pos ⟨rfl, rfl⟩],
            by rw [hdeclared, List.lookup_cons_self]⟩

/-- Declaring new names adds them to what the innermost scope holds. -/
theorem foldl_declare {s : State} {new ds : List Declaration} {scopes : List (List Declaration)}
    (h : s.Represents (ds :: scopes)) (hnodup : (new.map (·.name.id)).Nodup)
    (hnew : s.New (new.map (·.name.id))) :
    (new.foldl State.declare s).Represents ((ds ++ new) :: scopes) := by
  induction new generalizing s ds with
  | nil => rwa [List.append_nil]
  | cons d new ih =>
    rw [List.map_cons] at hnodup hnew
    obtain ⟨hd, hnodup⟩ := List.nodup_cons.mp hnodup
    have hfirst : s.New [d.name.id] := hnew.of_subset (by simp)
    have hnew' := (extends_declare s d).new (hnew.of_subset (List.subset_cons_self _ _))
      fun id hid hmem => hd (List.mem_singleton.mp hmem ▸ hid)
    rw [List.append_cons]
    exact ih (represents_declare h hfirst) hnodup hnew'

/-! ### References -/

/-- The reference is settled: it refers to what the innermost scope around it declares that declares its
name, and to nothing when there is no such scope. -/
structure Settled (s : State) (r : Referred Place) (around : List (List Declaration)) : Prop where
  undeclared : s.binding.declared.lookup r.label.id = none
  unresolved : meaning? (around.map (·.map Declaration.toDeclared)) (r.map Place.id) = none →
    s.binding.resolved.lookup r.label.id = none
  resolved : ∀ ds, meaning? (around.map (·.map Declaration.toDeclared)) (r.map Place.id) = some ds →
    ∃ index, s.binding.resolved.lookup r.label.id = some index ∧
      symbolId? s.binding index = some (.localSymbol index) ∧
      ∀ d ∈ ds, d.answers (r.map Place.id) = true → s.binding.declared.lookup d.label = some index

theorem Settled.mono {s s' : State} {r : Referred Place} {around : List (List Declaration)}
    (h : Settled s r around) {ids : List NodeId} (hext : Extends ids s s') (hnew : s.New ids)
    (hr : r.label.id ∉ ids) : Settled s' r around where
  undeclared := (hext.declared _ hr).trans h.undeclared
  unresolved hmeaning := (hext.resolved _ hr).trans (h.unresolved hmeaning)
  resolved ds hmeaning := by
    obtain ⟨index, hindex, hsymbol, hds⟩ := h.resolved ds hmeaning
    exact ⟨index, hext.lookup_resolved hnew hindex, hext.symbols _ _ hsymbol,
      fun d hd hanswers => hext.lookup_declared hnew (hds d hd hanswers)⟩

section

variable {s : State} {r : Referred Place}

/-- A scope holds the name of a reference when it declares it. -/
theorem Frame.Represents.any_answers_iff {b : Binding} {frame : Frame} {ds : List Declaration}
    (h : frame.Represents b ds) (hname : r.name ≠ "") :
    (ds.map Declaration.toDeclared).any (·.answers (r.map Place.id)) = true ↔
      (frame.lookup? r.isType r.name).isSome := by
  rw [List.any_eq_true, Option.isSome_iff_exists]
  constructor
  · rintro ⟨d', hd', hanswers⟩
    obtain ⟨d, hd, rfl⟩ := List.mem_map.mp hd'
    obtain ⟨htext, htype⟩ := Declared.answers_iff.mp hanswers
    have htext : d.name.text = r.name := htext
    have htype : d.kind.isType = r.isType := htype
    obtain ⟨index, hindex, -⟩ := h.index d hd (htext ▸ hname)
    exact ⟨index, by rw [← htext, ← htype, hindex]⟩
  · rintro ⟨index, hindex⟩
    obtain ⟨⟨d, hd, htext, htype⟩, -⟩ := h.declared _ _ _ hindex
    exact ⟨d.toDeclared, List.mem_map_of_mem hd, Declared.answers_iff.mpr ⟨htext, htype⟩⟩

/-- What the open scopes hold is what the name means. -/
theorem findSome?_lookup? {frames : List Frame} {scopes : List (List Declaration)} {b : Binding}
    (h : List.Forall₂ (Frame.Represents b) frames scopes) (hname : r.name ≠ "") :
    (frames.findSome? (·.lookup? r.isType r.name) = none →
      meaning? (scopes.map (·.map Declaration.toDeclared)) (r.map Place.id) = none) ∧
    ∀ index, frames.findSome? (·.lookup? r.isType r.name) = some index →
      symbolId? b index = some (.localSymbol index) ∧
      ∃ ds, meaning? (scopes.map (·.map Declaration.toDeclared)) (r.map Place.id) = some ds ∧
        ∀ d ∈ ds, d.answers (r.map Place.id) = true → b.declared.lookup d.label = some index := by
  induction h with
  | nil => exact ⟨fun _ => rfl, fun index h => by simp at h⟩
  | @cons frame ds frames scopes hframe _ ih =>
    rw [List.findSome?_cons, List.map_cons]
    have hany := hframe.any_answers_iff hname
    cases hindex : frame.lookup? r.isType r.name with
    | none =>
      rw [hindex, Option.isSome_none] at hany
      rw [meaning?_cons_of_neg (by simpa using hany)]
      exact ih
    | some index =>
      rw [hindex, Option.isSome_some] at hany
      rw [meaning?_cons_of_pos (hany.mpr rfl)]
      refine ⟨fun h => absurd h (Option.some_ne_none _), fun index' hindex' => ?_⟩
      cases hindex'
      refine ⟨(hframe.declared _ _ _ hindex).2, _, rfl, fun d' hd' hanswers => ?_⟩
      obtain ⟨d, hd, rfl⟩ := List.mem_map.mp hd'
      obtain ⟨htext, htype⟩ := Declared.answers_iff.mp hanswers
      have htext : d.name.text = r.name := htext
      have htype : d.kind.isType = r.isType := htype
      obtain ⟨index', hindex', hdeclared⟩ := hframe.index d hd (htext ▸ hname)
      rw [htext, htype, hindex] at hindex'
      cases hindex'
      exact hdeclared

/-- A reference enters its number and leaves the open scopes. -/
theorem extends_refer (s : State) (isType : Bool) (name : Ident Place) :
    Extends [name.id] s (s.refer isType name) ∧ (s.refer isType name).frames = s.frames := by
  rw [State.refer]
  split
  · exact ⟨.of_eq rfl, rfl⟩
  · dsimp only
    split
    · exact ⟨⟨fun _ _ => rfl, fun id hid => lookup_cons_of_notMem hid, fun _ _ h => h⟩, rfl⟩
    · split
      · exact ⟨⟨fun _ _ => rfl, fun _ _ => rfl, fun _ _ h => h⟩, rfl⟩
      · exact ⟨⟨fun _ _ => rfl, fun _ _ => rfl, fun _ _ h => h⟩, rfl⟩

/-- **A reference is settled** by the open scopes. -/
theorem settled_refer {scopes : List (List Declaration)} (h : s.Represents scopes)
    (hnew : s.New [r.label.id]) (hname : r.name ≠ "") :
    Settled (s.refer r.isType ⟨r.label, r.name⟩) r scopes := by
  obtain ⟨hundeclared, hunresolved⟩ := hnew _ List.mem_cons_self
  obtain ⟨hnone, hsome⟩ := findSome?_lookup? h hname
  rw [State.refer, if_neg hname]
  dsimp only
  cases hfind : s.frames.findSome? (·.lookup? r.isType r.name) with
  | some index =>
    obtain ⟨hsymbol, ds, hmeaning, hds⟩ := hsome index hfind
    refine ⟨hundeclared, fun hmeaning' => ?_, fun ds' hmeaning' => ?_⟩
    · rw [hmeaning] at hmeaning'
      cases hmeaning'
    · rw [hmeaning] at hmeaning'
      cases hmeaning'
      exact ⟨index, List.lookup_cons_self, hsymbol, hds⟩
  | none =>
    have hmeaning := hnone hfind
    cases r.isType with
    | true =>
      refine ⟨hundeclared, fun _ => hunresolved, fun ds hmeaning' => ?_⟩
      rw [hmeaning] at hmeaning'
      cases hmeaning'
    | false =>
      refine ⟨hundeclared, fun _ => hunresolved, fun ds hmeaning' => ?_⟩
      rw [hmeaning] at hmeaning'
      cases hmeaning'

end

end Semantics.Binding

end ScriptAnalysis

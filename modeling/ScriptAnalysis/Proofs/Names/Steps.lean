import ScriptAnalysis.Proofs.Names.Outcomes

/-!
# What binding leaves alone

Every step of binding enters what it is about and leaves the rest: a walk enters numbers of its outline only
(`Walks.extends`), changes nothing but the innermost of the open scopes (`Walks.tail_frames`) and forgets
nothing (`Walks.knows`). `State.Stands` says what the innermost scope holds while its declarations are entered,
one after another.
-/

namespace ScriptAnalysis

open Names (Referred Outline)
open Scoping (ScopeType)
open Semantics (Declaration)
open Semantics.Binding
open Syntax (Ident NodeId Place)

namespace Semantics.Binding

/-! ### What steps leave -/

section

variable {s s' : State} {d d' : Declaration} {ids ids' : List NodeId}

theorem Extends.mono (h : Extends ids s s') (hids : ids ⊆ ids') : Extends ids' s s' where
  declared id hid := h.declared id fun hmem => hid (hids hmem)
  resolved id hid := h.resolved id fun hmem => hid (hids hmem)
  symbols := h.symbols

theorem Extends.of_pop (h : Extends ids s.pop s') : Extends ids s s' := ⟨h.declared, h.resolved, h.symbols⟩

/-- A declaration that is reached on the way does no more than one in front. -/
theorem declareLate_cases {P : State → Prop} (hs : P s) (hdeclare : P (s.declare d)) : P (s.declareLate d) := by
  rw [State.declareLate]
  split
  · exact hs
  · exact hdeclare

/-- A name that gets its first value is not referred to. -/
theorem refer_cases {P : State → Prop} {r : Referred Place} (hs : P s)
    (hrefer : P (s.refer r.isType ⟨r.label, r.name⟩)) :
    P (if r.isInitial then s else s.refer r.isType ⟨r.label, r.name⟩) := by
  split
  · exact hs
  · exact hrefer

/-- A reference enters its number, unless it only gives a declared name its first value. -/
theorem extends_read (s : State) (r : Referred Place) :
    Extends (if r.isInitial then [] else [r.label.id]) s
      (if r.isInitial then s else s.refer r.isType ⟨r.label, r.name⟩) := by
  split
  · exact .of_eq rfl
  · exact (extends_refer s r.isType ⟨r.label, r.name⟩).1

/-- What is known stays known. -/
theorem State.Knows.declare (h : s.Knows d) (d' : Declaration) : (s.declare d').Knows d := by
  refine h.imp_right fun hdeclared => ?_
  rw [isDeclared_iff] at hdeclared ⊢
  rw [State.declare]
  split
  · exact hdeclared
  · split
    · exact hdeclared
    · dsimp only
      split <;> exact List.mem_cons_of_mem _ hdeclared

theorem State.Knows.foldl (h : s.Knows d) (new : List Declaration) : (new.foldl State.declare s).Knows d := by
  induction new generalizing s with
  | nil => exact h
  | cons d' new ih => exact ih (h.declare d')

theorem State.Knows.refer (h : s.Knows d) (isType : Bool) (name : Ident Place) :
    (s.refer isType name).Knows d := by
  rwa [State.Knows, isDeclared_iff, keys_refer, ← isDeclared_iff]

/-- A name that is declared in a scope is known. -/
theorem knows_declare (hframes : s.frames ≠ []) (d : Declaration) : (s.declare d).Knows d := by
  obtain ⟨frame, frames, hframes⟩ := List.exists_cons_of_ne_nil hframes
  by_cases hname : d.name.text = ""
  · exact .inl hname
  refine .inr ?_
  rw [isDeclared_iff, State.keys]
  cases hindex : frame.lookup? d.kind.isType d.name.text with
  | some index =>
    rw [(declare_of_some hframes hname hindex).2.1]
    exact List.mem_cons_self
  | none =>
    rw [(declare_of_none hframes hname hindex).2.1]
    exact List.mem_cons_self

theorem frames_ne_declare (hframes : s.frames ≠ []) (d : Declaration) : (s.declare d).frames ≠ [] := by
  rw [State.declare]
  split
  · exact hframes
  · split
    · exact hframes
    · dsimp only
      split
      · exact hframes
      · exact List.cons_ne_nil _ _

theorem frames_ne_foldl (new : List Declaration) (hframes : s.frames ≠ []) :
    (new.foldl State.declare s).frames ≠ [] := by
  induction new generalizing s with
  | nil => exact hframes
  | cons d new ih => exact ih (frames_ne_declare hframes d)

/-- All names that are declared in a scope are known. -/
theorem knows_foldl_of_mem {new : List Declaration} (hframes : s.frames ≠ []) (hd : d ∈ new) :
    (new.foldl State.declare s).Knows d := by
  induction new generalizing s with
  | nil => exact absurd hd List.not_mem_nil
  | cons d' new ih =>
    rcases List.mem_cons.mp hd with rfl | hd
    · exact (knows_declare hframes d).foldl new
    · exact ih (frames_ne_declare hframes d') hd

end

end Semantics.Binding

theorem Names.Outline.own_subset_ids (o : Outline Declaration (Referred Place)) (type : ScopeType) :
    (o.own type).map (·.name.id) ⊆ o.ids := by
  intro id hid
  obtain ⟨d, hd, rfl⟩ := List.mem_map.mp hid
  exact id_mem_ids (o.own_subset_declarations type hd)

namespace Semantics.Binding

/-! ### What a scope enters -/

section

variable {type : ScopeType} {header body : Outline Declaration (Referred Place)} {s s₁ s₂ : State}
  {first : List Declaration}

/-- What is entered before the body of a scope. -/
theorem extends_header (h : Extends header.ids ((header.own type).foldl State.declare s.push) s₁) :
    Extends header.ids s s₁ := by
  have h := ((extends_foldl (header.own type) s.push).trans h).mono
    (List.append_subset.mpr ⟨header.own_subset_ids type, List.Subset.refl _⟩)
  exact ⟨h.declared, h.resolved, h.symbols⟩

theorem extends_body (hfirst : first.Sublist (body.own type))
    (h : Extends body.ids (first.foldl State.declare s₁) s₂) : Extends body.ids s₁ s₂ :=
  ((extends_foldl first s₁).trans h).mono (List.append_subset.mpr
    ⟨List.Subset.trans (hfirst.map _).subset (body.own_subset_ids type), List.Subset.refl _⟩)

/-- A scope enters the numbers that stand in it. -/
theorem extends_scope (hfirst : first.Sublist (body.own type))
    (hheader : Extends header.ids ((header.own type).foldl State.declare s.push) s₁)
    (hbody : Extends body.ids (first.foldl State.declare s₁) s₂) :
    Extends (header.ids ++ body.ids) s s₂.pop := by
  have h := (extends_header hheader).trans (extends_body hfirst hbody)
  exact ⟨h.declared, h.resolved, h.symbols⟩

end

end Semantics.Binding

namespace Names.Outline

section

variable {First First' : List Declaration → List Declaration → Prop} {late : Bool}
  {o : Outline Declaration (Referred Place)} {s s' : State}

theorem Walks.mono (hmono : ∀ first own, First first own → First' first own) (h : o.Walks First late s s') :
    o.Walks First' late s s' := by
  induction h with
  | done => exact .done
  | declare _ ih => exact .declare ih
  | refer _ ih => exact .refer ih
  | scope hheader hfirst _ _ _ ihHeader ihBody ih =>
    exact .scope hheader (hmono _ _ hfirst) ihHeader ihBody ih

/-- Scopes further out stay as they are. -/
theorem Walks.tail_frames (h : o.Walks First late s s') : s'.frames.tail = s.frames.tail := by
  induction h with
  | done => rfl
  | @declare late _ d _ s _ _ ih =>
    rw [ih]
    cases late with
    | false => rfl
    | true => exact declareLate_cases (P := (·.frames.tail = s.frames.tail)) rfl (tail_frames_declare s d)
  | @refer _ r _ s _ _ ih =>
    rw [ih]
    exact refer_cases (P := (·.frames.tail = s.frames.tail)) rfl (by rw [(extends_refer s _ _).2])
  | @scope _ type header _ _ s _ s₂ _ _ _ _ _ _ _ ihHeader ihBody ih =>
    have hpop : s₂.pop.frames = s.frames := by
      rw [State.pop, ihBody, tail_frames_foldl, ihHeader, tail_frames_foldl]
      rfl
    rw [ih, hpop]

/-- A scope that is walked leaves the open scopes as they are. -/
theorem frames_pop {type : ScopeType} {header body : Outline Declaration (Referred Place)} {s₁ s₂ : State}
    {first : List Declaration}
    (hheader : header.Walks First false ((header.own type).foldl State.declare s.push) s₁)
    (hbody : body.Walks First true (first.foldl State.declare s₁) s₂) : s₂.pop.frames = s.frames := by
  rw [State.pop, hbody.tail_frames, tail_frames_foldl, hheader.tail_frames, tail_frames_foldl]
  rfl

/-- Where nothing is declared on the way, the open scopes stay as they are. -/
theorem Walks.frames_eq (h : o.Walks First late s s') (hlate : late = false) : s'.frames = s.frames := by
  induction h with
  | done => rfl
  | declare _ ih =>
    rw [ih hlate, hlate]
    rfl
  | @refer _ r _ s _ _ ih =>
    rw [ih hlate]
    exact refer_cases (P := (·.frames = s.frames)) rfl (extends_refer s _ _).2
  | scope _ _ hheader hbody _ _ _ ih => rw [ih hlate, frames_pop hheader hbody]

/-- A walk enters numbers of its outline and no others. -/
theorem Walks.extends (h : o.Walks List.Sublist late s s') : Extends o.ids s s' := by
  induction h with
  | done => exact .of_eq rfl
  | @declare late _ d rest s _ _ ih =>
    have hstep : Extends [d.name.id] s (if late then s.declareLate d else s) := by
      cases late with
      | false => exact .of_eq rfl
      | true => exact declareLate_cases (P := Extends _ s) (.of_eq rfl) (extends_declare s d)
    exact hstep.trans ih
  | @refer _ r rest s _ _ ih =>
    rw [ids_refer]
    exact (extends_read s r).trans ih
  | @scope _ type header body rest s s₁ s₂ _ first _ hfirst _ _ _ ihHeader ihBody ih =>
    rw [ids_scope, ← List.append_assoc]
    exact (extends_scope hfirst ihHeader ihBody).trans ih

/-- What is known stays known. -/
theorem Walks.knows (h : o.Walks List.Sublist late s s') {d : Declaration} (hd : s.Knows d) : s'.Knows d :=
  h.preserves (P := (·.Knows d)) (fun d' _ _ hs => hs.declare d') (fun _ _ _ hs => hs.refer _ _)
    (fun _ hs => hs) (fun _ hs => hs) (List.Subset.refl _) (List.Subset.refl _) hd

end

end Names.Outline

namespace Semantics.Binding

/-! ### What the innermost scope holds -/

/-- A scope holds the names of the declarations and no others. -/
def Frame.Holds (frame : Frame) (ds : List Declaration) : Prop :=
  ∀ isType name, name ≠ "" →
    ((frame.lookup? isType name).isSome ↔ ∃ d ∈ ds, d.name.text = name ∧ d.kind.isType = isType)

/-- A scope holds what another one holds, under the same numbers. -/
def Frame.Includes (frame frame' : Frame) : Prop :=
  ∀ isType name index, frame'.lookup? isType name = some index → frame.lookup? isType name = some index

/-- The innermost scope holds the declarations, under numbers that were not in use when it was opened. -/
structure State.Stands (s : State) (base : Nat) (frame : Frame) (around : List Frame) (ds : List Declaration) :
    Prop where
  frames : s.frames = frame :: around
  holds : frame.Holds ds
  le_index : ∀ isType name index, frame.lookup? isType name = some index → base ≤ index
  le_size : base ≤ s.binding.symbols.size

section

variable {s s' : State} {base : Nat} {frame : Frame} {around : List Frame} {ds : List Declaration}

theorem size_declare (s : State) (d : Declaration) :
    s.binding.symbols.size ≤ (s.declare d).binding.symbols.size := by
  rw [State.declare]
  split
  · exact Nat.le_refl _
  · split
    · exact Nat.le_refl _
    · dsimp only
      split
      · exact Nat.le_of_eq Array.size_modify.symm
      · rw [Array.size_push]
        exact Nat.le_succ _

theorem symbols_refer (s : State) (isType : Bool) (name : Ident Place) :
    (s.refer isType name).binding.symbols = s.binding.symbols := by
  rw [State.refer]
  split
  · rfl
  · dsimp only
    split
    · rfl
    · split <;> rfl

/-- One more declaration of a name that a scope holds makes no difference to what it holds. -/
theorem Frame.Holds.append_of_isSome (h : frame.Holds ds) {d : Declaration}
    (hd : d.name.text ≠ "" → (frame.lookup? d.kind.isType d.name.text).isSome) :
    frame.Holds (ds ++ [d]) := by
  intro isType name hname
  rw [h isType name hname]
  constructor
  · rintro ⟨d', hd', hsame⟩
    exact ⟨d', List.mem_append_left _ hd', hsame⟩
  · rintro ⟨d', hd', rfl, rfl⟩
    rcases List.mem_append.mp hd' with hd' | hd'
    · exact ⟨d', hd', rfl, rfl⟩
    · obtain rfl := List.mem_singleton.mp hd'
      exact (h _ _ hname).mp (hd hname)

theorem Frame.Holds.add (h : frame.Holds ds) (d : Declaration) (index : Nat) :
    (frame.add d.kind.isType d.name.text index).Holds (ds ++ [d]) := by
  intro isType name hname
  rw [Frame.lookup?_add]
  split
  · rename_i hsame
    simp only [Option.isSome_some, true_iff]
    exact ⟨d, List.mem_append_right _ List.mem_cons_self, hsame.2.symm, hsame.1.symm⟩
  · rename_i hother
    rw [h isType name hname]
    refine exists_congr fun d' => and_congr_left fun hsame => ?_
    rw [List.mem_append, List.mem_singleton]
    refine (or_iff_left ?_).symm
    rintro rfl
    exact hother ⟨hsame.2.symm, hsame.1.symm⟩

/-- A declaration is added to what the innermost scope holds. -/
theorem State.Stands.declare (h : s.Stands base frame around ds) (d : Declaration) :
    ∃ frame', (s.declare d).Stands base frame' around (ds ++ [d]) ∧ frame'.Includes frame := by
  have hsize := Nat.le_trans h.le_size (size_declare s d)
  by_cases hname : d.name.text = ""
  · rw [declare_of_missing hname]
    exact ⟨frame, ⟨h.frames, h.holds.append_of_isSome fun h => absurd hname h, h.le_index, h.le_size⟩,
      fun _ _ _ hindex => hindex⟩
  cases hindex : frame.lookup? d.kind.isType d.name.text with
  | some index =>
    refine ⟨frame, ⟨?_, h.holds.append_of_isSome fun _ => by rw [hindex]; rfl, h.le_index, hsize⟩,
      fun _ _ _ hindex => hindex⟩
    rw [(declare_of_some h.frames hname hindex).1, h.frames]
  | none =>
    refine ⟨_, ⟨(declare_of_none h.frames hname hindex).1, h.holds.add d _, fun isType name i hi => ?_, hsize⟩,
      fun isType name i hi => ?_⟩
    · rw [Frame.lookup?_add] at hi
      split at hi
      · exact Option.some.inj hi ▸ h.le_size
      · exact h.le_index isType name i hi
    · rw [Frame.lookup?_add, if_neg, hi]
      rintro ⟨rfl, rfl⟩
      rw [hindex] at hi
      cases hi

/-- So is a declaration that is reached on the way, whether it was in front or not. -/
theorem State.Stands.declareLate (h : s.Stands base frame around ds) {d : Declaration}
    (hknown : s.isDeclared d.name = true → d ∈ ds) :
    ∃ frame', (s.declareLate d).Stands base frame' around (ds ++ [d]) ∧ frame'.Includes frame := by
  rw [State.declareLate]
  split
  · rename_i hdeclared
    refine ⟨frame, ⟨h.frames, h.holds.append_of_isSome fun hname => ?_, h.le_index, h.le_size⟩,
      fun _ _ _ hindex => hindex⟩
    exact (h.holds _ _ hname).mpr ⟨d, hknown hdeclared, rfl, rfl⟩
  · exact h.declare d

theorem State.Stands.foldl (h : s.Stands base frame around ds) (new : List Declaration) :
    ∃ frame', (new.foldl State.declare s).Stands base frame' around (ds ++ new) := by
  induction new generalizing s frame ds with
  | nil => exact ⟨frame, by rwa [List.append_nil]⟩
  | cons d new ih =>
    obtain ⟨frame', h', -⟩ := h.declare d
    obtain ⟨frame'', h''⟩ := ih h'
    rw [List.append_assoc] at h''
    exact ⟨frame'', h''⟩

theorem State.Stands.of_frames (h : s.Stands base frame around ds) (hframes : s'.frames = s.frames)
    (hsize : s.binding.symbols.size ≤ s'.binding.symbols.size) : s'.Stands base frame around ds :=
  ⟨hframes.trans h.frames, h.holds, h.le_index, Nat.le_trans h.le_size hsize⟩

/-- A scope that is opened holds nothing. -/
theorem stands_push (s : State) : s.push.Stands s.binding.symbols.size {} s.frames [] := by
  have hnone : ∀ isType name, ({} : Frame).lookup? isType name = none := by
    intro isType name
    cases isType <;> rfl
  refine ⟨rfl, fun isType name _ => ?_, fun isType name index hindex => ?_, Nat.le_refl _⟩
  · simp [hnone]
  · rw [hnone] at hindex
    cases hindex

/-! ### Numbers in use -/

/-- Open scopes hold names under numbers that are in use. -/
def State.InRange (s : State) : Prop :=
  ∀ frame ∈ s.frames, ∀ isType name index, frame.lookup? isType name = some index →
    index < s.binding.symbols.size

theorem State.InRange.declare (h : s.InRange) (d : Declaration) : (s.declare d).InRange := by
  have hsize := size_declare s d
  cases hframes : s.frames with
  | nil => rwa [declare_of_no_scope hframes]
  | cons frame frames =>
  by_cases hname : d.name.text = ""
  · rwa [declare_of_missing hname]
  cases hindex : frame.lookup? d.kind.isType d.name.text with
  | some index =>
    intro f hf isType name i hi
    rw [(declare_of_some hframes hname hindex).1] at hf
    exact Nat.lt_of_lt_of_le (h f hf isType name i hi) hsize
  | none =>
    have heq := declare_eq_of_none hframes hname hindex
    intro f hf isType name i hi
    rw [heq] at hf ⊢
    rw [Array.size_push]
    rcases List.mem_cons.mp hf with rfl | hf
    · rw [Frame.lookup?_add] at hi
      split at hi
      · exact Option.some.inj hi ▸ Nat.lt_succ_self _
      · exact Nat.lt_succ_of_lt (h frame (hframes ▸ List.mem_cons_self) isType name i hi)
    · exact Nat.lt_succ_of_lt (h f (hframes ▸ List.mem_cons_of_mem _ hf) isType name i hi)

theorem State.InRange.foldl (h : s.InRange) (new : List Declaration) :
    (new.foldl State.declare s).InRange := by
  induction new generalizing s with
  | nil => exact h
  | cons d new ih => exact ih (h.declare d)

theorem State.InRange.refer (h : s.InRange) (isType : Bool) (name : Ident Place) :
    (s.refer isType name).InRange := by
  rw [State.InRange, (extends_refer s _ _).2, symbols_refer]
  exact h

theorem State.InRange.pop (h : s.InRange) : s.pop.InRange :=
  fun frame hframe => h frame (List.mem_of_mem_tail hframe)

theorem State.InRange.push (h : s.InRange) : s.push.InRange := by
  intro frame hframe isType name index hindex
  rcases List.mem_cons.mp hframe with rfl | hframe
  · cases isType <;> cases hindex
  · exact h frame hframe isType name index hindex

end

end Semantics.Binding

namespace Names.Outline

section

variable {late : Bool} {o : Outline Declaration (Referred Place)} {s s' : State}

theorem Walks.inRange (h : o.Walks List.Sublist late s s') (hs : s.InRange) : s'.InRange := by
  exact h.preserves (P := State.InRange) (fun d _ _ hs => hs.declare d) (fun _ _ _ hs => hs.refer _ _)
    (fun _ hs => hs.push) (fun _ hs => hs.pop) (List.Subset.refl _) (List.Subset.refl _) hs

theorem Walks.size_le (h : o.Walks List.Sublist late s s') :
    s.binding.symbols.size ≤ s'.binding.symbols.size := by
  refine h.preserves (P := fun s' => s.binding.symbols.size ≤ s'.binding.symbols.size)
    (fun d _ s hs => Nat.le_trans hs (size_declare s d)) (fun r _ s hs => ?_) (fun _ hs => hs) (fun _ hs => hs)
    (List.Subset.refl _) (List.Subset.refl _) (Nat.le_refl _)
  rw [symbols_refer]
  exact hs

end

end Names.Outline

namespace Semantics.Binding

/-! ### Numbers of symbols -/

/-- Every symbol has its place as its number. -/
def State.Numbers (s : State) : Prop := ∀ index id, symbolId? s.binding index = some id → id = .localSymbol index

theorem State.Numbers.declare {s : State} (h : s.Numbers) (d : Declaration) : (s.declare d).Numbers := by
  cases hframes : s.frames with
  | nil => rwa [declare_of_no_scope hframes]
  | cons frame frames =>
  by_cases hname : d.name.text = ""
  · rwa [declare_of_missing hname]
  intro i id hid
  cases hindex : frame.lookup? d.kind.isType d.name.text with
  | some index =>
    rw [(declare_of_some hframes hname hindex).2.2.2] at hid
    exact h i id hid
  | none =>
    rw [(declare_of_none hframes hname hindex).2.2.2] at hid
    split at hid
    · rename_i hi
      exact hi ▸ (Option.some.inj hid).symm
    · exact h i id hid

theorem numbers_walks {late : Bool} {o : Outline Declaration (Referred Place)} {s s' : State}
    (h : o.Walks List.Sublist late s s') (hs : s.Numbers) : s'.Numbers := by
  refine h.preserves (P := State.Numbers) (fun d _ _ hs => hs.declare d) (fun r _ s hs => ?_) (fun _ hs => hs)
    (fun _ hs => hs) (List.Subset.refl _) (List.Subset.refl _) hs
  intro i id hid
  rw [symbolId?, symbols_refer] at hid
  exact hs i id hid

end Semantics.Binding

end ScriptAnalysis

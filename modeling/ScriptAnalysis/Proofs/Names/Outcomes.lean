import ScriptAnalysis.Proofs.Names.Entries

/-!
# What becomes of references

Binding settles every reference that has a text, and each of them once: it is resolved, or it is listed as a
reference to a value or to a type that refers to nothing. `Settles uses s s'` says what became of the
references between two states, in the order in which they were met; a walk over an outline meets the
references of the outline in source order (`settles_walks`).
-/

namespace ScriptAnalysis

open Names (Referred Outline)
open Semantics (Declaration)
open Semantics.Binding (State)
open Syntax (Ident NodeId Place)

namespace Names.Outline

/-- The numbers of the references that have a text, in source order. -/
def referred (o : Outline Declaration (Referred Place)) : List NodeId :=
  (o.reads.filter (·.name ≠ "")).map (·.label.id)

theorem referred_refer (r : Referred Place) (o : Outline Declaration (Referred Place)) :
    (refer r o).referred =
      (if r.isInitial = true ∨ r.name = "" then [] else [r.label.id]) ++ o.referred := by
  rw [referred, reads_refer, List.filter_append, List.map_append]
  cases r.isInitial <;> by_cases hname : r.name = "" <;> simp [hname, referred]

theorem referred_scope (type : Scoping.ScopeType) (header body o : Outline Declaration (Referred Place)) :
    (scope type header body o).referred = header.referred ++ (body.referred ++ o.referred) := by
  simp [referred, reads_scope]

end Names.Outline

namespace Semantics.Binding

/-- What becomes of a reference. -/
inductive Outcome where
  /-- It refers to a symbol of the file. -/
  | resolved
  /-- It is a reference to a value and refers to nothing in the file. -/
  | unresolved
  /-- It is a reference to a type and refers to nothing in the file. -/
  | unresolvedType
  deriving DecidableEq

/-- The references with an outcome, later ones first. -/
def State.listed (s : State) : Outcome → List NodeId
  | .resolved => s.binding.resolved.map (·.1)
  | .unresolved => s.binding.unresolved
  | .unresolvedType => s.binding.unresolvedTypes

/-- The references among several that have an outcome. -/
def pick (outcome : Outcome) (uses : List (NodeId × Outcome)) : List NodeId :=
  (uses.filter (·.2 = outcome)).map (·.1)

/-- Between two states references get the outcomes. -/
def Settles (uses : List (NodeId × Outcome)) (s s' : State) : Prop :=
  ∀ outcome, s'.listed outcome = (pick outcome uses).reverse ++ s.listed outcome

theorem pick_append (outcome : Outcome) (uses uses' : List (NodeId × Outcome)) :
    pick outcome (uses ++ uses') = pick outcome uses ++ pick outcome uses' := by
  simp [pick]

theorem sublist_pick (outcome : Outcome) (uses : List (NodeId × Outcome)) :
    (pick outcome uses).Sublist (uses.map (·.1)) :=
  List.filter_sublist.map _

theorem mem_pick_iff {outcome : Outcome} {uses : List (NodeId × Outcome)} {id : NodeId} :
    id ∈ pick outcome uses ↔ (id, outcome) ∈ uses := by
  simp [pick]

namespace Settles

variable {uses uses' : List (NodeId × Outcome)} {s s' s'' : State}

theorem trans (h : Settles uses s s') (h' : Settles uses' s' s'') : Settles (uses ++ uses') s s'' := by
  intro outcome
  rw [h' outcome, h outcome, pick_append, List.reverse_append, List.append_assoc]

theorem declare (s : State) (d : Declaration) : Settles [] s (s.declare d) := by
  intro outcome
  rw [State.declare]
  split
  · rfl
  · dsimp only
    split
    · rfl
    · split <;> cases outcome <;> rfl

theorem foldl (new : List Declaration) (s : State) : Settles [] s (new.foldl State.declare s) := by
  induction new generalizing s with
  | nil => exact fun _ => rfl
  | cons d new ih => exact (declare s d).trans (ih _)

theorem declareLate (s : State) (d : Declaration) : Settles [] s (s.declareLate d) := by
  rw [State.declareLate]
  split
  · exact fun _ => rfl
  · exact declare s d

/-- A reference that has a text gets one outcome. -/
theorem refer (s : State) (isType : Bool) (name : Ident Place) (hname : name.text ≠ "") :
    ∃ outcome, Settles [(name.id, outcome)] s (s.refer isType name) := by
  rw [State.refer, if_neg hname]
  dsimp only
  split
  · refine ⟨.resolved, fun outcome => ?_⟩
    cases outcome <;> rfl
  · split
    · refine ⟨.unresolvedType, fun outcome => ?_⟩
      cases outcome <;> rfl
    · refine ⟨.unresolved, fun outcome => ?_⟩
      cases outcome <;> rfl

end Settles

/-- **Every reference gets one outcome**, and they are met in source order. -/
theorem settles_walks {First : List Declaration → List Declaration → Prop} {late : Bool}
    {o : Outline Declaration (Referred Place)} {s s' : State} (h : o.Walks First late s s') :
    ∃ uses, Settles uses s s' ∧ uses.map (·.1) = o.referred := by
  induction h with
  | done => exact ⟨[], fun _ => rfl, rfl⟩
  | @declare late _ d _ s _ _ ih =>
    obtain ⟨uses, hsettles, huses⟩ := ih
    refine ⟨uses, ?_, huses⟩
    cases late with
    | true => exact (Settles.declareLate s d).trans hsettles
    | false => exact hsettles
  | @refer _ r rest s _ _ ih =>
    obtain ⟨uses, hsettles, huses⟩ := ih
    rw [Outline.referred_refer]
    cases hinitial : r.isInitial with
    | true =>
      rw [hinitial, if_pos rfl] at hsettles
      refine ⟨uses, hsettles, ?_⟩
      rw [if_pos (.inl rfl)]
      exact huses
    | false =>
      rw [hinitial, if_neg Bool.false_ne_true] at hsettles
      by_cases hname : r.name = ""
      · rw [State.refer, if_pos hname] at hsettles
        refine ⟨uses, hsettles, ?_⟩
        rw [if_pos (.inr hname)]
        exact huses
      · obtain ⟨outcome, hrefer⟩ := Settles.refer s r.isType ⟨r.label, r.name⟩ hname
        refine ⟨_, hrefer.trans hsettles, ?_⟩
        rw [List.map_append, huses, if_neg (not_or.mpr ⟨Bool.false_ne_true, hname⟩)]
        rfl
  | @scope _ type header body rest s s₁ s₂ s' first _ _ _ _ _ ihHeader ihBody ih =>
    obtain ⟨uses₁, hheader, huses₁⟩ := ihHeader
    obtain ⟨uses₂, hbody, huses₂⟩ := ihBody
    obtain ⟨uses₃, hrest, huses₃⟩ := ih
    have hinHeader : Settles uses₁ s s₁ := (Settles.foldl (header.own type) s.push).trans hheader
    have hinBody : Settles uses₂ s₁ s₂ := (Settles.foldl first s₁).trans hbody
    have hrest : Settles uses₃ s₂ s' := hrest
    refine ⟨uses₁ ++ (uses₂ ++ uses₃), hinHeader.trans (hinBody.trans hrest), ?_⟩
    rw [Outline.referred_scope, List.map_append, List.map_append, huses₁, huses₂, huses₃]

end Semantics.Binding

end ScriptAnalysis

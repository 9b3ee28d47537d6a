import ScriptAnalysis.Proofs.Names.Levels
import ScriptAnalysis.Proofs.Names.Steps

/-!
# What references of one scope find

A reference looks for its name in the scopes around it when binding comes to it. In its own scope it finds
what has been declared by then (`answers_direct`), and what it does not find there it looks for in the scopes
further out, which stay as they are while the scope is walked. So the references of a scope share their
answers (`State.AnswersLevel`), and those of every scope do (`answers_levels`).
-/

namespace ScriptAnalysis

open Names (Placed Referred Outline)
open Scoping (ScopeType)
open Semantics (Declaration)
open Semantics.Binding
open Syntax (Node NodeId Place)

namespace Semantics.Binding

/-! ### What an outline finds -/

/-- What a walk over an outline finds: the names have different numbers, only those that belong to the scopes
around have been entered, and among these all variables of functions. -/
structure State.Ready (s : State) (o : Outline Declaration (Referred Place)) : Prop where
  made : o.WellMade
  nodup : o.ids.Nodup
  new : s.New o.fresh
  hoisted : ∀ d ∈ o.hoisted, s.Knows d

theorem InFront.sublist {isLate : Declaration → Bool} {first own : List Declaration}
    (h : InFront isLate first own) : first.Sublist own := by
  rw [h]
  exact List.filter_sublist

/-- What belongs to a scope is not entered again. -/
theorem own_notMem_fresh {o : Outline Declaration (Referred Place)} (h : o.ids.Nodup) (type : ScopeType)
    {d : Declaration} (hd : d ∈ o.own type) : d.name.id ∉ o.fresh := by
  intro hfresh
  have hnodup := (Outline.perm_ids o).nodup_iff.mp h
  refine (List.nodup_append.mp hnodup).2.2 _ (List.mem_map_of_mem (?_ : d ∈ _)) _ hfresh rfl
  rw [Outline.own] at hd
  rcases List.mem_append.mp hd with hd | hd
  · split at hd
    · exact List.mem_append_right _ hd
    · exact absurd hd List.not_mem_nil
  · exact List.mem_append_left _ hd

theorem read_mem_ids {o : Outline Declaration (Referred Place)} {r : Referred Place} (hr : r ∈ o.reads) :
    r.label.id ∈ o.ids :=
  (Outline.perm_ids_reads o).symm.subset (List.mem_append_right _ (List.mem_map_of_mem hr))

theorem State.Ready.declare {isHoisted : Bool} {d : Declaration} {rest : Outline Declaration (Referred Place)}
    {s : State} (h : s.Ready (.declare isHoisted d rest)) (late : Bool) :
    (if late then s.declareLate d else s).Ready rest := by
  obtain ⟨hd, hids⟩ : d.name.id ∉ rest.ids ∧ rest.ids.Nodup := List.nodup_cons.mp h.nodup
  have hrest : ∀ s₁, Extends [d.name.id] s s₁ → (∀ d, s.Knows d → s₁.Knows d) → s₁.Ready rest := by
    intro s₁ hext hknows
    refine ⟨h.made.2, hids, hext.new h.new fun id hid hmem => hd ?_, fun d' hd' => hknows d' (h.hoisted d' ?_)⟩
    · exact List.mem_singleton.mp hmem ▸ fresh_subset_ids rest hid
    · cases isHoisted with
      | true => exact List.mem_cons_of_mem _ hd'
      | false => exact hd'
  have hsame : s.Ready rest := hrest s (.of_eq rfl) fun _ h => h
  cases late with
  | false => exact hsame
  | true =>
    exact declareLate_cases (P := (·.Ready rest)) hsame (hrest _ (extends_declare s d) fun _ h => h.declare d)

theorem State.Ready.refer {r : Referred Place} {rest : Outline Declaration (Referred Place)} {s : State}
    (h : s.Ready (.refer r rest)) :
    (if r.isInitial then s else s.refer r.isType ⟨r.label, r.name⟩).Ready rest := by
  have hnodup := h.nodup
  have hnew := h.new
  rw [Outline.ids_refer] at hnodup
  rw [Outline.fresh] at hnew
  obtain ⟨-, hids, hapart⟩ := List.nodup_append.mp hnodup
  refine ⟨h.made, hids, ?_, fun d hd => ?_⟩
  · refine (extends_read s r).new (hnew.of_subset (List.subset_append_right _ _)) fun id hid hmem => ?_
    exact hapart _ hmem _ (fresh_subset_ids rest hid) rfl
  · exact refer_cases (P := (·.Knows d)) (h.hoisted d hd) ((h.hoisted d hd).refer _ _)

section Scope

variable {isLate : Declaration → Bool} {type : ScopeType} {s s₁ s₂ : State} {first : List Declaration}
  {header body rest : Outline Declaration (Referred Place)}

/-- The numbers in a scope and behind it are different. -/
theorem State.Ready.nodup_scope (h : s.Ready (.scope type header body rest)) :
    header.ids.Nodup ∧ body.ids.Nodup ∧ rest.ids.Nodup ∧ (∀ id ∈ header.ids, id ∉ body.ids ++ rest.ids) ∧
      ∀ id ∈ header.ids ++ body.ids, id ∉ rest.ids := by
  have hnodup := h.nodup
  rw [Outline.ids_scope] at hnodup
  obtain ⟨hheader, hinner, hapart⟩ := List.nodup_append.mp hnodup
  obtain ⟨hbody, hrest, hapart'⟩ := List.nodup_append.mp hinner
  refine ⟨hheader, hbody, hrest, fun id hid hmem => hapart id hid id hmem rfl, fun id hid hmem => ?_⟩
  rcases List.mem_append.mp hid with hid | hid
  · exact hapart id hid id (List.mem_append_right _ hmem) rfl
  · exact hapart' id hid id hmem rfl

/-- What is not entered when a scope is reached. -/
theorem State.Ready.new_scope (h : s.Ready (.scope type header body rest)) :
    s.New header.fresh ∧ s.New ((body.own type).map (·.name.id)) ∧ s.New body.fresh ∧ s.New rest.fresh := by
  have hnew := h.new
  rw [Outline.fresh] at hnew
  refine ⟨hnew.of_subset ?_, hnew.of_subset ?_, hnew.of_subset ?_, hnew.of_subset ?_⟩ <;>
    intro id hid <;> simp only [List.mem_append] <;> tauto

theorem State.Ready.inHeader (h : s.Ready (.scope type header body rest)) (hheader : header.hoisted = []) :
    ((header.own type).foldl State.declare s.push).Ready header := by
  have hids := h.nodup_scope.1
  refine ⟨h.made.2.1, hids, ?_, by simp [hheader]⟩
  refine (extends_foldl (header.own type) s.push).new h.new_scope.1 fun id hid hmem => ?_
  obtain ⟨d, hd, rfl⟩ := List.mem_map.mp hmem
  exact own_notMem_fresh hids type hd hid

theorem State.Ready.inBody (hvar : ∀ d : Declaration, d.kind = .functionVariable → isLate d = false)
    (h : s.Ready (.scope type header body rest)) (hfirst : InFront isLate first (body.own type))
    (inHeader : header.Walks List.Sublist false ((header.own type).foldl State.declare s.push) s₁) :
    (first.foldl State.declare s₁).Ready body := by
  obtain ⟨-, hids, -, hapart, -⟩ := h.nodup_scope
  refine ⟨h.made.2.2.1, hids, ?_, fun d hd => ?_⟩
  · have hnew : s₁.New body.fresh := (extends_header inHeader.extends).new h.new_scope.2.2.1 fun id hid hmem =>
      hapart id hmem (List.mem_append_left _ (fresh_subset_ids body hid))
    refine (extends_foldl first s₁).new hnew fun id hid hmem => ?_
    obtain ⟨d, hd, rfl⟩ := List.mem_map.mp hmem
    exact own_notMem_fresh hids type (hfirst.sublist.subset hd) hid
  · cases htype : type.isVariableScope with
    | true =>
      refine knows_foldl_of_mem ?_ ?_
      · rw [inHeader.frames_eq rfl]
        exact frames_ne_foldl _ (List.cons_ne_nil _ _)
      · rw [hfirst, Outline.own, if_pos htype]
        refine List.mem_filter.mpr ⟨List.mem_append_left _ hd, ?_⟩
        rw [hvar d (h.made.2.2.1.kind_of_mem_hoisted hd)]
        rfl
    | false =>
      have hknows : s.push.Knows d := by
        refine h.hoisted d ?_
        rw [Outline.hoisted, htype]
        exact List.mem_append_left _ (List.mem_append_right _ hd)
      exact (inHeader.knows (hknows.foldl _)).foldl _

theorem State.Ready.behind (h : s.Ready (.scope type header body rest)) (hfirst : first.Sublist (body.own type))
    (inHeader : header.Walks List.Sublist false ((header.own type).foldl State.declare s.push) s₁)
    (inBody : body.Walks List.Sublist true (first.foldl State.declare s₁) s₂) : s₂.pop.Ready rest := by
  obtain ⟨-, -, hids, -, hapart⟩ := h.nodup_scope
  refine ⟨h.made.2.2.2, hids, ?_, fun d hd => ?_⟩
  · refine (extends_scope hfirst inHeader.extends inBody.extends).new h.new_scope.2.2.2 ?_
    exact fun id hid hmem => hapart id hmem (fresh_subset_ids rest hid)
  · have hknows : s.push.Knows d := h.hoisted d (List.mem_append_right _ hd)
    exact inBody.knows ((inHeader.knows (hknows.foldl _)).foldl _)

end Scope

/-! ### What references find -/

/-- What a reference finds in the open scopes. -/
def State.answer? (s : State) (r : Referred Place) : Option Nat :=
  if r.name = "" then none else s.frames.findSome? (·.lookup? r.isType r.name)

/-- A reference has found what its scope has declared, in the innermost scope, and everything else in the
scopes around it. -/
structure State.Answers (s : State) (frame : Frame) (around : List Frame) (x : Placed) : Prop where
  own : x.reference.name ≠ "" → x.isOwn = true → ∃ index,
    frame.lookup? x.reference.isType x.reference.name = some index ∧ s.binding.resolved.lookup x.id = some index
  around : x.reference.name ≠ "" → x.isOwn = false → s.binding.resolved.lookup x.id =
    around.findSome? (·.lookup? x.reference.isType x.reference.name)
  missing : x.reference.name = "" → s.binding.resolved.lookup x.id = none

section

variable {s s' : State} {base : Nat} {frame frame' : Frame} {around : List Frame} {ds : List Declaration}
  {x : Placed} {r : Referred Place}

theorem isOwn_iff : x.isOwn = true ↔
    ∃ d ∈ x.declared, d.name.text = x.reference.name ∧ d.kind.isType = x.reference.isType := by
  rw [Placed.isOwn, List.any_eq_true]
  exact exists_congr fun d => and_congr_right fun _ => Names.Declared.answers_iff

theorem State.Answers.includes (h : s.Answers frame around x) (hframe : frame'.Includes frame) :
    s.Answers frame' around x where
  own hname hown := by
    obtain ⟨index, hindex, hresolved⟩ := h.own hname hown
    exact ⟨index, hframe _ _ _ hindex, hresolved⟩
  around := h.around
  missing := h.missing

theorem State.Answers.extends (h : s.Answers frame around x) {ids : List NodeId} (hext : Extends ids s s')
    (hx : x.id ∉ ids) : s'.Answers frame around x := by
  have hresolved := hext.resolved _ hx
  constructor <;> rw [hresolved]
  · exact h.own
  · exact h.around
  · exact h.missing

theorem lookup_resolved_refer (hnew : s.binding.resolved.lookup r.label.id = none) :
    (s.refer r.isType ⟨r.label, r.name⟩).binding.resolved.lookup r.label.id = s.answer? r := by
  rw [State.refer, State.answer?]
  split
  · exact hnew
  · dsimp only
    split
    · rename_i index hindex
      rw [hindex]
      exact List.lookup_cons_self
    · rename_i hindex
      rw [hindex]
      split <;> exact hnew

/-- A reference finds what its scope has declared by then, or else what the scopes around hold. -/
theorem State.Stands.answers (h : s.Stands base frame around ds)
    (hr : s'.binding.resolved.lookup r.label.id = s.answer? r) : s'.Answers frame around ⟨r, ds⟩ := by
  have hiff : r.name ≠ "" → ((frame.lookup? r.isType r.name).isSome ↔ (⟨r, ds⟩ : Placed).isOwn = true) :=
    fun hname => (h.holds _ _ hname).trans (isOwn_iff (x := ⟨r, ds⟩)).symm
  refine ⟨fun hname hown => ?_, fun hname hown => ?_, fun hname => ?_⟩ <;>
    rw [Placed.id, hr, State.answer?]
  · obtain ⟨index, hindex⟩ := Option.isSome_iff_exists.mp ((hiff hname).mpr hown)
    refine ⟨index, hindex, ?_⟩
    rw [if_neg hname, h.frames, List.findSome?_cons, hindex]
  · have hnone : frame.lookup? r.isType r.name = none := by
      rw [← Option.not_isSome_iff_eq_none, hiff hname, hown]
      exact Bool.false_ne_true
    rw [if_neg hname, h.frames, List.findSome?_cons, hnone]
  · rw [if_pos hname]

/-- Where there are references only, all of them look into the same scopes. -/
theorem lookup_resolved_of_refersOnly {late : Bool} {o : Outline Declaration (Referred Place)}
    (h : o.Walks List.Sublist late s s') (ho : o.RefersOnly) (hready : s.Ready o) :
    ∀ r ∈ o.reads, s'.binding.resolved.lookup r.label.id = s.answer? r := by
  induction h with
  | done => exact fun r hr => absurd hr List.not_mem_nil
  | declare => exact ho.elim
  | scope => exact ho.elim
  | @refer late r rest s s' inRest ih =>
    intro r' hr'
    have hids := hready.nodup
    have hnew := hready.new
    have hready := hready.refer
    rw [Outline.reads_refer] at hr'
    rw [Outline.ids_refer] at hids
    rw [Outline.fresh] at hnew
    cases hinitial : r.isInitial with
    | true =>
      simp only [hinitial, if_true] at hr' ih hready
      exact ih ho hready r' hr'
    | false =>
      simp only [hinitial, Bool.false_eq_true, if_false] at hr' ih hids hnew inRest hready
      rcases List.mem_append.mp hr' with hr' | hr'
      · obtain rfl := List.mem_singleton.mp hr'
        rw [inRest.extends.resolved _ (List.nodup_cons.mp hids).1]
        exact lookup_resolved_refer (hnew _ List.mem_cons_self).2
      · rw [ih ho hready r' hr', State.answer?, State.answer?, (extends_refer s _ _).2]

end

/-- The references of a scope have found what they name: in their own scope or around it, and never under
one number in both. -/
def State.AnswersLevel (s : State) (level : List Placed) : Prop :=
  ∃ frame around, (∀ isType name index, frame.lookup? isType name = some index →
      around.findSome? (·.lookup? isType name) ≠ some index) ∧
    ∀ x ∈ level, s.Answers frame around x

section

variable {isLate : Declaration → Bool} {late : Bool} {o : Outline Declaration (Referred Place)} {s s' : State}
  {base : Nat} {frame : Frame} {around : List Frame} {ds : List Declaration}

theorem State.AnswersLevel.extends {level : List Placed} (h : s.AnswersLevel level) {ids : List NodeId}
    (hext : Extends ids s s') (hids : ∀ x ∈ level, x.id ∉ ids) : s'.AnswersLevel level := by
  obtain ⟨frame, around, hapart, hanswers⟩ := h
  exact ⟨frame, around, hapart, fun x hx => (hanswers x hx).extends hext (hids x hx)⟩

theorem any_walks (h : o.Walks (InFront isLate) late s s') : o.Walks List.Sublist late s s' :=
  h.mono fun _ _ => InFront.sublist

/-- References of a type alias stand in the scope around it. -/
theorem direct_of_refersOnly (ho : o.RefersOnly) {x : Placed} (hx : x ∈ o.direct ds) :
    x = ⟨x.reference, ds⟩ := by
  induction o with
  | done => exact absurd hx List.not_mem_nil
  | declare => exact ho.elim
  | scope => exact ho.elim
  | refer r rest ih =>
    rcases List.mem_append.mp hx with hx | hx
    · split at hx
      · exact absurd hx List.not_mem_nil
      · rw [List.mem_singleton.mp hx]
    · exact ih ho hx

/-- A type refers to names and nothing else, so its own scope stays empty and its names are looked up in the
scope around it. -/
theorem answers_alias {body rest : Outline Declaration (Referred Place)} {s₁ s₂ : State}
    {first : List Declaration} (hvar : ∀ d : Declaration, d.kind = .functionVariable → isLate d = false)
    (hready : s.Ready (.scope .typeAlias .done body rest)) (hstands : s.Stands base frame around ds)
    (hfirst : InFront isLate first (body.own .typeAlias))
    (inHeader : Outline.done.Walks List.Sublist false s.push s₁)
    (inBody : body.Walks List.Sublist true (first.foldl State.declare s₁) s₂) {x : Placed}
    (hx : x ∈ body.direct ds) : s₂.pop.Answers frame around x := by
  have hrefers := (hready.made.1 rfl).2
  have hbody := hready.inBody hvar hfirst inHeader
  obtain rfl : first = [] := by
    rw [hfirst, Outline.own, hrefers.silent.1]
    rfl
  have hframes : s₁.frames = s.push.frames := inHeader.frames_eq rfl
  have hlookup := lookup_resolved_of_refersOnly inBody hrefers hbody x.reference
    (Outline.reference_mem_reads_of_mem_direct hx)
  have hanswer : s₁.answer? x.reference = s.answer? x.reference := by
    rw [State.answer?, State.answer?, hframes, Node.findSome?_push]
  rw [direct_of_refersOnly hrefers hx]
  exact hstands.answers (hlookup.trans hanswer)

/-- **The references that stand in a scope** find what it has declared when binding comes to them. -/
theorem answers_direct (hvar : ∀ d : Declaration, d.kind = .functionVariable → isLate d = false)
    (h : o.Walks (InFront isLate) late s s') (hlate : late = true) (hready : s.Ready o)
    (hstands : s.Stands base frame around ds)
    (hknown : ∀ d ∈ o.declared, s.isDeclared d.name = true → d ∈ ds) :
    ∃ frame', s'.frames = frame' :: around ∧ frame'.Includes frame ∧
      (∀ isType name index, frame'.lookup? isType name = some index → base ≤ index) ∧
      ∀ x ∈ o.direct ds, s'.Answers frame' around x := by
  induction h generalizing frame ds with
  | done =>
    exact ⟨frame, hstands.frames, fun _ _ _ h => h, hstands.le_index, fun x hx => absurd hx List.not_mem_nil⟩
  | @declare late isHoisted d rest s s' _ ih =>
    subst hlate
    have hd : d.name.id ∉ rest.ids := (List.nodup_cons.mp hready.nodup).1
    have hrest := hready.declare true
    rw [if_pos rfl] at ih hrest
    cases isHoisted with
    | true =>
      rw [declareLate_of_knows (hready.hoisted d List.mem_cons_self)] at ih hrest
      exact ih rfl hrest hstands hknown
    | false =>
      obtain ⟨frame₁, hstands₁, hincludes⟩ := hstands.declareLate (hknown d List.mem_cons_self)
      have hext : Extends [d.name.id] s (s.declareLate d) :=
        declareLate_cases (P := Extends _ s) (.of_eq rfl) (extends_declare s d)
      obtain ⟨frame', hframes, hincludes', hle, hanswers⟩ := ih rfl hrest hstands₁ fun d' hd' h => by
        refine List.mem_append_left _ (hknown d' (List.mem_cons_of_mem _ hd') ?_)
        have hne : d'.name.id ∉ [d.name.id] := fun hmem =>
          hd (List.mem_singleton.mp hmem ▸ id_mem_ids (Outline.mem_declarations_of_mem_declared hd'))
        rwa [State.isDeclared, hext.declared _ hne] at h
      exact ⟨frame', hframes, fun _ _ _ h => hincludes' _ _ _ (hincludes _ _ _ h), hle, hanswers⟩
  | @refer late r rest s s' inRest ih =>
    have hids := hready.nodup
    have hnew := hready.new
    have hrest := hready.refer
    rw [Outline.ids_refer] at hids
    rw [Outline.fresh] at hnew
    rw [Outline.direct]
    cases hinitial : r.isInitial with
    | true =>
      simp only [hinitial, if_true] at ih hrest
      exact ih hlate hrest hstands hknown
    | false =>
      simp only [hinitial, Bool.false_eq_true, if_false] at ih hids hnew inRest hrest
      obtain ⟨frame', hframes', hincludes, hle, hanswers⟩ := ih hlate hrest
        (hstands.of_frames (extends_refer s _ _).2 (Nat.le_of_eq (congrArg Array.size (symbols_refer s _ _).symm)))
        fun d hd h => hknown d hd (by rwa [isDeclared_iff, keys_refer, ← isDeclared_iff] at h)
      refine ⟨frame', hframes', hincludes, hle, fun x hx => ?_⟩
      rcases List.mem_cons.mp hx with rfl | hx
      · have hr := hstands.answers (lookup_resolved_refer (hnew _ List.mem_cons_self).2)
        exact (hr.extends (any_walks inRest).extends (List.nodup_cons.mp hids).1).includes hincludes
      · exact hanswers x hx
  | @scope late type header body rest s s₁ s₂ s' first hheader hfirst inHeader inBody inRest _ _ ih =>
    have inScope : (Outline.scope type header body .done).Walks List.Sublist late s s₂.pop :=
      any_walks (.scope hheader hfirst inHeader inBody .done)
    have inHeader := any_walks inHeader
    have inBody := any_walks inBody
    have hext := extends_scope hfirst.sublist inHeader.extends inBody.extends
    obtain ⟨-, -, -, -, hapart⟩ := hready.nodup_scope
    obtain ⟨frame', hframes', hincludes, hle, hanswers⟩ := ih hlate
      (hready.behind hfirst.sublist inHeader inBody)
      (hstands.of_frames (Outline.frames_pop inHeader inBody) inScope.size_le) fun d hd h => by
        refine hknown d hd ?_
        have hne : d.name.id ∉ header.ids ++ body.ids := fun hmem =>
          hapart _ hmem (id_mem_ids (Outline.mem_declarations_of_mem_declared hd))
        rwa [State.isDeclared, hext.declared _ hne] at h
    refine ⟨frame', hframes', hincludes, hle, fun x hx => ?_⟩
    rw [Outline.direct] at hx
    rcases List.mem_append.mp hx with hinner | hbehind
    · split at hinner
      · rename_i halias
        subst halias
        obtain rfl := (hready.made.1 rfl).1
        have hid : x.id ∉ rest.ids :=
          hapart _ (List.mem_append_right _ (read_mem_ids (Outline.reference_mem_reads_of_mem_direct hinner)))
        have hanswer := answers_alias hvar hready hstands hfirst inHeader inBody hinner
        exact (hanswer.extends (any_walks inRest).extends hid).includes hincludes
      · exact absurd hinner List.not_mem_nil
    · exact hanswers x hbehind

/-- In front of a body, of the names that belong to its scope those are known that are declared in front. -/
theorem mem_first_of_isDeclared {type : ScopeType} {header body rest : Outline Declaration (Referred Place)}
    {s₁ : State} {first : List Declaration} (hready : s.Ready (.scope type header body rest))
    (hfirst : first.Sublist (body.own type))
    (inHeader : header.Walks List.Sublist false ((header.own type).foldl State.declare s.push) s₁)
    {d : Declaration} (hd : d ∈ body.own type)
    (hdeclared : (first.foldl State.declare s₁).isDeclared d.name = true) : d ∈ first := by
  obtain ⟨-, hids, -, hapart, -⟩ := hready.nodup_scope
  by_contra hnot
  have hne : d.name.id ∉ first.map (·.name.id) := by
    intro hmem
    obtain ⟨d', hd', hid⟩ := List.mem_map.mp hmem
    have hnodup := (List.nodup_append.mp ((Outline.perm_ids_reads body).nodup_iff.mp hids)).1
    have hsub := body.own_subset_declarations type
    exact hnot (List.inj_on_of_nodup_map hnodup (hsub (hfirst.subset hd')) (hsub hd) hid ▸ hd')
  have hid : d.name.id ∈ (body.own type).map (·.name.id) := List.mem_map_of_mem hd
  have hheader : d.name.id ∉ header.ids := fun hmem =>
    hapart _ hmem (List.mem_append_left _ (Outline.own_subset_ids body type hid))
  rw [State.isDeclared, (extends_foldl first s₁).declared _ hne, (extends_header inHeader.extends).declared _ hheader,
    (hready.new_scope.2.1 _ hid).1] at hdeclared
  exact Bool.false_ne_true hdeclared

/-- The references of one scope find what it has declared when binding comes to them. -/
theorem answersLevel_scope (hvar : ∀ d : Declaration, d.kind = .functionVariable → isLate d = false)
    {type : ScopeType} {header body rest : Outline Declaration (Referred Place)} {s₁ s₂ : State}
    {first : List Declaration} (hready : s.Ready (.scope type header body rest)) (hrange : s.InRange)
    (hfirst : InFront isLate first (body.own type))
    (inHeader : header.Walks List.Sublist false ((header.own type).foldl State.declare s.push) s₁)
    (inBody : body.Walks (InFront isLate) true (first.foldl State.declare s₁) s₂) :
    s₂.AnswersLevel (body.direct (header.own type ++ (body.own type).filter (!isLate ·))) := by
  obtain ⟨frame₁, hheader⟩ := (stands_push s).foldl (header.own type)
  obtain ⟨frame₂, hstands⟩ := (hheader.of_frames (inHeader.frames_eq rfl) inHeader.size_le).foldl first
  rw [List.nil_append] at hstands
  obtain ⟨frame, -, -, hle, hanswers⟩ := answers_direct hvar inBody rfl (hready.inBody hvar hfirst inHeader)
    hstands fun d hd hdeclared => List.mem_append_right _ (mem_first_of_isDeclared hready hfirst.sublist
      inHeader (List.mem_append_right _ hd) hdeclared)
  refine ⟨frame, s.frames, fun isType name index hindex haround => ?_, hfirst ▸ hanswers⟩
  -- the scope has got numbers that the scopes around could not have
  obtain ⟨frame', hframe', hindex'⟩ := List.exists_of_findSome?_eq_some haround
  exact Nat.not_lt.mpr (hle isType name index hindex) (hrange frame' hframe' isType name index hindex')

/-- **The references of every scope** find what it has declared when binding comes to them, or else what the
scopes around it hold. -/
theorem answers_levels (hvar : ∀ d : Declaration, d.kind = .functionVariable → isLate d = false)
    (h : o.Walks (InFront isLate) late s s') (hready : s.Ready o) (hrange : s.InRange) :
    ∀ level ∈ o.levels isLate, s'.AnswersLevel level := by
  induction h with
  | done => exact fun level hlevel => absurd hlevel List.not_mem_nil
  | @declare late isHoisted d rest s s' _ ih =>
    refine ih (hready.declare late) ?_
    cases late with
    | false => exact hrange
    | true => exact declareLate_cases (P := State.InRange) hrange (hrange.declare d)
  | @refer late r rest s s' inRest ih =>
    exact ih hready.refer (refer_cases (P := State.InRange) hrange (hrange.refer _ _))
  | @scope late type header body rest s s₁ s₂ s' first hheader hfirst inHeader inBody inRest ihHeader ihBody ih =>
    have hwalks := inBody
    have inHeader := any_walks inHeader
    have inBody := any_walks inBody
    have hext : Extends rest.ids s₂ s' := (any_walks inRest).extends.of_pop
    obtain ⟨-, -, -, hapart, hbehind⟩ := hready.nodup_scope
    have hbody := hready.inBody hvar hfirst inHeader
    have hrange₀ := hrange.push.foldl (header.own type)
    have hrange₁ := inHeader.inRange hrange₀
    have hrange₂ := inBody.inRange (hrange₁.foldl first)
    intro level hlevel
    rw [Outline.levels] at hlevel
    rcases List.mem_append.mp hlevel with hlevel | hlevel
    · have hrest := (extends_body hfirst.sublist inBody.extends).trans hext
      exact (ihHeader (hready.inHeader hheader) hrange₀ level hlevel).extends hrest fun x hx =>
        hapart _ (read_mem_ids (Outline.reference_mem_reads_of_mem_levels hlevel hx))
    rcases List.mem_append.mp hlevel with hlevel | hlevel
    · split at hlevel
      · exact absurd hlevel List.not_mem_nil
      obtain rfl := List.mem_singleton.mp hlevel
      exact (answersLevel_scope hvar hready hrange hfirst inHeader hwalks).extends hext fun x hx =>
        hbehind _ (List.mem_append_right _ (read_mem_ids (Outline.reference_mem_reads_of_mem_direct hx)))
    rcases List.mem_append.mp hlevel with hlevel | hlevel
    · exact (ihBody hbody (hrange₁.foldl first) level hlevel).extends hext fun x hx =>
        hbehind _ (List.mem_append_right _ (read_mem_ids (Outline.reference_mem_reads_of_mem_levels hlevel hx)))
    · exact ih (hready.behind hfirst.sublist inHeader inBody) hrange₂.pop level hlevel

end

end Semantics.Binding

end ScriptAnalysis

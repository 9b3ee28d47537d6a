import ScriptAnalysis.Proofs.Names.Distinct
import ScriptAnalysis.Proofs.Names.Frames
import ScriptAnalysis.Proofs.Names.Walk

/-!
# What binding answers

Binding settles every reference that is in no header: it refers to what the innermost scope around it
declares that declares its name (`answers_ofTree`). The numbers that a part of the outline enters are the
ones of its references and of the names that its scopes declare (`Outline.fresh`); what the scopes around
declare has been entered before.
-/

namespace ScriptAnalysis

open Names (Declared Referred Outline meaning?)
open Semantics (Declaration)
open Semantics.Binding
open Syntax (Node NodeId Place Tree)

/-! ### The numbers that are entered -/

/-- The numbers that binding an outline enters when the names that belong to the scopes around have been
entered before. -/
def Names.Outline.fresh : Outline Declaration (Referred Place) → List NodeId
  | done => []
  | declare _ _ rest => rest.fresh
  | refer r rest => (if r.isInitial then [] else [r.label.id]) ++ rest.fresh
  | scope type header body rest =>
    (header.own type).map (·.name.id) ++
      (header.fresh ++ ((body.own type).map (·.name.id) ++ (body.fresh ++ rest.fresh)))

/-- All numbers are those that belong to the scopes around and those that are entered. -/
theorem Names.Outline.perm_ids (o : Outline Declaration (Referred Place)) :
    o.ids.Perm ((o.declared ++ o.hoisted).map (·.name.id) ++ o.fresh) := by
  rw [List.perm_iff_count]
  intro id
  induction o with
  | done => rfl
  | declare isHoisted d rest ih =>
    have hids : (declare isHoisted d rest).ids = d.name.id :: rest.ids := rfl
    rw [hids, List.count_cons, ih]
    cases isHoisted <;>
      simp only [declared, hoisted, fresh, List.map_append, List.map_cons, List.count_append,
        List.count_cons, if_true, Bool.false_eq_true, if_false] <;>
      omega
  | refer r rest ih =>
    rw [ids_refer, List.count_append, ih]
    simp only [declared, hoisted, fresh, List.count_append]
    omega
  | scope type header body rest ihHeader ihBody ih =>
    rw [ids_scope, List.count_append, List.count_append, ihHeader, ihBody, ih]
    cases htype : type.isVariableScope <;>
      simp only [declared, hoisted, own, fresh, htype, List.map_append, List.count_append, if_true,
        Bool.false_eq_true, if_false, List.nil_append] <;>
      omega

/-- A reference among the occurrences enters its number. -/
theorem Names.Outline.mem_fresh_of_mem_occurrences {o : Outline Declaration (Referred Place)}
    {scopes : List (List Declaration)} {x : Referred Place × List (List Declaration)}
    (hx : x ∈ o.occurrences scopes) (hinitial : x.1.isInitial = false) : x.1.label.id ∈ o.fresh := by
  induction o generalizing scopes with
  | done => exact absurd hx List.not_mem_nil
  | declare isHoisted d rest ih => exact ih hx
  | refer r rest ih =>
    rcases List.mem_cons.mp hx with rfl | hx
    · rw [fresh, hinitial]
      exact List.mem_append_left _ List.mem_cons_self
    · exact List.mem_append_right _ (ih hx)
  | scope type header body rest _ ihBody ih =>
    simp only [fresh, List.mem_append]
    rcases List.mem_append.mp hx with hx | hx
    · exact .inr (.inr (.inr (.inl (ihBody hx))))
    · exact .inr (.inr (.inr (.inr (ih hx))))

/-! ### The walk -/

namespace Semantics.Binding

/-- The name has been declared, if there is one. -/
def State.Knows (s : State) (d : Declaration) : Prop := d.name.text = "" ∨ s.isDeclared d.name = true

theorem State.Knows.mono {s s' : State} {d : Declaration} (h : s.Knows d) {ids : List NodeId}
    (hext : Extends ids s s') (hnew : s.New ids) : s'.Knows d := by
  refine h.imp_right fun hdeclared => ?_
  obtain ⟨index, hindex⟩ := Option.isSome_iff_exists.mp hdeclared
  rw [State.isDeclared, hext.lookup_declared hnew hindex]
  rfl

/-- What the innermost scope holds has been declared. -/
theorem State.Represents.knows {s : State} {ds : List Declaration} {scopes : List (List Declaration)}
    (h : s.Represents (ds :: scopes)) {d : Declaration} (hd : d ∈ ds) : s.Knows d := by
  obtain ⟨frame, frames, hframe, -, -⟩ := List.forall₂_cons_right_iff.mp h
  by_cases hname : d.name.text = ""
  · exact .inl hname
  · obtain ⟨index, -, hindex⟩ := hframe.index d hd hname
    refine .inr ?_
    rw [State.isDeclared, hindex]
    rfl

/-- Where variables declared with `var` belong to a scope around, that scope has been entered. -/
theorem State.Represents.knows_hoisted {s : State} {ds : List Declaration}
    {scopes : List (List Declaration)} (h : s.Represents (ds :: scopes)) {type : Scoping.ScopeType}
    {o : Outline Declaration (Referred Place)} (hown : o.own type ⊆ ds)
    (houter : type.isVariableScope = false → ∀ d ∈ o.hoisted, s.Knows d) :
    ∀ d ∈ o.hoisted, s.Knows d := by
  intro d hd
  cases htype : type.isVariableScope with
  | true =>
    refine h.knows (hown ?_)
    rw [Outline.own, htype]
    exact List.mem_append_left _ hd
  | false => exact houter htype d hd

theorem declareLate_of_knows {s : State} {d : Declaration} (h : s.Knows d) : s.declareLate d = s := by
  rw [State.declareLate]
  split
  · rfl
  · rename_i hdeclared
    exact declare_of_missing (h.resolve_right hdeclared)

/-- What is declared can be told apart from what is entered later. -/
theorem Extends.rest {s s' : State} {ids ids' : List NodeId} (h : Extends ids s s')
    (hnew : s.New (ids ++ ids')) (hnodup : (ids ++ ids').Nodup) : s'.New ids' ∧ ids'.Nodup := by
  obtain ⟨-, hnodup', hdisjoint⟩ := List.nodup_append.mp hnodup
  exact ⟨h.new (hnew.of_subset (List.subset_append_right _ _))
    fun id hid hid' => hdisjoint id hid' id hid rfl, hnodup'⟩

/-- What is declared in a scope is added to what the scope holds, and the scopes around it stay. -/
theorem enter {s : State} {ds new : List Declaration} {scopes : List (List Declaration)}
    {ids : List NodeId} (h : s.Represents (ds :: scopes))
    (hnodup : (new.map (·.name.id) ++ ids).Nodup) (hnew : s.New (new.map (·.name.id) ++ ids)) :
    (new.foldl State.declare s).Represents ((ds ++ new) :: scopes) ∧
      Extends (new.map (·.name.id)) s (new.foldl State.declare s) ∧
      (new.foldl State.declare s).frames.tail = s.frames.tail ∧
      (new.foldl State.declare s).New ids ∧ ids.Nodup := by
  have hfirst := hnew.of_subset (List.subset_append_left _ _)
  exact ⟨foldl_declare h (List.nodup_append.mp hnodup).1 hfirst, extends_foldl new s, tail_frames_foldl new s,
    (extends_foldl new s).rest hnew hnodup⟩

/-- A scope that is opened holds nothing. -/
theorem State.Represents.push {s : State} {scopes : List (List Declaration)} (h : s.Represents scopes) :
    s.push.Represents ([] :: scopes) :=
  .cons (Frame.represents_empty _) h

/-- What binding an outline does inside these scopes: it leaves the open scopes, enters what is fresh and
settles the references. -/
structure Binds (o : Outline Declaration (Referred Place)) (scopes : List (List Declaration))
    (s s' : State) : Prop where
  frames : s'.frames = s.frames
  entered : Extends o.fresh s s'
  settled : ∀ x ∈ o.occurrences scopes, x.1.isInitial = false → x.1.name ≠ "" → Settled s' x.1 x.2

/-- **Binding an outline settles its references** when the names that belong to the scopes around have
been declared. -/
theorem binds_bound (o : Outline Declaration (Referred Place)) :
    ∀ {late : Bool} {s : State} {scopes : List (List Declaration)}, s.Represents scopes →
      o.fresh.Nodup → s.New o.fresh → (∀ d ∈ o.hoisted, s.Knows d) →
      (late = true → ∀ d ∈ o.declared, s.Knows d) → Binds o scopes s (o.bound late s) := by
  induction o with
  | done =>
    intro late s scopes _ _ _ _ _
    exact ⟨rfl, .of_eq rfl, fun x hx => absurd hx List.not_mem_nil⟩
  | declare isHoisted d rest ih =>
    intro late s scopes hrep hnodup hnew hhoisted hdeclared
    have hknown : late = true → s.Knows d := by
      intro hlate
      cases isHoisted with
      | true => exact hhoisted d List.mem_cons_self
      | false => exact hdeclared hlate d List.mem_cons_self
    have hstate : (if late then s.declareLate d else s) = s := by
      cases late with
      | true => exact declareLate_of_knows (hknown rfl)
      | false => rfl
    rw [Outline.bound, hstate]
    suffices hrest : Binds rest scopes s (rest.bound late s) from
      ⟨hrest.frames, hrest.entered, hrest.settled⟩
    refine ih hrep hnodup hnew (fun d' hd' => hhoisted d' ?_) fun hlate d' hd' => hdeclared hlate d' ?_
    · cases isHoisted
      · exact hd'
      · exact List.mem_cons_of_mem _ hd'
    · cases isHoisted
      · exact List.mem_cons_of_mem _ hd'
      · exact hd'
  | refer r rest ih =>
    intro late s scopes hrep hnodup hnew hhoisted hdeclared
    rw [Outline.fresh] at hnodup hnew
    rw [Outline.bound]
    cases hinitial : r.isInitial with
    | true =>
      rw [hinitial, if_pos rfl, List.nil_append] at hnodup hnew
      have hrest := ih hrep hnodup hnew hhoisted hdeclared
      refine ⟨hrest.frames, ?_, fun x hx => ?_⟩
      · rw [Outline.fresh, hinitial]
        exact hrest.entered
      · rcases List.mem_cons.mp hx with rfl | hx
        · exact fun hinitial' => absurd (hinitial.symm.trans hinitial') (by decide)
        · exact hrest.settled x hx
    | false =>
      rw [hinitial, if_neg Bool.false_ne_true] at hnodup hnew
      rw [if_neg Bool.false_ne_true]
      obtain ⟨hext, hframes⟩ := extends_refer s r.isType ⟨r.label, r.name⟩
      have hfirst : s.New [r.label.id] := hnew.of_subset (List.subset_append_left _ _)
      obtain ⟨hnew', hnodup'⟩ := hext.rest hnew hnodup
      have hrest := ih (hrep.mono hframes hext hfirst) hnodup' hnew'
        (fun d hd => (hhoisted d hd).mono hext hfirst)
        fun hlate d hd => (hdeclared hlate d hd).mono hext hfirst
      refine ⟨hrest.frames.trans hframes, ?_, fun x hx hx' hname => ?_⟩
      · rw [Outline.fresh, hinitial]
        exact hext.trans hrest.entered
      · rcases List.mem_cons.mp hx with rfl | hx
        · refine (settled_refer hrep hfirst hname).mono hrest.entered hnew' ?_
          exact fun hmem => (List.nodup_append.mp hnodup).2.2 _ List.mem_cons_self _ hmem rfl
        · exact hrest.settled x hx hx' hname
  | scope type header body rest ihHeader ihBody ih =>
    intro late s scopes hrep hnodup hnew hhoisted hdeclared
    rw [Outline.fresh] at hnodup hnew
    rw [Outline.bound]
    have houter : type.isVariableScope = false →
        ∀ d ∈ header.hoisted ++ body.hoisted, s.push.Knows d := by
      intro htype d hd
      refine hhoisted d ?_
      rw [Outline.hoisted, htype]
      exact List.mem_append_left _ hd
    -- the names of the header are declared, and the header is bound
    obtain ⟨hrep₁, hext₁, htail₁, hnew₁, hnodup₁⟩ := enter hrep.push hnodup (hnew : s.push.New _)
    have hfirst₁ : s.push.New _ := hnew.of_subset (List.subset_append_left _ _)
    generalize (header.own type).foldl State.declare s.push = s₁ at *
    have houter₁ := fun htype d hd => (houter htype d hd).mono hext₁ hfirst₁
    have hheader : Binds header ((header.own type) :: scopes) s₁ (header.bound false s₁) := by
      refine ihHeader hrep₁ (List.nodup_append.mp hnodup₁).1
        (hnew₁.of_subset (List.subset_append_left _ _)) ?_ fun hlate => absurd hlate Bool.false_ne_true
      exact hrep₁.knows_hoisted (List.Subset.refl _)
        fun htype d hd => houter₁ htype d (List.mem_append_left _ hd)
    have hfirst₂ : s₁.New header.fresh := hnew₁.of_subset (List.subset_append_left _ _)
    obtain ⟨hnew₂, hnodup₂⟩ := hheader.entered.rest hnew₁ hnodup₁
    have hrep₂ := hrep₁.mono hheader.frames hheader.entered hfirst₂
    generalize header.bound false s₁ = s₂ at *
    have houter₂ := fun htype d hd => (houter₁ htype d hd).mono hheader.entered hfirst₂
    -- the names of the body are declared, and the body is bound
    obtain ⟨hrep₃, hext₃, htail₃, hnew₃, hnodup₃⟩ := enter hrep₂ hnodup₂ hnew₂
    have hfirst₃ : s₂.New _ := hnew₂.of_subset (List.subset_append_left _ _)
    generalize (body.own type).foldl State.declare s₂ = s₃ at *
    have houter₃ := fun htype d hd => (houter₂ htype d hd).mono hext₃ hfirst₃
    have hbody : Binds body ((header.own type ++ body.own type) :: scopes) s₃ (body.bound true s₃) := by
      refine ihBody hrep₃ (List.nodup_append.mp hnodup₃).1
        (hnew₃.of_subset (List.subset_append_left _ _)) ?_ fun _ d hd => ?_
      · exact hrep₃.knows_hoisted (List.subset_append_right _ _)
          fun htype d hd => houter₃ htype d (List.mem_append_right _ hd)
      · exact hrep₃.knows (List.mem_append_right _ (List.mem_append_right _ hd))
    have hfirst₄ : s₃.New body.fresh := hnew₃.of_subset (List.subset_append_left _ _)
    obtain ⟨hnew₄, hnodup₄⟩ := hbody.entered.rest hnew₃ hnodup₃
    have hframes : (body.bound true s₃).pop.frames = s.frames := by
      rw [State.pop, hbody.frames, htail₃, hheader.frames, htail₁]
      rfl
    generalize body.bound true s₃ = s₄ at *
    -- what has been entered stays when the scope is closed, and what follows is bound
    have hscope := ((hext₁.trans hheader.entered).trans hext₃).trans hbody.entered
    simp only [List.append_assoc] at hscope
    have hclosed : Extends _ s s₄.pop := ⟨hscope.declared, hscope.resolved, hscope.symbols⟩
    simp only [← List.append_assoc] at hnew hclosed
    have hfirst := hnew.of_subset (List.subset_append_left _ _)
    have hrest : Binds rest scopes s₄.pop (rest.bound late s₄.pop) :=
      ih (hrep.mono hframes hclosed hfirst) hnodup₄ hnew₄
        (fun d hd => (hhoisted d (List.mem_append_right _ hd)).mono hclosed hfirst)
        fun hlate d hd => (hdeclared hlate d hd).mono hclosed hfirst
    refine ⟨hrest.frames.trans hframes, ?_, fun x hx hx' hname => ?_⟩
    · rw [Outline.fresh]
      simpa only [List.append_assoc] using hclosed.trans hrest.entered
    · rcases List.mem_append.mp hx with hx | hx
      · obtain ⟨h₁, h₂, h₃⟩ := hbody.settled x hx hx' hname
        have hclosed : Settled s₄.pop x.1 x.2 := ⟨h₁, h₂, h₃⟩
        refine hclosed.mono hrest.entered hnew₄ fun hmem => ?_
        exact (List.nodup_append.mp hnodup₃).2.2 _ (Outline.mem_fresh_of_mem_occurrences hx hx') _ hmem rfl
      · exact hrest.settled x hx hx' hname

/-! ### Files -/

/-- The binding answers a reference as the scopes around it say: with the symbol of what the innermost of
them declares that declares its name. -/
structure Answers (b : Binding) (r : Referred NodeId) (around : List (List (Declared NodeId))) :
    Prop where
  unresolved : meaning? around r = none → b.symbol? r.label = none
  resolved : ∀ ds, meaning? around r = some ds → ∃ symbol index, symbol.id = .localSymbol index ∧
    b.symbol? r.label = some symbol ∧ ∀ d ∈ ds, d.answers r = true → b.symbol? d.label = some symbol

/-- A settled reference is answered. -/
theorem Settled.answers {s : State} {r : Referred Place} {around : List (List Declaration)}
    (h : Settled s r around) :
    Answers s.binding (r.map Place.id) (around.map (·.map Declaration.toDeclared)) where
  unresolved hmeaning := by
    show (s.binding.declaredSymbol? r.label.id).or (s.binding.resolvedSymbol? r.label.id) = none
    rw [declaredSymbol?, resolvedSymbol?, h.undeclared, h.unresolved hmeaning]
    rfl
  resolved ds hmeaning := by
    obtain ⟨index, hindex, hsymbol, hds⟩ := h.resolved ds hmeaning
    obtain ⟨symbol, hget, hid⟩ := Option.map_eq_some_iff.mp hsymbol
    refine ⟨symbol, index, hid, ?_, fun d hd hanswers => ?_⟩
    · show (s.binding.declaredSymbol? r.label.id).or (s.binding.resolvedSymbol? r.label.id) = some symbol
      rw [declaredSymbol?, resolvedSymbol?, h.undeclared, hindex]
      exact hget
    · have hdeclared : s.binding.declaredSymbol? d.label = some symbol := by
        rw [declaredSymbol?, hds d hd hanswers]
        exact hget
      rw [symbol?, hdeclared]
      rfl

/-- The outline of a file declares nothing outside the file. -/
theorem silent_file {n : Node Place} (h : n.Formed .file) : n.outline.Silent := by
  obtain ⟨l, k⟩ := n
  have hfits := h.fits_kind
  cases k <;> simp only [Node.kind_mk, Syntax.Kind.fits, Bool.false_eq_true] at hfits
  case sourceFile body =>
    rw [Node.outline]
    exact Outline.silent_scope rfl _ _

/-- The state before anything has been bound. -/
def State.initial : State := ⟨⟨#[], [], [], [], [], []⟩, []⟩

theorem symbol?_ofTree (t : Tree) (identifier : NodeId) :
    (ofTree t).symbol? identifier = ((bindNode t.root).after .initial).binding.symbol? identifier :=
  rfl

/-- **The binding of a file answers its references** where no declaration stands right under a condition
or a loop. -/
theorem answers_ofTree {fileName text : String} (hblocked : (Tree.parse fileName text).root.Blocked)
    {x : Referred Place × List (List Declaration)}
    (hx : x ∈ (Tree.parse fileName text).root.outline.occurrences [])
    (hinitial : x.1.isInitial = false) (hname : x.1.name ≠ "") :
    Answers (ofTree (Tree.parse fileName text)) (x.1.map Place.id)
      (x.2.map (·.map Declaration.toDeclared)) := by
  have hformed := Tree.formed_root_parse fileName text
  have hnodup := Node.nodup_ids_outline fileName text
  generalize Tree.parse fileName text = t at *
  obtain ⟨hdeclared, hhoisted⟩ := silent_file hformed
  rw [(Outline.perm_ids _).nodup_iff, hdeclared, hhoisted] at hnodup
  have hbinds : Binds t.root.outline [] .initial (t.root.outline.bound true .initial) := by
    refine binds_bound _ .nil hnodup (fun _ _ => ⟨rfl, rfl⟩) (fun d hd => ?_) fun _ d hd => ?_
    · rw [hhoisted] at hd
      exact absurd hd List.not_mem_nil
    · rw [hdeclared] at hd
      exact absurd hd List.not_mem_nil
  rw [← Node.after_bindNode _ hformed hblocked] at hbinds
  have hanswers := (hbinds.settled x hx hinitial hname).answers
  constructor
  · intro hmeaning
    rw [symbol?_ofTree]
    exact hanswers.unresolved hmeaning
  · intro ds hmeaning
    simp only [symbol?_ofTree]
    exact hanswers.resolved ds hmeaning

end Semantics.Binding

end ScriptAnalysis

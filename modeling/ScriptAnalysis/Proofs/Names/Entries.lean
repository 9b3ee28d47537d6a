import ScriptAnalysis.Proofs.Names.Binding

/-!
# What binding enters

Wherever declarations stand, binding enters every declared name that has a text, and each of them once:
some in front of a scope, the others on the way (`enters_walks`). `State.Sound` says what the entries mean:
the symbol that a name is entered for has this name, and its declarations are the nodes that were entered
for it, in this order. A walk keeps what its steps keep (`Walks.preserves`).
-/

namespace ScriptAnalysis

open Names (Referred Outline)
open Semantics (Declaration Symbol)
open Semantics.Binding (Frame State)
open Syntax (Ident NodeId Place)

namespace Names.Outline

variable {late : Bool} {o : Outline Declaration (Referred Place)} {s s' : State}

/-- What declarations, references and scopes keep is kept by a walk. -/
theorem Walks.preserves {P : State → Prop} {ds : List Declaration} {rs : List (Referred Place)}
    (hdeclare : ∀ d ∈ ds, ∀ s, P s → P (s.declare d))
    (hrefer : ∀ r ∈ rs, ∀ s, P s → P (s.refer r.isType ⟨r.label, r.name⟩)) (hpush : ∀ s, P s → P s.push)
    (hpop : ∀ s, P s → P s.pop) (h : o.Walks List.Sublist late s s') (hds : o.declarations ⊆ ds)
    (hrs : o.reads ⊆ rs) (hs : P s) : P s' := by
  have hall : ∀ new : List Declaration, new ⊆ ds → ∀ s, P s → P (new.foldl State.declare s) := by
    intro new
    induction new with
    | nil => exact fun _ _ hs => hs
    | cons d new ih =>
      intro hnew s hs
      obtain ⟨hd, hnew⟩ := List.cons_subset.mp hnew
      exact ih hnew _ (hdeclare d hd s hs)
  induction h with
  | done => exact hs
  | @declare late _ d _ s _ _ ih =>
    obtain ⟨hd, hds⟩ := List.cons_subset.mp hds
    refine ih hds hrs ?_
    cases late with
    | true =>
      rw [if_pos rfl, State.declareLate]
      split
      · exact hs
      · exact hdeclare d hd s hs
    | false => exact hs
  | @refer _ r _ s _ _ ih =>
    rw [reads_refer] at hrs
    obtain ⟨hr, hrs⟩ := List.append_subset.mp hrs
    refine ih hds hrs ?_
    cases hinitial : r.isInitial with
    | true => exact hs
    | false => exact hrefer r (hr (by simp [hinitial])) s hs
  | @scope _ type header body _ _ _ _ _ _ _ hfirst _ _ _ ihHeader ihBody ih =>
    obtain ⟨hheader, hds⟩ := List.append_subset.mp hds
    obtain ⟨hbody, hds⟩ := List.append_subset.mp hds
    rw [reads_scope] at hrs
    obtain ⟨hheader', hrs⟩ := List.append_subset.mp hrs
    obtain ⟨hbody', hrest⟩ := List.append_subset.mp hrs
    have hown := List.Subset.trans (own_subset_declarations header type) hheader
    have hbodyOwn := List.Subset.trans (own_subset_declarations body type) hbody
    have hfirst := List.Subset.trans hfirst.subset hbodyOwn
    have hs₁ := ihHeader hheader hheader' (hall _ hown _ (hpush _ hs))
    have hs₂ := ihBody hbody hbody' (hall _ hfirst _ hs₁)
    exact ih hds hrest (hpop _ hs₂)

end Names.Outline

namespace Semantics.Binding

/-! ### What a declaration does -/

section

variable {s : State} {d : Declaration} {frame : Frame} {frames : List Frame}

/-- A name that the innermost scope holds is one more declaration of its symbol. -/
theorem declare_eq_of_some (hframes : s.frames = frame :: frames) (hname : d.name.text ≠ "") {index : Nat}
    (hindex : frame.lookup? d.kind.isType d.name.text = some index) :
    ∃ conflicts, s.declare d = ⟨{ s.binding with
      symbols := s.binding.symbols.modify index fun symbol =>
        { symbol with declarations := symbol.declarations ++ [d.node] }
      declared := (d.name.id, index) :: s.binding.declared
      conflicts }, s.frames⟩ := by
  rw [State.declare, hframes]
  simp only [if_neg hname, hindex]
  exact ⟨_, rfl⟩

/-- A name that the innermost scope does not hold is the first declaration of a new symbol. -/
theorem declare_eq_of_none (hframes : s.frames = frame :: frames) (hname : d.name.text ≠ "")
    (hindex : frame.lookup? d.kind.isType d.name.text = none) :
    s.declare d = ⟨{ s.binding with
      symbols := s.binding.symbols.push
        ⟨.localSymbol s.binding.symbols.size, d.name.text, d.kind, [d.node]⟩
      declared := (d.name.id, s.binding.symbols.size) :: s.binding.declared },
      frame.add d.kind.isType d.name.text s.binding.symbols.size :: frames⟩ := by
  rw [State.declare, hframes]
  simp only [if_neg hname, hindex]

end

/-! ### What entries mean -/

/-- The name of a symbol by its number. -/
def State.nameAt? (s : State) (index : Nat) : Option String := (s.binding.symbols[index]?).map (·.name)

/-- Each of the declarations `ds` that has been entered so far is entered for a symbol with its name, and
the declarations of a symbol are those that are entered for it, in order; each of the references `rs` that
has been resolved refers to a symbol with its name, and so does a name that an open scope holds. -/
structure State.Sound (ds : List Declaration) (rs : List (Referred Place))
    (entries : List (Declaration × Nat)) (s : State) : Prop where
  declared : s.binding.declared = (entries.map fun e => (e.1.name.id, e.2)).reverse
  entered : ∀ e ∈ entries, e.1 ∈ ds ∧ s.nameAt? e.2 = some e.1.name.text
  declarations : ∀ index symbol, s.binding.symbols[index]? = some symbol →
    symbol.declarations = (entries.filter (·.2 = index)).map (·.1.node)
  resolved : ∀ x ∈ s.binding.resolved, ∃ r ∈ rs, r.label.id = x.1 ∧ s.nameAt? x.2 = some r.name
  held : ∀ frame ∈ s.frames, ∀ isType name index, frame.lookup? isType name = some index →
    s.nameAt? index = some name

namespace State.Sound

variable {ds : List Declaration} {rs : List (Referred Place)} {entries : List (Declaration × Nat)}
  {s : State}

section

variable {d : Declaration} {frame : Frame} {frames : List Frame}

/-- An entry for a symbol that the innermost scope holds keeps what earlier entries mean. -/
theorem declare_known (h : s.Sound ds rs entries) (hd : d ∈ ds) (hframes : s.frames = frame :: frames)
    (hname : d.name.text ≠ "") {index : Nat}
    (hindex : frame.lookup? d.kind.isType d.name.text = some index) :
    (s.declare d).Sound ds rs (entries ++ [(d, index)]) := by
  obtain ⟨conflicts, heq⟩ := declare_eq_of_some hframes hname hindex
  have hnames : ∀ i, (s.declare d).nameAt? i = s.nameAt? i := by
    intro i
    rw [heq, nameAt?, nameAt?]
    dsimp only
    rw [Array.getElem?_modify]
    split
    · rw [Option.map_map]
      rfl
    · rfl
  constructor
  case declared =>
    rw [heq]
    simp [h.declared]
  case entered =>
    intro e he
    rw [hnames]
    rcases List.mem_append.mp he with he | he
    · exact h.entered e he
    · obtain rfl := List.mem_singleton.mp he
      exact ⟨hd, h.held frame (hframes ▸ List.mem_cons_self) _ _ _ hindex⟩
  case declarations =>
    intro i symbol hsymbol
    rw [heq] at hsymbol
    dsimp only at hsymbol
    rw [Array.getElem?_modify] at hsymbol
    rw [List.filter_append, List.map_append]
    split at hsymbol
    · rename_i hi
      obtain ⟨old, hold, rfl⟩ := Option.map_eq_some_iff.mp hsymbol
      rw [h.declarations i old hold]
      simp [hi]
    · rename_i hi
      rw [h.declarations i symbol hsymbol]
      simp [hi]
  case resolved =>
    intro x hx
    rw [heq] at hx
    obtain ⟨r, hr, hid, hx⟩ := h.resolved x hx
    exact ⟨r, hr, hid, (hnames _).trans hx⟩
  case held =>
    intro frame' hframe' isType name i hi
    rw [heq] at hframe'
    exact (hnames i).trans (h.held frame' hframe' isType name i hi)

/-- Every entry is for a symbol that exists. -/
theorem lt_size (h : s.Sound ds rs entries) {e : Declaration × Nat} (he : e ∈ entries) :
    e.2 < s.binding.symbols.size := by
  obtain ⟨symbol, hsymbol, -⟩ := Option.map_eq_some_iff.mp (h.entered e he).2
  exact (Array.getElem?_eq_some_iff.mp hsymbol).1

/-- An entry for a new symbol keeps what earlier entries mean. -/
theorem declare_new (h : s.Sound ds rs entries) (hd : d ∈ ds) (hframes : s.frames = frame :: frames)
    (hname : d.name.text ≠ "") (hindex : frame.lookup? d.kind.isType d.name.text = none) :
    (s.declare d).Sound ds rs (entries ++ [(d, s.binding.symbols.size)]) := by
  have heq := declare_eq_of_none hframes hname hindex
  have hnew : (s.declare d).nameAt? s.binding.symbols.size = some d.name.text := by
    rw [heq, nameAt?]
    dsimp only
    rw [Array.getElem?_push_size]
    rfl
  have hnames : ∀ i name, s.nameAt? i = some name → (s.declare d).nameAt? i = some name := by
    intro i name hi
    obtain ⟨symbol, hsymbol, hname⟩ := Option.map_eq_some_iff.mp hi
    obtain ⟨hlt, -⟩ := Array.getElem?_eq_some_iff.mp hsymbol
    rw [heq, nameAt?]
    dsimp only
    rw [Array.getElem?_push_lt hlt, ← Array.getElem?_eq_getElem hlt]
    exact hi
  constructor
  case declared =>
    rw [heq]
    simp [h.declared]
  case entered =>
    intro e he
    rcases List.mem_append.mp he with he | he
    · exact ⟨(h.entered e he).1, hnames _ _ (h.entered e he).2⟩
    · obtain rfl := List.mem_singleton.mp he
      exact ⟨hd, hnew⟩
  case declarations =>
    intro i symbol hsymbol
    rw [heq] at hsymbol
    dsimp only at hsymbol
    rw [Array.getElem?_push] at hsymbol
    rw [List.filter_append, List.map_append]
    split at hsymbol
    · rename_i hi
      have hnone : entries.filter (·.2 = i) = [] := by
        rw [List.filter_eq_nil_iff]
        intro e he heq
        exact absurd (of_decide_eq_true heq) (hi ▸ Nat.ne_of_lt (h.lt_size he))
      obtain rfl := Option.some.inj hsymbol
      rw [hnone]
      simp [hi]
    · rename_i hi
      rw [h.declarations i symbol hsymbol]
      simp [Ne.symm hi]
  case resolved =>
    intro x hx
    rw [heq] at hx
    obtain ⟨r, hr, hid, hx⟩ := h.resolved x hx
    exact ⟨r, hr, hid, hnames _ _ hx⟩
  case held =>
    intro frame' hframe' isType name i hi
    rw [heq] at hframe'
    rcases List.mem_cons.mp hframe' with rfl | hframe'
    · rw [Frame.lookup?_add] at hi
      split at hi
      · rename_i hsame
        obtain rfl := Option.some.inj hi
        rw [hnew, hsame.2]
      · exact hnames _ _ (h.held frame (hframes ▸ List.mem_cons_self) isType name i hi)
    · exact hnames _ _ (h.held frame' (hframes ▸ List.mem_cons_of_mem _ hframe') isType name i hi)

/-- A declaration keeps what earlier entries mean. -/
theorem declare (h : s.Sound ds rs entries) (hd : d ∈ ds) : ∃ entries, (s.declare d).Sound ds rs entries := by
  cases hframes : s.frames with
  | nil =>
    rw [declare_of_no_scope hframes]
    exact ⟨entries, h⟩
  | cons frame frames =>
  by_cases hname : d.name.text = ""
  · rw [declare_of_missing hname]
    exact ⟨entries, h⟩
  cases hindex : frame.lookup? d.kind.isType d.name.text with
  | some index => exact ⟨_, h.declare_known hd hframes hname hindex⟩
  | none => exact ⟨_, h.declare_new hd hframes hname hindex⟩

end

/-- A reference is resolved to a symbol that an open scope holds under its name. -/
theorem refer (h : s.Sound ds rs entries) {r : Referred Place} (hr : r ∈ rs) :
    (s.refer r.isType ⟨r.label, r.name⟩).Sound ds rs entries := by
  rw [State.refer]
  split
  · exact h
  dsimp only
  split
  · rename_i index hfind
    refine ⟨h.declared, h.entered, h.declarations, fun x hx => ?_, h.held⟩
    rcases List.mem_cons.mp hx with rfl | hx
    · obtain ⟨frame, hframe, hindex⟩ := List.exists_of_findSome?_eq_some hfind
      exact ⟨r, hr, rfl, h.held frame hframe _ _ _ hindex⟩
    · exact h.resolved x hx
  · split
    · exact ⟨h.declared, h.entered, h.declarations, h.resolved, h.held⟩
    · exact ⟨h.declared, h.entered, h.declarations, h.resolved, h.held⟩

theorem push (h : s.Sound ds rs entries) : s.push.Sound ds rs entries where
  declared := h.declared
  entered := h.entered
  declarations := h.declarations
  resolved := h.resolved
  held frame hframe isType name index hindex := by
    rcases List.mem_cons.mp hframe with rfl | hframe
    · cases isType <;> cases hindex
    · exact h.held frame hframe isType name index hindex

theorem pop (h : s.Sound ds rs entries) : s.pop.Sound ds rs entries where
  declared := h.declared
  entered := h.entered
  declarations := h.declarations
  resolved := h.resolved
  held frame hframe := h.held frame (List.mem_of_mem_tail hframe)

theorem initial : State.initial.Sound ds rs [] where
  declared := rfl
  entered := by simp
  declarations index symbol h := by simp [State.initial] at h
  resolved := by simp [State.initial]
  held := by simp [State.initial]

end State.Sound

/-- **Entries mean what they say** after every walk. -/
theorem sound_walks {late : Bool} {o : Outline Declaration (Referred Place)} {s s' : State}
    (h : o.Walks List.Sublist late s s') {entries : List (Declaration × Nat)}
    (hs : s.Sound o.declarations o.reads entries) :
    ∃ entries, s'.Sound o.declarations o.reads entries := by
  refine h.preserves (P := fun s => ∃ entries, s.Sound o.declarations o.reads entries)
    (fun d hd s ⟨_, hs⟩ => hs.declare hd) (fun r hr s ⟨_, hs⟩ => ⟨_, hs.refer hr⟩)
    (fun s ⟨_, hs⟩ => ⟨_, hs.push⟩) (fun s ⟨_, hs⟩ => ⟨_, hs.pop⟩) (List.Subset.refl _)
    (List.Subset.refl _) ⟨entries, hs⟩

/-! ### Every declared name is entered once -/

/-- The names that have been entered, later ones first. -/
def State.keys (s : State) : List NodeId := s.binding.declared.map (·.1)

/-- The numbers of the declared names that have a text. -/
def named (ds : List Declaration) : List NodeId := (ds.filter (·.name.text ≠ "")).map (·.name.id)

theorem mem_named_iff {ds : List Declaration} {id : NodeId} :
    id ∈ named ds ↔ ∃ d ∈ ds, d.name.text ≠ "" ∧ d.name.id = id := by
  simp [named, and_assoc]

theorem mem_named_singleton_iff {d : Declaration} {id : NodeId} :
    id ∈ named [d] ↔ d.name.text ≠ "" ∧ d.name.id = id := by
  simp [mem_named_iff]

theorem named_subset {ds ds' : List Declaration} (h : ds ⊆ ds') : named ds ⊆ named ds' :=
  fun _ hid => List.map_subset _ (List.filter_subset _ h) hid

theorem named_append (ds ds' : List Declaration) : named (ds ++ ds') = named ds ++ named ds' := by
  rw [named, List.filter_append, List.map_append]
  rfl

theorem isDeclared_iff {s : State} {name : Ident Place} : s.isDeclared name = true ↔ name.id ∈ s.keys := by
  rw [State.isDeclared, List.lookup_isSome_iff, State.keys, List.mem_map]
  exact exists_congr fun entry => and_congr_right fun _ => beq_iff_eq.trans eq_comm

/-- Between two states the names of the declarations are entered that have not been entered before. -/
structure Enters (ds : List Declaration) (s s' : State) : Prop where
  nodup : s'.keys.Nodup
  mem_iff : ∀ id, id ∈ s'.keys ↔ id ∈ s.keys ∨ id ∈ named ds
  depth : s'.frames.length = s.frames.length

namespace Enters

variable {ds ds' : List Declaration} {s s' s'' : State}

theorem trans (h : Enters ds s s') (h' : Enters ds' s' s'') : Enters (ds ++ ds') s s'' where
  nodup := h'.nodup
  mem_iff id := by
    rw [h'.mem_iff, h.mem_iff, or_assoc, named_append, List.mem_append]
  depth := h'.depth.trans h.depth

theorem refl (h : s.keys.Nodup) (hds : named ds ⊆ s.keys) : Enters ds s s :=
  ⟨h, fun _ => ⟨.inl, fun h => h.elim (fun h => h) fun h => hds h⟩, rfl⟩

theorem of_eq (h : s.keys.Nodup) (hkeys : s'.keys = s.keys) (hframes : s'.frames = s.frames) :
    Enters [] s s' :=
  ⟨hkeys ▸ h, fun id => by rw [hkeys]; exact (or_iff_left List.not_mem_nil).symm, by rw [hframes]⟩

/-- Numbers that are not entered stay new. -/
theorem notMem (h : Enters ds s s') {id : NodeId} (hid : id ∉ s.keys) (hds : id ∉ named ds) :
    id ∉ s'.keys := by
  rw [h.mem_iff]
  exact not_or.mpr ⟨hid, hds⟩

/-- The order of the declarations does not matter. -/
theorem congr (h : Enters ds s s') (hds : ∀ d, d ∈ ds ↔ d ∈ ds') : Enters ds' s s' := by
  refine ⟨h.nodup, fun id => ?_, h.depth⟩
  rw [h.mem_iff, mem_named_iff, mem_named_iff]
  simp only [hds]

/-- A scope that is closed leaves what has been entered in it. -/
theorem pop (h : Enters ds s.push s') : Enters ds s s'.pop := by
  refine ⟨h.nodup, h.mem_iff, ?_⟩
  show s'.frames.tail.length = s.frames.length
  rw [List.length_tail, h.depth]
  rfl

/-- Scopes are open after what is entered when they have been before. -/
theorem frames_eq_nil (h : Enters ds s s') (hnil : s'.frames = []) : s.frames = [] := by
  rw [← List.length_eq_zero_iff] at hnil ⊢
  rw [← h.depth]
  exact hnil

theorem frames_ne (h : Enters ds s s') (hframes : s.frames ≠ []) : s'.frames ≠ [] :=
  fun hnil => hframes (h.frames_eq_nil hnil)

/-- A new name is entered. -/
theorem declare (hkeys : s.keys.Nodup) (hframes : s.frames ≠ []) {d : Declaration}
    (hnew : d.name.text ≠ "" → d.name.id ∉ s.keys) : Enters [d] s (s.declare d) := by
  obtain ⟨frame, frames, hframes⟩ := List.exists_cons_of_ne_nil hframes
  by_cases hname : d.name.text = ""
  · rw [declare_of_missing hname]
    exact refl hkeys fun id hid => absurd hname (mem_named_singleton_iff.mp hid).1
  · have hstate : (s.declare d).keys = d.name.id :: s.keys ∧
        (s.declare d).frames.length = s.frames.length := by
      cases hindex : frame.lookup? d.kind.isType d.name.text with
      | some index =>
        obtain ⟨conflicts, heq⟩ := declare_eq_of_some hframes hname hindex
        rw [heq]
        exact ⟨rfl, rfl⟩
      | none =>
        rw [declare_eq_of_none hframes hname hindex, hframes]
        exact ⟨rfl, rfl⟩
    obtain ⟨hstate, hdepth⟩ := hstate
    refine ⟨?_, fun id => ?_, hdepth⟩
    · rw [hstate]
      exact List.nodup_cons.mpr ⟨hnew hname, hkeys⟩
    · rw [hstate, List.mem_cons, or_comm, mem_named_singleton_iff, and_iff_right hname, eq_comm]

/-- New names are entered one after another. -/
theorem foldl {new : List Declaration} (hkeys : s.keys.Nodup) (hframes : s.frames ≠ [])
    (hnodup : (new.map (·.name.id)).Nodup) (hnew : ∀ d ∈ new, d.name.id ∉ s.keys) :
    Enters new s (new.foldl State.declare s) := by
  induction new generalizing s with
  | nil => exact refl hkeys (by simp [named])
  | cons d new ih =>
    obtain ⟨hd, hnodup⟩ := List.nodup_cons.mp hnodup
    obtain ⟨hfirst, hnew⟩ := List.forall_mem_cons.mp hnew
    have hdeclare := declare hkeys hframes fun _ => hfirst
    refine hdeclare.trans (ih hdeclare.nodup (hdeclare.frames_ne hframes) hnodup fun d' hd' => ?_)
    refine hdeclare.notMem (hnew d' hd') fun hmem => hd ?_
    exact List.mem_map.mpr ⟨d', hd', (mem_named_singleton_iff.mp hmem).2.symm⟩

/-- A name that is reached on the way is entered unless it has been. -/
theorem declareLate (hkeys : s.keys.Nodup) (hframes : s.frames ≠ []) (d : Declaration) :
    Enters [d] s (s.declareLate d) := by
  rw [State.declareLate]
  split
  · rename_i hdeclared
    exact refl hkeys fun id hid => (mem_named_singleton_iff.mp hid).2 ▸ isDeclared_iff.mp hdeclared
  · rename_i hdeclared
    exact declare hkeys hframes fun _ hmem => hdeclared (isDeclared_iff.mpr hmem)

end Enters

/-- The numbers that an outline enters are numbers of its names. -/
theorem fresh_subset_ids (o : Outline Declaration (Referred Place)) : o.fresh ⊆ o.ids :=
  fun _ hid => o.perm_ids.symm.subset (List.mem_append_right _ hid)

theorem id_mem_ids {o : Outline Declaration (Referred Place)} {d : Declaration} (h : d ∈ o.declarations) :
    d.name.id ∈ o.ids :=
  List.mem_map.mpr ⟨_, Outline.toNode_mem_names h, rfl⟩

theorem named_declarations_subset_ids (o : Outline Declaration (Referred Place)) :
    named o.declarations ⊆ o.ids := by
  intro id hid
  obtain ⟨d, hd, -, rfl⟩ := mem_named_iff.mp hid
  exact id_mem_ids hd

theorem keys_refer (s : State) (isType : Bool) (name : Ident Place) :
    (s.refer isType name).keys = s.keys := by
  rw [State.refer]
  split
  · rfl
  · dsimp only
    split
    · rfl
    · split <;> rfl

/-- What stands in a scope is entered when some of the names that belong to the scope are declared in front
of it. -/
theorem Enters.inside {late : Bool} {type : Scoping.ScopeType} {o : Outline Declaration (Referred Place)}
    {first : List Declaration} {s s' : State} (hfirst : first.Sublist (o.own type)) (hids : o.ids.Nodup)
    (hnodup : ((o.own type).map (·.name.id) ++ o.fresh).Nodup) (hkeys : s.keys.Nodup)
    (hframes : s.frames ≠ []) (hnew : ∀ id ∈ (o.own type).map (·.name.id) ++ o.fresh, id ∉ s.keys)
    (hlate : late = false → o.declared ++ o.hoisted ⊆ first)
    (hwalk : o.ids.Nodup → (first.foldl State.declare s).keys.Nodup →
      (∀ id ∈ o.fresh, id ∉ (first.foldl State.declare s).keys) →
      ((first.foldl State.declare s).frames = [] → o.Silent) →
      (late = false → named (o.declared ++ o.hoisted) ⊆ (first.foldl State.declare s).keys) →
      Enters o.declarations (first.foldl State.declare s) s') :
    Enters o.declarations s s' := by
  obtain ⟨hownNodup, -, hapart⟩ := List.nodup_append.mp hnodup
  obtain ⟨hownNew, hfresh⟩ := List.forall_mem_append.mp hnew
  have hin : ∀ d ∈ first, d.name.id ∈ (o.own type).map (·.name.id) :=
    fun d hd => List.mem_map_of_mem (hfirst.subset hd)
  have hen : Enters first s (first.foldl State.declare s) :=
    .foldl hkeys hframes ((hfirst.map _).nodup hownNodup) fun d hd => hownNew _ (hin d hd)
  refine (hen.trans (hwalk hids hen.nodup (fun id hid => ?_) (fun hnil => ?_) fun h id hid => ?_)).congr ?_
  · refine hen.notMem (hfresh id hid) fun hmem => ?_
    obtain ⟨d, hd, -, rfl⟩ := mem_named_iff.mp hmem
    exact hapart _ (hin d hd) _ hid rfl
  · exact absurd hnil (hen.frames_ne hframes)
  · exact (hen.mem_iff id).mpr (.inr (named_subset (hlate h) hid))
  · intro d
    rw [List.mem_append]
    exact ⟨fun h => h.elim (fun h => o.own_subset_declarations type (hfirst.subset h)) fun h => h, .inr⟩

/-- **Every declared name is entered**, and once. The names that belong to the scopes around may have been
entered before, and have been where nothing is declared on the way. -/
theorem enters_walks {late : Bool} {o : Outline Declaration (Referred Place)} {s s' : State}
    (h : o.Walks List.Sublist late s s') (hids : o.ids.Nodup) (hkeys : s.keys.Nodup)
    (hfresh : ∀ id ∈ o.fresh, id ∉ s.keys) (hframes : s.frames = [] → o.Silent)
    (hlate : late = false → named (o.declared ++ o.hoisted) ⊆ s.keys) :
    Enters o.declarations s s' := by
  induction h with
  | done => exact .refl hkeys (List.nil_subset _)
  | @declare late isHoisted d rest s s' _ ih =>
    obtain ⟨hd, hids'⟩ : d.name.id ∉ rest.ids ∧ rest.ids.Nodup := List.nodup_cons.mp hids
    -- something is declared here, so a scope is open
    have hne : s.frames ≠ [] := by
      intro hnil
      cases isHoisted with
      | true => exact absurd (hframes hnil).2 (List.cons_ne_nil _ _)
      | false => exact absurd (hframes hnil).1 (List.cons_ne_nil _ _)
    have hfirst : [d] ++ (rest.declared ++ rest.hoisted) ⊆
        (Outline.declare isHoisted d rest).declared ++ (Outline.declare isHoisted d rest).hoisted := by
      intro d'
      cases isHoisted <;> simp [Outline.declared, Outline.hoisted]
      grind
    have hstep : Enters [d] s (if late then s.declareLate d else s) := by
      cases late with
      | true => exact .declareLate hkeys hne d
      | false =>
        refine .refl hkeys fun id hid => hlate rfl (named_subset hfirst ?_)
        exact named_append _ _ ▸ List.mem_append_left _ hid
    refine hstep.trans (ih hids' hstep.nodup (fun id hid => ?_) (fun hnil => ?_) fun hlate' id hid => ?_)
    · refine hstep.notMem (hfresh id hid) fun hmem => hd ?_
      exact (mem_named_singleton_iff.mp hmem).2 ▸ fresh_subset_ids rest hid
    · exact absurd hnil (hstep.frames_ne hne)
    · refine (hstep.mem_iff id).mpr (.inl (hlate hlate' (named_subset hfirst ?_)))
      exact named_append _ _ ▸ List.mem_append_right _ hid
  | @refer late r rest s s' _ ih =>
    rw [Outline.fresh] at hfresh
    rw [Outline.ids_refer] at hids
    have hrest : rest.ids.Nodup := hids.sublist (List.sublist_append_right _ _)
    have hstep : Enters [] s (if r.isInitial then s else s.refer r.isType ⟨r.label, r.name⟩) := by
      split
      · exact .refl hkeys (List.nil_subset _)
      · exact .of_eq hkeys (keys_refer s _ _) (extends_refer s _ _).2
    refine hstep.trans (ih hrest hstep.nodup (fun id hid => ?_) (fun hnil => ?_) fun hlate' id hid => ?_)
    · exact hstep.notMem (hfresh id (List.mem_append_right _ hid)) List.not_mem_nil
    · exact hframes (hstep.frames_eq_nil hnil)
    · exact (hstep.mem_iff id).mpr (.inl (hlate hlate' hid))
  | @scope late type header body rest s s₁ s₂ s' first hheader hfirst _ _ _ ihHeader ihBody ih =>
    -- the names of the header, those of the body and those behind the scope have different numbers
    have hfreshNodup := ((Outline.perm_ids _).nodup_iff.mp hids).sublist (List.sublist_append_right _ _)
    rw [Outline.ids_scope] at hids
    obtain ⟨hheaderIds, hids', hheaderApart⟩ := List.nodup_append.mp hids
    obtain ⟨hbodyIds, hrestIds, hbodyApart⟩ := List.nodup_append.mp hids'
    rw [Outline.fresh, ← List.append_assoc, ← List.append_assoc (List.map _ (body.own type))]
      at hfreshNodup hfresh
    obtain ⟨hheaderNodup, hfreshNodup, -⟩ := List.nodup_append.mp hfreshNodup
    obtain ⟨hbodyNodup, -, -⟩ := List.nodup_append.mp hfreshNodup
    obtain ⟨hheaderNew, hfresh⟩ := List.forall_mem_append.mp hfresh
    obtain ⟨hbodyNew, hrestNew⟩ := List.forall_mem_append.mp hfresh
    -- nothing is declared on the way through a header, so all that belongs to it is declared in front
    have hinHeader : Enters header.declarations s.push s₁ := by
      refine .inside (List.Sublist.refl _) hheaderIds hheaderNodup hkeys (List.cons_ne_nil _ _) hheaderNew
        (fun _ => ?_) ihHeader
      rw [hheader, List.append_nil]
      exact List.subset_append_right _ _
    have hinBody : Enters body.declarations s₁ s₂ := by
      refine .inside hfirst hbodyIds hbodyNodup hinHeader.nodup (hinHeader.frames_ne (List.cons_ne_nil _ _))
        (fun id hid => ?_) (fun hlate' => absurd hlate' (by decide)) ihBody
      refine hinHeader.notMem (hbodyNew id hid) fun hmem => ?_
      refine hheaderApart _ (named_declarations_subset_ids header hmem) id (List.mem_append_left _ ?_) rfl
      rcases List.mem_append.mp hid with hid | hid
      · obtain ⟨d, hd, rfl⟩ := List.mem_map.mp hid
        exact id_mem_ids (body.own_subset_declarations type hd)
      · exact fresh_subset_ids body hid
    have hscope := (hinHeader.trans hinBody).pop
    have hrest : Enters rest.declarations s₂.pop s' := by
      refine ih hrestIds hscope.nodup (fun id hid => ?_) (fun hnil => ?_) fun hlate' id hid => ?_
      · refine hscope.notMem (hrestNew id hid) fun hmem => ?_
        have hid := fresh_subset_ids rest hid
        rw [named_append] at hmem
        rcases List.mem_append.mp hmem with hmem | hmem
        · exact hheaderApart _ (named_declarations_subset_ids header hmem) id (List.mem_append_right _ hid) rfl
        · exact hbodyApart _ (named_declarations_subset_ids body hmem) id hid rfl
      · have hsilent := hframes (hscope.frames_eq_nil hnil)
        exact ⟨hsilent.1, (List.append_eq_nil_iff.mp hsilent.2).2⟩
      · refine (hscope.mem_iff id).mpr (.inl (hlate hlate' (named_subset (fun d hd => ?_) hid)))
        exact (List.mem_append.mp hd).elim (List.mem_append_left _) fun hd =>
          List.mem_append_right _ (List.mem_append_right _ hd)
    rw [Outline.declarations, ← List.append_assoc]
    exact hscope.trans hrest

end Semantics.Binding

end ScriptAnalysis

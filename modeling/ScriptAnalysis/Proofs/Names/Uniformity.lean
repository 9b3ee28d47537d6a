import ScriptAnalysis.Proofs.Names.Placement
import ScriptAnalysis.Proofs.Names.Referents

/-!
# Whether the place of a reference matters

All declarations of a scope would be entered before its statements are walked, were it not for those right
under a condition or a loop. So two references of one scope to one name mean the same, wherever they stand,
unless a declaration of that kind stands between them: `answersInPlace_parse` says for every text which
references differ.
-/

namespace ScriptAnalysis

open Names (Placed Referred Outline)
open Semantics (Binding Declaration Symbol SymbolId)
open Semantics.Binding
open Syntax (Node NodeId Place Tree)

namespace Semantics.Binding

/-! ### Symbols by number -/

section

variable {t : Tree} (ht : IsRead t)

include ht

/-- The number that a reference is resolved to is the number of a symbol. -/
theorem map_id_resolvedSymbol? (id : NodeId) :
    ((ofTree t).resolvedSymbol? id).map Symbol.id = ((ofTree t).resolved.lookup id).map .localSymbol := by
  rw [resolvedSymbol?]
  cases hindex : (ofTree t).resolved.lookup id with
  | none => rfl
  | some index =>
    obtain ⟨entries, uses, hconsists⟩ := ht.consistsOf
    obtain ⟨l₁, l₂, heq, -⟩ := List.lookup_eq_some_iff.mp hindex
    have hmem : (id, index) ∈ (ofTree t).resolved := by simp [heq]
    obtain ⟨r, -, -, hname⟩ := hconsists.resolved _ hmem
    obtain ⟨symbol, hget, -⟩ := Option.map_eq_some_iff.mp hname
    rw [Option.bind_some, hget, Option.map_some, Option.map_some, (ht.of_symbol hget).1]

/-- References refer to one symbol when they have been resolved to one number. -/
theorem resolvedSymbol?_eq_iff (id id' : NodeId) :
    (ofTree t).resolvedSymbol? id = (ofTree t).resolvedSymbol? id' ↔
      (ofTree t).resolved.lookup id = (ofTree t).resolved.lookup id' := by
  refine ⟨fun heq => ?_, fun heq => by rw [resolvedSymbol?, resolvedSymbol?, heq]⟩
  have hinjective : Function.Injective SymbolId.localSymbol := fun _ _ => SymbolId.localSymbol.inj
  refine Option.map_injective hinjective ?_
  rw [← map_id_resolvedSymbol? ht, ← map_id_resolvedSymbol? ht, heq]

end

end Semantics.Binding

/-! ### Files -/

/-- The references of each scope of a file. -/
def Syntax.Tree.levels (t : Tree) : List (List Placed) := t.root.outline.levels t.declaresLate

set_option maxRecDepth 20000 in
-- The reference in the header stands in no scope, and the `let` is not declared in front.
example : ((Tree.parse "a.ts" "function f(a = b) { c; { d; } } e; if (1) let e = 2; e;").levels.map
    (·.map fun x => (x.reference.name, x.isOwn))) =
      [[("e", false), ("e", true)], [("c", false)], [("d", false)]] := by
  decide +kernel

namespace Semantics.Binding

/-- References of one scope to one name mean the same, wherever in the scope they stand. -/
def IsUniform (b : Binding) (t : Tree) : Prop :=
  ∀ level ∈ t.levels, ∀ x ∈ level, ∀ y ∈ level, x.NamesSame y → b.resolvedSymbol? x.id = b.resolvedSymbol? y.id

/-- What a reference means depends on where it stands only through what its scope has declared by then. -/
structure AnswersInPlace (b : Binding) (t : Tree) : Prop where
  /-- Every reference that is in no header stands in a scope. -/
  covers : ∀ x ∈ t.root.outline.occurrences [], x.1.isInitial = false →
    ∃ level ∈ t.levels, ∃ y ∈ level, y.reference = x.1
  /-- Two references of one scope to one name mean the same when the scope has declared the name at both of
  them or at neither, and only then. -/
  eq_iff : ∀ level ∈ t.levels, ∀ x ∈ level, ∀ y ∈ level, x.NamesSame y → x.reference.name ≠ "" →
    (b.resolvedSymbol? x.id = b.resolvedSymbol? y.id ↔ x.isOwn = y.isOwn)
  /-- What makes the difference is a declaration right under a condition or a loop. -/
  late : ∀ level ∈ t.levels, ∀ x ∈ level, ∀ y ∈ level, x.NamesSame y → x.isOwn ≠ y.isOwn →
    ∃ d ∈ x.declared ++ y.declared, t.declaresLate d = true ∧ d.toDeclared.answers x.reference = true
  /-- Where nothing is declared right under a condition or a loop, the place makes no difference. -/
  uniform : t.root.Blocked → b.IsUniform t

section

variable {s : State} {level : List Placed} {x y : Placed}

/-- In a scope the answer depends on whether the scope has declared the name. -/
theorem State.AnswersLevel.lookup_eq_iff (h : s.AnswersLevel level) (hx : x ∈ level) (hy : y ∈ level)
    (hsame : x.NamesSame y) (hname : x.reference.name ≠ "") :
    s.binding.resolved.lookup x.id = s.binding.resolved.lookup y.id ↔ x.isOwn = y.isOwn := by
  obtain ⟨frame, around, hapart, hanswers⟩ := h
  have hx := hanswers x hx
  have hy := hanswers y hy
  have hname' : y.reference.name ≠ "" := hsame.1 ▸ hname
  cases hownx : x.isOwn <;> cases howny : y.isOwn
  · rw [hx.around hname hownx, hy.around hname' howny, hsame.1, hsame.2]
    simp
  · obtain ⟨index, hindex, hresolved⟩ := hy.own hname' howny
    rw [hx.around hname hownx, hresolved, hsame.1, hsame.2]
    simpa using hapart _ _ _ hindex
  · obtain ⟨index, hindex, hresolved⟩ := hx.own hname hownx
    rw [hy.around hname' howny, hresolved, ← hsame.1, ← hsame.2]
    simpa using fun heq => hapart _ _ _ hindex heq.symm
  · obtain ⟨index, hindex, hresolved⟩ := hx.own hname hownx
    obtain ⟨index', hindex', hresolved'⟩ := hy.own hname' howny
    rw [← hsame.1, ← hsame.2, hindex] at hindex'
    rw [hresolved, hresolved', hindex']
    simp

/-- References to a missing name mean nothing. -/
theorem State.AnswersLevel.lookup_of_missing (h : s.AnswersLevel level) (hx : x ∈ level)
    (hname : x.reference.name = "") : s.binding.resolved.lookup x.id = none := by
  obtain ⟨frame, around, -, hanswers⟩ := h
  exact (hanswers x hx).missing hname

end

/-- Every scope of a file answers its references in place, whichever declarations are in front. -/
theorem answersLevel_ofTree {t : Tree} (ht : IsRead t) {isLate : Declaration → Bool}
    (hvar : ∀ d : Declaration, d.kind = .functionVariable → isLate d = false)
    (h : t.root.outline.Walks (InFront isLate) true .initial ((bindNode t.root).after .initial)) :
    ∀ level ∈ t.root.outline.levels isLate, ((bindNode t.root).after .initial).AnswersLevel level := by
  have hsilent := silent_file ht.formed
  refine answers_levels hvar h ⟨Node.wellMade_outline t.root ht.formed, ht.nodup_ids, fun _ _ => ⟨rfl, rfl⟩, ?_⟩ ?_
  · simp [hsilent.2]
  · simp [State.InRange, State.initial]

/-- Between two references that differ in what their scope has declared, a late declaration makes the
difference. -/
theorem exists_late_of_isOwn_ne {o : Outline Declaration (Referred Place)} (ho : o.WellMade)
    {isLate : Declaration → Bool} {level : List Placed} (hlevel : level ∈ o.levels isLate) {x y : Placed}
    (hx : x ∈ level) (hy : y ∈ level) (hsame : x.NamesSame y) (hne : x.isOwn ≠ y.isOwn) :
    ∃ d ∈ x.declared ++ y.declared, isLate d = true ∧ d.toDeclared.answers x.reference = true := by
  cases hown : x.isOwn with
  | true =>
    rw [hown] at hne
    obtain ⟨d, hd, hlate⟩ := ho.exists_late hlevel hx hy hsame hown (Bool.eq_false_iff.mpr (Ne.symm hne))
    exact ⟨d, List.mem_append_left _ hd, hlate⟩
  | false =>
    rw [hown] at hne
    obtain ⟨d, hd, hlate, hanswers⟩ := ho.exists_late hlevel hy hx ⟨hsame.1.symm, hsame.2.symm⟩
      (Bool.ne_false_iff.mp (Ne.symm hne)) hown
    rw [Names.Declared.answers_iff, ← hsame.1, ← hsame.2, ← Names.Declared.answers_iff] at hanswers
    exact ⟨d, List.mem_append_right _ hd, hlate, hanswers⟩

/-- Where nothing is declared right under a condition or a loop, the place of a reference makes no difference. -/
theorem isUniform_of_blocked {t : Tree} (ht : IsRead t) (hblocked : t.root.Blocked) : (ofTree t).IsUniform t := by
  have hwalks : t.root.outline.Walks (InFront fun _ => false) true .initial ((bindNode t.root).after .initial) := by
    refine (Node.walks_bindNode Node.collects_blocked t.root ⟨ht.formed, hblocked⟩ .initial).mono ?_
    rintro first own rfl
    simp [InFront]
  have hlevels := Outline.map_reference_levels t.root.outline t.declaresLate fun _ => false
  intro level hlevel x hx y hy hsame
  -- the same references with what is declared when all declarations are in front
  have hlevel' : level.map Placed.reference ∈
      (t.root.outline.levels fun _ => false).map (·.map Placed.reference) :=
    hlevels ▸ List.mem_map_of_mem hlevel
  obtain ⟨level', hlevel', heq⟩ := List.mem_map.mp hlevel'
  obtain ⟨x', hx', hxeq⟩ : ∃ x' ∈ level', x'.reference = x.reference :=
    List.mem_map.mp (heq ▸ List.mem_map_of_mem hx)
  obtain ⟨y', hy', hyeq⟩ : ∃ y' ∈ level', y'.reference = y.reference :=
    List.mem_map.mp (heq ▸ List.mem_map_of_mem hy)
  have hsame' : x'.NamesSame y' := by rwa [Placed.NamesSame, hxeq, hyeq]
  have hanswers := answersLevel_ofTree ht (fun _ _ => rfl) hwalks level' hlevel'
  rw [resolvedSymbol?_eq_iff ht, Placed.id, Placed.id, ← hxeq, ← hyeq]
  by_cases hname : x'.reference.name = ""
  · exact (hanswers.lookup_of_missing hx' hname).trans
      (hanswers.lookup_of_missing hy' (hsame'.1 ▸ hname)).symm
  · refine (hanswers.lookup_eq_iff hx' hy' hsame' hname).mpr ?_
    by_contra hne
    obtain ⟨d, -, hlate, -⟩ :=
      exists_late_of_isOwn_ne (Node.wellMade_outline t.root ht.formed) hlevel' hx' hy' hsame' hne
    cases hlate

/-- **References are answered in place.** Whatever a text says, two references of one scope to one name differ
exactly when the scope has declared the name at one of them and not at the other, which a declaration right
under a condition or a loop alone can bring about. -/
theorem answersInPlace_parse (fileName text : String) :
    (ofTree (Tree.parse fileName text)).AnswersInPlace (Tree.parse fileName text) := by
  have ht := isRead_parse fileName text
  have hnumbered := Tree.numbered_parse fileName text
  generalize Tree.parse fileName text = t at ht hnumbered ⊢
  have hwalks := Node.walks_bindNode (Node.collects_front hnumbered) t.root
    ⟨ht.formed, Node.mem_nodes_self _⟩ .initial
  have hvar : ∀ d : Declaration, d.kind = .functionVariable → t.declaresLate d = false := by
    intro d hd
    rw [Tree.declaresLate, hd]
  refine ⟨fun x hx hinitial => ?_, fun level hlevel x hx y hy hsame hname => ?_,
    fun level hlevel x hx y hy => exists_late_of_isOwn_ne (Node.wellMade_outline t.root ht.formed) hlevel hx hy,
    isUniform_of_blocked ht⟩
  · obtain ⟨y, hy, -⟩ | h := Outline.placed_of_mem_occurrences t.root.outline [] hx hinitial
    · rw [Node.direct_file ht.formed] at hy
      exact absurd hy List.not_mem_nil
    · exact h
  · rw [resolvedSymbol?_eq_iff ht]
    exact (answersLevel_ofTree ht hvar hwalks level hlevel).lookup_eq_iff hx hy hsame hname

set_option maxRecDepth 20000 in
/-- A declaration right under a condition is not in front: of the references around it to its name, the one
before it means nothing and the one behind it means what is declared. -/
theorem not_isUniform_let_under_condition :
    (Tree.parse "a.ts" "x; if (1) let x = 1; x;").errors = [] ∧
      ¬ (ofTree (Tree.parse "a.ts" "x; if (1) let x = 1; x;")).IsUniform
        (Tree.parse "a.ts" "x; if (1) let x = 1; x;") := by
  refine ⟨by decide +kernel, fun huniform => ?_⟩
  have hlevels : (Tree.parse "a.ts" "x; if (1) let x = 1; x;").levels.map
      (·.map fun x => (x.id, x.reference.name, x.reference.isType)) = [[(0, "x", false), (8, "x", false)]] := by
    decide +kernel
  have hresolved : (ofTree (Tree.parse "a.ts" "x; if (1) let x = 1; x;")).resolvedSymbol? 0 = none ∧
      ((ofTree (Tree.parse "a.ts" "x; if (1) let x = 1; x;")).resolvedSymbol? 8).isSome = true := by
    constructor <;> decide +kernel
  obtain ⟨level, hlevel, hmap⟩ := List.mem_map.mp (hlevels ▸ List.mem_singleton_self _)
  obtain ⟨x, hx, hx'⟩ := List.mem_map.mp (hmap ▸ List.mem_cons_self)
  obtain ⟨y, hy, hy'⟩ := List.mem_map.mp (hmap ▸ List.mem_cons_of_mem _ List.mem_cons_self)
  simp only [Prod.mk.injEq] at hx' hy'
  have hsame : x.NamesSame y := ⟨hx'.2.1.trans hy'.2.1.symm, hx'.2.2.trans hy'.2.2.symm⟩
  have heq := huniform level hlevel x hx y hy hsame
  rw [hx'.1, hy'.1, hresolved.1] at heq
  rw [← heq] at hresolved
  exact Bool.false_ne_true hresolved.2

end Semantics.Binding

end ScriptAnalysis

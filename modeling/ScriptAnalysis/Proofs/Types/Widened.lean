import ScriptAnalysis.Proofs.Types.Display
import ScriptAnalysis.Proofs.Types.Join

/-!
# Widened types

Literals are widened wherever a type is built from the types of values, so they do not get far: they are the type of
a value or members of it (`Ty.Shallow`), and where such a type is widened no literal is left at any depth
(`Shallow.widen`). A type is assignable to what it is widened to, whether or not null and undefined are types of their
own (`assignable_widen_true`), and what is written for a type without literals has no apostrophe in it
(`Displayable.apostrophe_notMem_chars`), since the names of parameters have none either.
-/

namespace ScriptAnalysis.Ty

/-- No literal occurs in the type, and its parameters have the characters of names in their names. -/
inductive Widened : Ty → Prop where
  /-- The parts of the type are widened, and it is no literal itself. -/
  | mk {t : Ty} (parts : ∀ p ∈ t.parts, Widened p) (literal : t.isLiteral = false)
      (names : ∀ params ret, t = function params ret →
        ∀ p ∈ params, ∀ c ∈ p.name.toList, Lexeme.isNamePart c = true) : Widened t

/-- Literals occur in the type as itself or as members of it, and nowhere else. -/
inductive Shallow : Ty → Prop where
  /-- There are none. -/
  | widened {t : Ty} (h : t.Widened) : Shallow t
  /-- The type is a literal. -/
  | literal {t : Ty} (h : t.isLiteral = true) : Shallow t
  /-- Members of a union are literals. -/
  | union {ts : List Ty} (h : ∀ t ∈ ts, t.isLiteral = true ∨ t.Widened) : Shallow (union ts)

variable {strict : Bool} {s t u : Ty} {ts : List Ty}

/-! ### Forms of types -/

theorem Widened.isLiteral_eq (h : t.Widened) : t.isLiteral = false := by
  cases h with
  | mk _ literal => exact literal

theorem Widened.of_mem_parts (h : t.Widened) (hu : u ∈ t.parts) : u.Widened := by
  cases h with
  | mk parts => exact parts u hu

@[simp] theorem widened_of_isPlain (h : t.isPlain = true) (hliteral : t.isLiteral = false) : t.Widened := by
  refine ⟨?_, hliteral, ?_⟩ <;> cases t <;> first | exact absurd h Bool.false_ne_true | exact nofun

@[simp] theorem widened_array_iff : (array t).Widened ↔ t.Widened :=
  ⟨fun h => h.of_mem_parts (List.mem_singleton_self t), fun h => ⟨List.forall_mem_singleton.mpr h, rfl, nofun⟩⟩

@[simp] theorem widened_union_iff : (Ty.union ts).Widened ↔ ∀ t ∈ ts, t.Widened :=
  ⟨fun h _ ht => h.of_mem_parts ht, fun h => ⟨h, rfl, nofun⟩⟩

@[simp] theorem widened_function_iff {params : List (Param Ty)} {ret : Ty} : (function params ret).Widened ↔
    (∀ p ∈ params, (∀ c ∈ p.name.toList, Lexeme.isNamePart c = true) ∧ p.type.Widened) ∧ ret.Widened := by
  constructor
  · rintro ⟨parts, -, names⟩
    obtain ⟨hparams, hret⟩ := List.forall_mem_append.mp parts
    exact ⟨fun p hp => ⟨names params ret rfl p hp, hparams _ (List.mem_map_of_mem hp)⟩,
      List.forall_mem_singleton.mp hret⟩
  · rintro ⟨hparams, hret⟩
    refine ⟨List.forall_mem_append.mpr ⟨List.forall_mem_map.mpr fun p hp => (hparams p hp).2,
      List.forall_mem_singleton.mpr hret⟩, rfl, fun params' ret' h => ?_⟩
    cases h
    exact fun p hp => (hparams p hp).1

@[simp] theorem widened_object_iff {id : Nat} {name : String} {members : List (String × Ty)} :
    (object id name members).Widened ↔ ∀ m ∈ members, m.2.Widened :=
  ⟨fun h _ hm => h.of_mem_parts (List.mem_map_of_mem hm), fun h => ⟨List.forall_mem_map.mpr h, rfl, nofun⟩⟩

/-- In what is neither a literal nor a union no literal is near the top. -/
theorem Shallow.widened_of_not (h : t.Shallow) (hliteral : t.isLiteral = false) (hunion : ∀ us, t ≠ Ty.union us) :
    t.Widened := by
  cases h with
  | widened h => exact h
  | literal h => rw [hliteral] at h; cases h
  | union => exact absurd rfl (hunion _)

/-! ### Unions -/

/-- The type is among what the types contribute to their union, or it is what truth values are joined to. -/
def Contributed (ts : List Ty) (u : Ty) : Prop := u = boolean ∨ ∃ t ∈ ts, u ∈ t.constituents

/-- What holds of the types that take over or are left where nothing is, of what types contribute and of the unions of
what they contribute holds of the union of the types. -/
theorem unionOf_cases {P : Ty → Prop} (hany : P any) (hunknown : P unknown) (hnever : P never)
    (hone : ∀ u, Contributed ts u → P u) (hmany : ∀ us, (∀ u ∈ us, Contributed ts u) → P (union us)) :
    P (unionOf strict ts) := by
  have hmembers : ∀ u ∈ reduced strict (ts.flatMap constituents), Contributed ts u := fun u hu =>
    (mem_of_mem_steps hu).symm.imp_right List.mem_flatMap.mp
  rw [unionOf_eq, ofConstituents]
  split
  · exact hany
  split
  · exact hunknown
  · unfold ofMembers
    split
    · exact hnever
    · rename_i heq
      exact hone _ (hmembers _ (heq ▸ List.mem_cons_self))
    · exact hmany _ hmembers

theorem Widened.of_mem_constituents (h : t.Widened) (hu : u ∈ t.constituents) : u.Widened := by
  cases t with
  | union members => exact widened_union_iff.mp h u hu
  | never => exact absurd hu List.not_mem_nil
  | _ => exact List.mem_singleton.mp hu ▸ h

theorem Shallow.of_mem_constituents (h : t.Shallow) (hu : u ∈ t.constituents) : u.isLiteral = true ∨ u.Widened := by
  cases h with
  | widened h => exact .inr (h.of_mem_constituents hu)
  | union h => exact h u hu
  | literal h =>
    cases t with
    | numberLiteral | stringLiteral | booleanLiteral => exact .inl (List.mem_singleton.mp hu ▸ h)
    | _ => cases h

theorem widened_of_contributed (h : ∀ t ∈ ts, t.Widened) (hu : Contributed ts u) : u.Widened := by
  rcases hu with rfl | ⟨t, ht, hu⟩
  · exact widened_of_isPlain rfl rfl
  · exact (h t ht).of_mem_constituents hu

/-- A union of widened types is widened. -/
theorem widened_unionOf (h : ∀ t ∈ ts, t.Widened) : (unionOf strict ts).Widened := by
  apply unionOf_cases
  · exact widened_of_isPlain rfl rfl
  · exact widened_of_isPlain rfl rfl
  · exact widened_of_isPlain rfl rfl
  · exact fun u hu => widened_of_contributed h hu
  · exact fun us hus => widened_union_iff.mpr fun u hu => widened_of_contributed h (hus u hu)

theorem isLiteral_or_widened_of_contributed (h : ∀ t ∈ ts, t.Shallow) (hu : Contributed ts u) :
    u.isLiteral = true ∨ u.Widened := by
  rcases hu with rfl | ⟨t, ht, hu⟩
  · exact .inr (widened_of_isPlain rfl rfl)
  · exact (h t ht).of_mem_constituents hu

/-- In a union literals stay near the top. -/
theorem shallow_unionOf (h : ∀ t ∈ ts, t.Shallow) : (unionOf strict ts).Shallow := by
  apply unionOf_cases
  · exact .widened (widened_of_isPlain rfl rfl)
  · exact .widened (widened_of_isPlain rfl rfl)
  · exact .widened (widened_of_isPlain rfl rfl)
  · exact fun u hu => (isLiteral_or_widened_of_contributed h hu).elim .literal .widened
  · exact fun us hus => .union fun u hu => isLiteral_or_widened_of_contributed h (hus u hu)

/-! ### Widening -/

theorem widened_widen_of_isLiteral (h : t.isLiteral = true) : (t.widen strict).Widened := by
  cases t with
  | numberLiteral | stringLiteral | booleanLiteral => exact widened_of_isPlain rfl rfl
  | _ => cases h

theorem Widened.widen (h : t.Widened) : (t.widen strict).Widened := by
  induction h with
  | @mk t parts literal names ih =>
    cases t with
    | union ts =>
      rw [Ty.widen, widenList_eq_map]
      exact widened_unionOf (List.forall_mem_map.mpr ih)
    | null | undefined =>
      rw [Ty.widen]
      split <;> exact widened_of_isPlain rfl rfl
    | numberLiteral | stringLiteral | booleanLiteral => cases literal
    | _ => exact ⟨parts, literal, names⟩

/-- **Widening leaves no literal** in a type that has them near the top. -/
theorem Shallow.widen (h : t.Shallow) : (t.widen strict).Widened := by
  cases h with
  | widened h => exact h.widen
  | literal h => exact widened_widen_of_isLiteral h
  | union h =>
    rw [Ty.widen, widenList_eq_map]
    exact widened_unionOf (List.forall_mem_map.mpr fun t ht => (h t ht).elim widened_widen_of_isLiteral Widened.widen)

theorem Shallow.widenNullish (h : t.Shallow) : (t.widenNullish strict).Shallow := by
  rw [Ty.widenNullish]
  split
  · exact .widened (widened_of_isPlain rfl rfl)
  · exact h

/-- With null and undefined as types of their own, widening takes literals to the types they belong to and changes
nothing else that is no union. -/
theorem widen_true_of_ne_union (h : ∀ us, t ≠ union us) : t.widen true = t.base := by
  cases t with
  | union us => exact absurd rfl (h us)
  | _ => rfl

theorem assignable_base (strict : Bool) (t : Ty) : t.assignable strict t.base = true := by
  cases hliteral : t.isLiteral with
  | true => exact (Fits.literal hliteral rfl).assignable
  | false =>
    have hbase : t.base = t := by cases t <;> first | rfl | cases hliteral
    rw [hbase]
    exact assignable_self strict t

/-- What is no union is assignable to the union of what it and others belong to. -/
theorem assignable_unionOf_base (ht : t ∈ ts) (hunion : ∀ us, t ≠ union us) :
    t.assignable strict (unionOf true (ts.map base)) = true := by
  by_cases hnever : t = never
  · subst hnever
    exact assignable_of_isLeast rfl
  have hmem : t.base ∈ (ts.map base).flatMap constituents := by
    refine List.mem_flatMap.mpr ⟨t.base, List.mem_map_of_mem ht, ?_⟩
    cases t with
    | union us => exact absurd rfl (hunion us)
    | never => exact absurd rfl hnever
    | _ => exact List.mem_singleton_self _
  rw [unionOf_eq, ofConstituents]
  split
  · exact assignable_of_isGreatest rfl
  split
  · exact assignable_of_isGreatest rfl
  · have hreduced : t.base ∈ reduced true ((ts.map base).flatMap constituents) := by
      have hnot : t.base.isLiteral ≠ true := by simp [isLiteral_base]
      exact mem_reduced_iff.mpr ⟨.inl hmem, fun h => absurd h hnot, fun h => absurd h.symm Bool.false_ne_true⟩
    exact assignable_ofMembers_of_mem hreduced (assignable_base _ t)

/-- **A type is assignable to what it is widened to**, if unions have no unions as members. -/
theorem assignable_widen_true (h : ∀ ts, t = union ts → ∀ u ∈ ts, ∀ us, u ≠ union us) :
    t.assignable strict (t.widen true) = true := by
  obtain ⟨ts, rfl⟩ | hunion := eq_union_or t
  · have hwiden : (union ts).widen true = unionOf true (ts.map base) := by
      rw [Ty.widen, widenList_eq_map]
      exact congrArg _ (List.map_congr_left fun u hu => widen_true_of_ne_union (h ts rfl u hu))
    rw [hwiden]
    exact assignable_union_left.mpr fun u hu => assignable_unionOf_base hu (h ts rfl u hu)
  · rw [widen_true_of_ne_union hunion]
    exact assignable_base strict t

/-! ### Written forms -/

/-- What is normal is so too where null and undefined are types of their own. -/
theorem Normal.strictly (h : t.Normal strict) : t.Normal true := by
  induction h with
  | mk parts members ih =>
    refine ⟨ih, fun ts ht => ?_⟩
    obtain ⟨htwo, hnodup, hsettled⟩ := members ts ht
    exact ⟨htwo, hnodup, hsettled.isMember, hsettled.base_not_mem, hsettled.booleans, nofun⟩

/-- A normal type without literals, with objects of the environment, is told apart by its written form. -/
theorem Widened.displayable {globals : Semantics.Globals} (h : t.Widened) (hnormal : t.Normal strict)
    (hobjects : globals.Knows t) : t.Displayable globals := by
  induction h with
  | @mk t parts literal names ih =>
    cases t with
    | array e =>
      exact .array (ih e (List.mem_singleton_self e) (normal_array_iff.mp hnormal) (objectsAre_array_iff.mp hobjects))
    | union ts =>
      obtain ⟨⟨htwo, -, hsettled⟩, hmembers⟩ := normal_union_iff.mp hnormal
      exact .union htwo (fun t ht => (hsettled.isMember t ht).ne_union)
        fun t ht => ih t ht (hmembers t ht) (objectsAre_union_iff.mp hobjects t ht)
    | function params ret =>
      obtain ⟨hparams, hret⟩ := normal_function_iff.mp hnormal
      obtain ⟨hparams', hret'⟩ := objectsAre_function_iff.mp hobjects
      refine .function (names params ret rfl) (fun p hp => ?_) ?_
      · exact ih _ (List.mem_append_left _ (List.mem_map_of_mem hp)) (hparams p hp) (hparams' p hp)
      · exact ih _ (List.mem_append_right _ (List.mem_singleton_self ret)) hret hret'
    | object id name members => exact .object (objectsAre_object_iff.mp hobjects).1
    | numberLiteral | stringLiteral | booleanLiteral => cases literal
    | _ => exact .plain rfl nofun

theorem mem_barredChars {c : Char} (h : c ∈ barredChars ts) : c ∈ [' ', '|'] ∨ ∃ t ∈ ts, c ∈ t.elementChars := by
  cases ts with
  | nil => exact absurd h List.not_mem_nil
  | cons t ts =>
    simp only [barredChars, List.mem_append, List.mem_flatMap, List.mem_cons] at h
    grind

theorem mem_paramsChars {c : Char} {params : List (Param Ty)} (h : c ∈ paramsChars params) :
    c ∈ [',', ' '] ∨ ∃ p ∈ params, c ∈ paramHead p ∨ c ∈ p.type.chars := by
  cases params with
  | nil => exact absurd h List.not_mem_nil
  | cons p ps =>
    simp only [paramsChars, List.mem_append, List.mem_flatMap, List.mem_cons] at h
    grind

theorem apostrophe_notMem_elementChars (h : '\'' ∉ t.chars) : '\'' ∉ t.elementChars := by
  rw [elementChars, toList_parenthesized]
  split
  · simpa [chars] using h
  · exact h

theorem apostrophe_notMem_paramHead {p : Param Ty} (h : ∀ c ∈ p.name.toList, Lexeme.isNamePart c = true) :
    '\'' ∉ paramHead p := by
  have hname : '\'' ∉ p.name.toList := fun hc => absurd (h _ hc) (by decide)
  unfold paramHead
  cases p.rest <;> cases p.optional <;> simp [hname]

theorem isWordText_apostrophe {w : List Char} (h : isWordText w = true) : '\'' ∉ w :=
  fun hc => absurd ((isWordText_iff.mp h).2 _ hc) (by decide)

/-- **What is written for a type without literals has no apostrophe in it.** -/
theorem Displayable.apostrophe_notMem_chars {libs : List Config.Lib}
    (h : t.Displayable (Semantics.Globals.ofLibs libs)) (hwidened : t.Widened) : '\'' ∉ t.chars := by
  induction h with
  | @plain t hplain =>
    have hliteral := hwidened.isLiteral_eq
    cases t with
    | array | union | function | object => cases hplain
    | numberLiteral | stringLiteral | booleanLiteral => cases hliteral
    | _ => simp [chars, display]
  | @array t _ ih =>
    have helement := apostrophe_notMem_elementChars (ih (widened_array_iff.mp hwidened))
    rw [chars_array]
    simp [helement]
  | union _ hunion _ ih =>
    rw [chars_union hunion]
    intro hc
    rcases mem_barredChars hc with hc | ⟨u, hu, hc⟩
    · exact absurd hc (by decide)
    · exact apostrophe_notMem_elementChars (ih u hu (hwidened.of_mem_parts hu)) hc
  | @function params ret hnames _ _ ihparams ihret =>
    obtain ⟨hparams, hret⟩ := widened_function_iff.mp hwidened
    have hnot : '\'' ∉ paramsChars params := by
      intro hc
      rcases mem_paramsChars hc with hc | ⟨p, hp, hc | hc⟩
      · exact absurd hc (by decide)
      · exact apostrophe_notMem_paramHead (hnames p hp) hc
      · exact ihparams p hp (hparams p hp).2 hc
    rw [chars_function]
    simp [hnot, ihret hret]
  | object h =>
    rw [chars, display_object]
    exact isWordText_apostrophe (isWordText_of_mem_objectNames _ (mem_objectNames h))

end ScriptAnalysis.Ty

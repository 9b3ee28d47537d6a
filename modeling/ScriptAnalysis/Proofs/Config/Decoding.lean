import Mathlib.Data.List.Forall2
import ScriptAnalysis.Config.Options

/-!
# Decoding of configurations

What a configuration is accepted as is said here without looking at how it is read. A value *takes*
the shape of a setting or it does not, a checked value is *written as* the values that spell it up to
the case of ASCII letters, and an entry that is wrong is wrong in one way (`Complaint`). A
configuration *writes* options when its names are known and, setting by setting, what stands under the
name of the setting is the option or, where nothing or null stands there, the option is the default
(`Config.Writes`).

Reading one entry either changes one option or complains, whatever the options were before
(`applyField_eq_ok_iff`, `applyField_eq_error_iff`), so a whole configuration is read by induction on
its entries: it is decoded to the options that it writes and to no others, and else the complaint is
about the first entry, in the order of the names, that is wrong (`Decodes`).
-/

namespace ScriptAnalysis.Config

/-! ### The first that fails -/

section Failing

variable {α β ε σ : Type}

/-- Among some elements the first that is not good is bad in this way. -/
def FirstBad (Good : α → Prop) (Bad : α → ε → Prop) (xs : List α) (e : ε) : Prop :=
  ∃ before x after, xs = before ++ x :: after ∧ (∀ y ∈ before, Good y) ∧ Bad x e

variable {Good : α → Prop} {Bad : α → ε → Prop}

theorem not_firstBad_nil (e : ε) : ¬ FirstBad Good Bad [] e := by
  rintro ⟨before, x, after, h, -⟩
  simp at h

theorem firstBad_cons_iff (x : α) (xs : List α) (e : ε) :
    FirstBad Good Bad (x :: xs) e ↔ Bad x e ∨ Good x ∧ FirstBad Good Bad xs e := by
  constructor
  · rintro ⟨before, y, after, h, hgood, hbad⟩
    cases before with
    | nil =>
      obtain ⟨rfl, rfl⟩ := List.cons.inj h
      exact .inl hbad
    | cons z before =>
      obtain ⟨rfl, rfl⟩ := List.cons.inj h
      exact .inr ⟨hgood _ List.mem_cons_self, before, y, after, rfl,
        fun y hy => hgood y (List.mem_cons_of_mem _ hy), hbad⟩
  · rintro (hbad | ⟨hgood, before, y, after, rfl, hbefore, hbad⟩)
    · exact ⟨[], x, xs, rfl, by simp, hbad⟩
    · refine ⟨x :: before, y, after, rfl, ?_, hbad⟩
      simpa using ⟨hgood, hbefore⟩

theorem map_eq_ok_iff (f : α → β) (x : Except ε α) (b : β) :
    f <$> x = .ok b ↔ ∃ a, x = .ok a ∧ f a = b := by
  cases x <;> simp [Functor.map, Except.map]

theorem map_eq_error_iff (f : α → β) (x : Except ε α) (e : ε) : f <$> x = .error e ↔ x = .error e := by
  cases x <;> simp [Functor.map, Except.map]

theorem bind_eq_ok_iff (x : Except ε α) (f : α → Except ε β) (b : β) :
    x >>= f = .ok b ↔ ∃ a, x = .ok a ∧ f a = .ok b := by
  cases x <;> simp [bind, Except.bind]

theorem bind_eq_error_iff (x : Except ε α) (f : α → Except ε β) (e : ε) :
    x >>= f = .error e ↔ x = .error e ∨ ∃ a, x = .ok a ∧ f a = .error e := by
  cases x <;> simp [bind, Except.bind]

/-- A list is mapped when each of its elements is. -/
theorem mapM_eq_ok_iff (f : α → Except ε β) (xs : List α) (ys : List β) :
    xs.mapM f = .ok ys ↔ List.Forall₂ (fun x y => f x = .ok y) xs ys := by
  induction xs generalizing ys with
  | nil => cases ys <;> simp [pure, Except.pure]
  | cons x xs ih =>
    simp only [List.mapM_cons, bind_eq_ok_iff, pure, Except.pure, Except.ok.injEq, ih,
      List.forall₂_cons_left_iff]
    grind

/-- A list that is not mapped fails with the error of the first element that fails. -/
theorem mapM_eq_error_iff (f : α → Except ε β) (xs : List α) (e : ε) :
    xs.mapM f = .error e ↔
      FirstBad (fun x => ∃ y, f x = .ok y) (fun x e => f x = .error e) xs e := by
  induction xs with
  | nil => simp [not_firstBad_nil, pure, Except.pure]
  | cons x xs ih =>
    simp only [List.mapM_cons, bind_eq_error_iff, firstBad_cons_iff, pure, Except.pure, ih]
    grind

variable {step : σ → α → Except ε σ}

/-- A run through a list whose steps fail or not whatever the state is succeeds when each element is
good. -/
theorem foldlM_succeeds_iff (hstep : ∀ s x, (∃ s', step s x = .ok s') ↔ Good x) (xs : List α) (s : σ) :
    (∃ s', xs.foldlM step s = .ok s') ↔ ∀ x ∈ xs, Good x := by
  induction xs generalizing s with
  | nil => simp [pure, Except.pure]
  | cons x xs ih =>
    simp only [List.foldlM_cons, bind_eq_ok_iff, List.forall_mem_cons, ← hstep s x]
    constructor
    · rintro ⟨s₂, s₁, h₁, h₂⟩
      exact ⟨⟨s₁, h₁⟩, (ih s₁).1 ⟨s₂, h₂⟩⟩
    · rintro ⟨⟨s₁, h₁⟩, hxs⟩
      obtain ⟨s₂, h₂⟩ := (ih s₁).2 hxs
      exact ⟨s₂, s₁, h₁, h₂⟩

/-- Such a run fails with the error of the first element that fails. -/
theorem foldlM_eq_error_iff (hgood : ∀ s x, (∃ s', step s x = .ok s') ↔ Good x)
    (hbad : ∀ s x e, step s x = .error e ↔ Bad x e) (xs : List α) (s : σ) (e : ε) :
    xs.foldlM step s = .error e ↔ FirstBad Good Bad xs e := by
  induction xs generalizing s with
  | nil => simp [not_firstBad_nil, pure, Except.pure]
  | cons x xs ih =>
    simp only [List.foldlM_cons, bind_eq_error_iff, firstBad_cons_iff, hbad, ih, ← hgood s x]
    grind

end Failing

/-! ### Words -/

section Words

variable {α : Type} [Choice α]

/-- The value is the word of a choice, up to the case of ASCII letters. -/
def Spells (value : Value) (a : α) : Prop :=
  ∃ word, value = .string word ∧ folded word = folded (Choice.spelling a)

/-- The value is one of some words, up to the case of ASCII letters. -/
def IsWordOf (names : List String) (value : Value) : Prop :=
  ∃ word, value = .string word ∧ ∃ name ∈ names, folded word = folded name

/-- A choice whose words are distinct up to case: a word chooses at most one value. -/
class LawfulChoice (α : Type) [Choice α] : Prop where
  /-- A word chooses the value whose word it is. -/
  ofName?_eq_some_iff : ∀ word (a : α),
    Choice.ofName? α word = some a ↔ folded (Choice.spelling a) = folded word

instance : LawfulChoice Target := ⟨Target.ofName?_eq_some_iff⟩

instance : LawfulChoice ModuleKind := ⟨ModuleKind.ofName?_eq_some_iff⟩

instance : LawfulChoice Lib := ⟨Lib.ofName?_eq_some_iff⟩

instance : LawfulChoice Jsx := ⟨Jsx.ofName?_eq_some_iff⟩

/-- A word chooses nothing exactly when it is none of the words. -/
theorem ofName?_eq_none_iff (word : String) :
    Choice.ofName? α word = none ↔ ¬ IsWordOf (Choice.names α) (.string word) := by
  simp only [Choice.ofName?, List.find?_eq_none, beq_iff_eq, IsWordOf, Value.string.injEq,
    exists_eq_left', Choice.names, List.mem_map, not_exists, not_and, forall_exists_index, and_imp,
    forall_apply_eq_imp_iff₂, eq_comm (a := folded word)]

variable [LawfulChoice α]

theorem isWordOf_names_iff (value : Value) :
    IsWordOf (Choice.names α) value ↔ ∃ a : α, Spells value a := by
  constructor
  · rintro ⟨word, rfl, name, hname, h⟩
    obtain ⟨a, -, rfl⟩ := List.mem_map.1 hname
    exact ⟨a, word, rfl, h⟩
  · rintro ⟨a, word, rfl, h⟩
    have hmem : a ∈ Choice.all (α := α) :=
      List.mem_of_find?_eq_some ((LawfulChoice.ofName?_eq_some_iff _ a).2 rfl)
    exact ⟨word, rfl, _, List.mem_map_of_mem hmem, h⟩

end Words

/-! ### What may stand under the name of a setting -/

/-- A value has the shape that a setting needs. -/
def ValueShape.Takes : ValueShape → Value → Prop
  | .boolean, value => ∃ b, value = .bool b
  | .word names, value => IsWordOf names value
  | .words names, value => ∃ items, value = .list items ∧ ∀ item ∈ items, IsWordOf names item

/-- An entry names a setting, and its value is null or has the shape that the setting needs. -/
def Acceptable (entry : String × Value) : Prop :=
  ∃ s : Setting, entry.1 = s.name ∧ (entry.2 = .null ∨ s.shape.Takes entry.2)

/-- What is wrong with a value where one word of a set is needed. -/
inductive WordComplaint (s : Setting) (names : List String) : Value → Error → Prop where
  /-- It is no string. -/
  | type {value : Value} (h : ∀ word, value ≠ .string word) :
    WordComplaint s names value (.expectedType s "string")
  /-- It is a string that is none of the words. -/
  | word {word : String} (h : ∀ name ∈ names, folded word ≠ folded name) :
    WordComplaint s names (.string word) (.invalidValue s word names)

/-- What is wrong with a value of a setting. -/
inductive ValueComplaint (s : Setting) : Value → Error → Prop where
  /-- The setting needs a truth value. -/
  | boolean {value : Value} (hs : s.shape = .boolean) (h : ∀ b, value ≠ .bool b) :
    ValueComplaint s value (.expectedType s "boolean")
  /-- The setting needs a word. -/
  | word {names : List String} {value : Value} {e : Error} (hs : s.shape = .word names)
    (h : WordComplaint s names value e) : ValueComplaint s value e
  /-- The setting needs a list. -/
  | list {names : List String} {value : Value} (hs : s.shape = .words names)
    (h : ∀ items, value ≠ .list items) : ValueComplaint s value (.expectedType s "list")
  /-- The first element of the list that is no word of the set is wrong. -/
  | item {names : List String} {items : List Value} {e : Error} (hs : s.shape = .words names)
    (h : FirstBad (IsWordOf names) (WordComplaint s names) items e) : ValueComplaint s (.list items) e

/-- What is wrong with an entry. A name that is not known is wrong whatever its value is, and null is a
value for every name that is known. -/
inductive Complaint : String × Value → Error → Prop where
  /-- No setting has the name. -/
  | name {name : String} {value : Value} (h : ∀ s : Setting, name ≠ s.name) :
    Complaint (name, value) (.unknownOption name)
  /-- The value is not one that the setting can have. -/
  | value {s : Setting} {value : Value} {e : Error} (hnull : value ≠ .null) (h : ValueComplaint s value e) :
    Complaint (s.name, value) e

/-! ### What a value says -/

namespace SettingValue

/-- The setting that a checked value belongs to. -/
def setting : SettingValue → Setting
  | target _ => .target
  | moduleKind _ => .moduleKind
  | lib _ => .lib
  | jsx _ => .jsx
  | strict _ => .strict
  | strictNullChecks _ => .strictNullChecks
  | noImplicitAny _ => .noImplicitAny
  | allowUnreachableCode _ => .allowUnreachableCode

/-- The value spells the checked value; a list spells its elements in order. -/
def WrittenAs : SettingValue → Value → Prop
  | target t, value => Spells value t
  | moduleKind m, value => Spells value m
  | lib libs, value => ∃ items, value = .list items ∧ List.Forall₂ Spells items libs
  | jsx j, value => Spells value j
  | strict b, value => value = .bool b
  | strictNullChecks b, value => value = .bool b
  | noImplicitAny b, value => value = .bool b
  | allowUnreachableCode b, value => value = .bool b

end SettingValue

namespace Setting

variable {s : Setting} {α : Type} [Choice α]

theorem boolean_eq_ok_iff (value : Value) (b : Bool) : s.boolean value = .ok b ↔ value = .bool b := by
  cases value <;> simp [boolean]

theorem boolean_eq_error_iff (value : Value) (e : Error) :
    s.boolean value = .error e ↔ (∀ b, value ≠ .bool b) ∧ e = .expectedType s "boolean" := by
  cases value <;> simp [boolean, eq_comm]

theorem choice_eq_error_iff (value : Value) (e : Error) :
    s.choice α value = .error e ↔ WordComplaint s (Choice.names α) value e := by
  constructor
  · intro h
    cases value with
    | string word =>
      simp only [choice] at h
      split at h
      · cases h
      · next hnone =>
        obtain rfl := (Except.error.inj h).symm
        refine .word fun name hname heq => (ofName?_eq_none_iff word).1 hnone ?_
        exact ⟨word, rfl, name, hname, heq⟩
    | _ =>
      obtain rfl := (Except.error.inj h).symm
      exact .type (by simp)
  · rintro (⟨hvalue⟩ | ⟨hword⟩)
    · cases value <;> simp_all [choice]
    · next word =>
      have hnone : Choice.ofName? α word = none := by
        rw [ofName?_eq_none_iff]
        rintro ⟨_, hstring, name, hname, heq⟩
        cases hstring
        exact hword name hname heq
      simp only [choice, hnone]

variable [LawfulChoice α]

theorem choice_eq_ok_iff (value : Value) (a : α) : s.choice α value = .ok a ↔ Spells value a := by
  cases value with
  | string word =>
    have hname := LawfulChoice.ofName?_eq_some_iff word a
    simp only [choice, Spells, Value.string.injEq, exists_eq_left', eq_comm (a := folded word), ← hname]
    cases Choice.ofName? α word <;> simp
  | _ => simp [choice, Spells]

theorem choices_eq_ok_iff (value : Value) (as : List α) :
    s.choices α value = .ok as ↔ ∃ items, value = .list items ∧ List.Forall₂ Spells items as := by
  cases value with
  | list items => simp [choices, mapM_eq_ok_iff, choice_eq_ok_iff]
  | _ => simp [choices]

theorem choices_eq_error_iff (value : Value) (e : Error) :
    s.choices α value = .error e ↔
      (∀ items, value ≠ .list items) ∧ e = .expectedType s "list" ∨
        ∃ items, value = .list items ∧
          FirstBad (IsWordOf (Choice.names α)) (WordComplaint s (Choice.names α)) items e := by
  cases value with
  | list items =>
    simp [choices, mapM_eq_error_iff, choice_eq_ok_iff, choice_eq_error_iff, ← isWordOf_names_iff]
  | _ => simp [choices, eq_comm]

/-- A value is converted to what it spells for the setting. -/
theorem convert_eq_ok_iff (s : Setting) (value : Value) (v : SettingValue) :
    s.convert value = .ok v ↔ v.setting = s ∧ v.WrittenAs value := by
  cases s <;> simp only [convert, map_eq_ok_iff, choice_eq_ok_iff, choices_eq_ok_iff, boolean_eq_ok_iff]
    <;> cases v <;> simp [SettingValue.setting, SettingValue.WrittenAs]

/-- A value that is not converted is wrong in the way that the error says. -/
theorem convert_eq_error_iff (s : Setting) (value : Value) (e : Error) :
    s.convert value = .error e ↔ ValueComplaint s value e := by
  constructor
  · intro h
    cases s
    all_goals
      simp only [convert, map_eq_error_iff, choice_eq_error_iff, choices_eq_error_iff,
        boolean_eq_error_iff] at h
    case target | moduleKind | jsx => exact .word rfl h
    case lib =>
      rcases h with ⟨hlist, rfl⟩ | ⟨items, rfl, hfirst⟩
      · exact .list rfl hlist
      · exact .item rfl hfirst
    all_goals
      obtain ⟨hbool, rfl⟩ := h
      exact .boolean rfl hbool
  · intro h
    cases s
    all_goals
      simp only [convert, map_eq_error_iff, choice_eq_error_iff, choices_eq_error_iff,
        boolean_eq_error_iff]
      cases h <;> simp_all [shape]

theorem name_inj {s s' : Setting} : s.name = s'.name ↔ s = s' :=
  ⟨fun h => Option.some.inj (((ofName?_eq_some_iff _ s).2 rfl).symm.trans ((ofName?_eq_some_iff _ s').2 h)),
    fun h => h ▸ rfl⟩

/-- A value has the shape of a setting exactly when it spells a value of the setting. -/
theorem takes_shape_iff (s : Setting) (value : Value) :
    s.shape.Takes value ↔ ∃ v : SettingValue, v.setting = s ∧ v.WrittenAs value := by
  have hwords : ∀ items : List Value, (∀ item ∈ items, ∃ l : Lib, Spells item l) ↔
      ∃ libs : List Lib, List.Forall₂ Spells items libs := by
    intro items
    induction items with
    | nil => simp
    | cons item items ih =>
      simp only [List.forall_mem_cons, ih, List.forall₂_cons_left_iff]
      grind
  constructor
  · intro h
    cases s with
    | target => exact (isWordOf_names_iff value).1 h |>.imp' .target fun _ ht => ⟨rfl, ht⟩
    | moduleKind => exact (isWordOf_names_iff value).1 h |>.imp' .moduleKind fun _ hm => ⟨rfl, hm⟩
    | lib =>
      obtain ⟨items, hitems, h⟩ := h
      obtain ⟨libs, h⟩ := (hwords items).1 fun item hitem => (isWordOf_names_iff item).1 (h item hitem)
      exact ⟨.lib libs, rfl, items, hitems, h⟩
    | jsx => exact (isWordOf_names_iff value).1 h |>.imp' .jsx fun _ hj => ⟨rfl, hj⟩
    | strict => exact h.imp' .strict fun _ hb => ⟨rfl, hb⟩
    | strictNullChecks => exact h.imp' .strictNullChecks fun _ hb => ⟨rfl, hb⟩
    | noImplicitAny => exact h.imp' .noImplicitAny fun _ hb => ⟨rfl, hb⟩
    | allowUnreachableCode => exact h.imp' .allowUnreachableCode fun _ hb => ⟨rfl, hb⟩
  · rintro ⟨v, rfl, h⟩
    cases v with
    | target t => exact (isWordOf_names_iff value).2 ⟨t, h⟩
    | moduleKind m => exact (isWordOf_names_iff value).2 ⟨m, h⟩
    | lib libs =>
      obtain ⟨items, hitems, h⟩ := h
      refine ⟨items, hitems, fun item hitem => (isWordOf_names_iff item).2 ?_⟩
      exact (hwords items).2 ⟨libs, h⟩ item hitem
    | jsx j => exact (isWordOf_names_iff value).2 ⟨j, h⟩
    | strict b | strictNullChecks b | noImplicitAny b | allowUnreachableCode b => exact ⟨b, h⟩

end Setting

/-! ### One entry -/

namespace Options

/-- What the options say of a setting, where they say anything. -/
def get? (o : Options) : Setting → Option SettingValue
  | .target => some (.target o.target)
  | .moduleKind => o.moduleKind?.map .moduleKind
  | .lib => o.libs?.map .lib
  | .jsx => o.jsx?.map .jsx
  | .strict => some (.strict o.strict)
  | .strictNullChecks => o.strictNullChecks?.map .strictNullChecks
  | .noImplicitAny => o.noImplicitAny?.map .noImplicitAny
  | .allowUnreachableCode => o.allowUnreachableCode?.map .allowUnreachableCode

variable {o o' : Options} {s : Setting} {v : SettingValue}

theorem setting_of_get?_eq_some (h : o.get? s = some v) : v.setting = s := by
  cases s <;> simp [get?] at h <;> grind [SettingValue.setting]

/-- Options are what they say of the settings. -/
theorem eq_of_get?_eq (h : ∀ s, o.get? s = o'.get? s) : o = o' := by
  have htarget := SettingValue.target.inj (Option.some.inj (h .target))
  have hstrict := SettingValue.strict.inj (Option.some.inj (h .strict))
  have hmodule := Option.map_injective (fun _ _ => SettingValue.moduleKind.inj) (h .moduleKind)
  have hlib := Option.map_injective (fun _ _ => SettingValue.lib.inj) (h .lib)
  have hjsx := Option.map_injective (fun _ _ => SettingValue.jsx.inj) (h .jsx)
  have hnull := Option.map_injective (fun _ _ => SettingValue.strictNullChecks.inj) (h .strictNullChecks)
  have hany := Option.map_injective (fun _ _ => SettingValue.noImplicitAny.inj) (h .noImplicitAny)
  have hcode :=
    Option.map_injective (fun _ _ => SettingValue.allowUnreachableCode.inj) (h .allowUnreachableCode)
  cases o
  cases o'
  simp_all

/-- A value that is set changes what the options say of its setting, and of no other one. -/
theorem get?_apply (o : Options) (v : SettingValue) (s : Setting) :
    (o.apply v).get? s = if s = v.setting then some v else o.get? s := by
  cases v <;> cases s <;> rfl

/-- What a setting is `after` reading what stands under its name, when it was `before`: a value spells
it, and nothing or null leaves it as it was. -/
def Reads (before after : Option SettingValue) : Option Value → Prop
  | none | some .null => after = before
  | some value => ∃ v, after = some v ∧ v.WrittenAs value

theorem reads_some_iff {before after : Option SettingValue} {value : Value} (h : value ≠ .null) :
    Reads before after (some value) ↔ ∃ v, after = some v ∧ v.WrittenAs value := by
  cases value <;> simp_all [Reads]

theorem applyField_name (o : Options) (s : Setting) {value : Value} (h : value ≠ .null) :
    o.applyField (s.name, value) = o.apply <$> s.convert value := by
  simp only [applyField, (Setting.ofName?_eq_some_iff _ s).2 rfl]

theorem applyField_null (o : Options) (s : Setting) : o.applyField (s.name, .null) = .ok o := by
  simp only [applyField, (Setting.ofName?_eq_some_iff _ s).2 rfl]

/-- An entry changes what the options say of its setting to what its value says, and of no other
setting. -/
theorem applyField_eq_ok_iff (o o' : Options) (s : Setting) (value : Value) :
    o.applyField (s.name, value) = .ok o' ↔
      Reads (o.get? s) (o'.get? s) (some value) ∧ ∀ s', s' ≠ s → o'.get? s' = o.get? s' := by
  by_cases hnull : value = .null
  · subst hnull
    rw [applyField_null, Except.ok.injEq]
    constructor
    · rintro rfl
      exact ⟨rfl, fun _ _ => rfl⟩
    · rintro ⟨hs, hother⟩
      refine eq_of_get?_eq fun s' => ?_
      by_cases h : s' = s
      · exact h ▸ hs.symm
      · exact (hother s' h).symm
  · simp only [applyField_name o s hnull, map_eq_ok_iff, Setting.convert_eq_ok_iff, reads_some_iff hnull]
    constructor
    · rintro ⟨v, ⟨rfl, hv⟩, rfl⟩
      exact ⟨⟨v, by simp [get?_apply], hv⟩, fun s' h => by simp [get?_apply, h]⟩
    · rintro ⟨⟨v, hs, hv⟩, hother⟩
      have hsetting := setting_of_get?_eq_some hs
      refine ⟨v, ⟨hsetting, hv⟩, eq_of_get?_eq fun s' => ?_⟩
      rw [get?_apply, hsetting]
      split
      · next h => rw [h, hs]
      · next h => exact (hother s' h).symm

/-- An entry is read, whatever the options are, when it is acceptable. -/
theorem applyField_succeeds_iff (o : Options) (entry : String × Value) :
    (∃ o', o.applyField entry = .ok o') ↔ Acceptable entry := by
  obtain ⟨name, value⟩ := entry
  cases hname : Setting.ofName? name with
  | none =>
    have hunknown : ∀ s : Setting, name ≠ s.name := by
      intro s hs
      simp [(Setting.ofName?_eq_some_iff name s).2 hs] at hname
    simp [applyField, hname, Acceptable, hunknown]
  | some s =>
    obtain rfl := (Setting.ofName?_eq_some_iff name s).1 hname
    have hself : Acceptable (s.name, value) ↔ value = .null ∨ s.shape.Takes value := by
      constructor
      · rintro ⟨s', hs', h⟩
        obtain rfl := Setting.name_inj.1 hs'
        exact h
      · exact fun h => ⟨s, rfl, h⟩
    rw [hself]
    by_cases hnull : value = .null
    · subst hnull
      simp [applyField_null]
    · simp [applyField_name o s hnull, map_eq_ok_iff, Setting.convert_eq_ok_iff, Setting.takes_shape_iff, hnull]

/-- An entry that is not read, whatever the options are, is wrong in the way that the error says. -/
theorem applyField_eq_error_iff (o : Options) (entry : String × Value) (e : Error) :
    o.applyField entry = .error e ↔ Complaint entry e := by
  obtain ⟨name, value⟩ := entry
  constructor
  · intro h
    cases hname : Setting.ofName? name with
    | none =>
      simp only [applyField, hname, Except.error.injEq] at h
      subst h
      refine .name fun s hs => ?_
      simp [(Setting.ofName?_eq_some_iff name s).2 hs] at hname
    | some s =>
      obtain rfl := (Setting.ofName?_eq_some_iff name s).1 hname
      have hnull : value ≠ .null := by
        rintro rfl
        simp [applyField_null] at h
      rw [applyField_name o s hnull, map_eq_error_iff, Setting.convert_eq_error_iff] at h
      exact .value hnull h
  · rintro (⟨hunknown⟩ | ⟨hnull, h⟩)
    · have hname : Setting.ofName? name = none :=
        Option.eq_none_iff_forall_ne_some.2 fun s hs => hunknown s ((Setting.ofName?_eq_some_iff name s).1 hs)
      simp [applyField, hname]
    · next s =>
      rwa [applyField_name o s hnull, map_eq_error_iff, Setting.convert_eq_error_iff]

/-! ### All entries -/

/-- An entry that spells what a setting is to be is read. -/
theorem exists_applyField {s : Setting} {after : Option SettingValue} {value : Value}
    (h : Reads (o.get? s) after (some value)) (hafter : ∀ v, after = some v → v.setting = s) :
    ∃ o₁, o.applyField (s.name, value) = .ok o₁ ∧ o₁.get? s = after := by
  by_cases hnull : value = .null
  · subst hnull
    exact ⟨o, applyField_null o s, h.symm⟩
  · obtain ⟨v, rfl, hv⟩ := (reads_some_iff hnull).1 h
    refine ⟨o.apply v, ?_, by simp [get?_apply, hafter v rfl]⟩
    rw [applyField_name o s hnull, (Setting.convert_eq_ok_iff s value v).2 ⟨hafter v rfl, hv⟩]
    rfl

/-- Entries in the order of their names are read to the options in which each setting is what stands
under its name. -/
theorem foldlM_applyField_eq_ok_iff (entries : List (String × Value))
    (hsorted : entries.Pairwise (·.1 < ·.1)) (o o' : Options) :
    entries.foldlM applyField o = .ok o' ↔
      (∀ entry ∈ entries, ∃ s : Setting, entry.1 = s.name) ∧
        ∀ s : Setting, Reads (o.get? s) (o'.get? s) (entries.lookup s.name) := by
  induction entries generalizing o with
  | nil =>
    simp only [List.foldlM_nil, pure, Except.pure, Except.ok.injEq, List.not_mem_nil, false_implies,
      implies_true, true_and, List.lookup_nil, Reads]
    exact ⟨fun h s => h ▸ rfl, fun h => eq_of_get?_eq fun s => (h s).symm⟩
  | cons entry entries ih =>
    obtain ⟨name, value⟩ := entry
    obtain ⟨hfirst, hsorted⟩ := List.pairwise_cons.1 hsorted
    have hlater : entries.lookup name = none := by
      rw [List.lookup_eq_none_iff]
      intro entry hentry
      have hlt := hfirst entry hentry
      grind
    have hother : ∀ s s₁ : Setting, s ≠ s₁ → s₁.name = name →
        ((name, value) :: entries).lookup s.name = entries.lookup s.name := by
      rintro s s₁ hne rfl
      rw [List.lookup_cons, beq_false_of_ne (mt Setting.name_inj.1 hne)]
    simp only [List.foldlM_cons, bind_eq_ok_iff, ih hsorted, List.forall_mem_cons]
    constructor
    · rintro ⟨o₁, hentry, hknown, hreads⟩
      obtain ⟨s₁, rfl, -⟩ := (applyField_succeeds_iff o (name, value)).1 ⟨o₁, hentry⟩
      obtain ⟨hself, hsame⟩ := (applyField_eq_ok_iff o o₁ s₁ value).1 hentry
      refine ⟨⟨⟨s₁, rfl⟩, hknown⟩, fun s => ?_⟩
      have hs := hreads s
      by_cases hne : s = s₁
      · subst hne
        rw [hlater] at hs
        rw [List.lookup_cons_self, hs]
        exact hself
      · rwa [hother s s₁ hne rfl, ← hsame s hne]
    · rintro ⟨⟨⟨s₁, rfl⟩, hknown⟩, hreads⟩
      have hself := hreads s₁
      rw [List.lookup_cons_self] at hself
      obtain ⟨o₁, hentry, hset⟩ := exists_applyField hself fun v hv => setting_of_get?_eq_some hv
      obtain ⟨-, hsame⟩ := (applyField_eq_ok_iff o o₁ s₁ value).1 hentry
      refine ⟨o₁, hentry, hknown, fun s => ?_⟩
      by_cases hne : s = s₁
      · subst hne
        rw [hlater]
        exact hset.symm
      · rw [hsame s hne, ← hother s s₁ hne rfl]
        exact hreads s

end Options

/-! ### Whole configurations -/

/-- A configuration writes options: its names are known, and each setting of the options is what stands
under its name. -/
structure Writes (config : Config) (o : Options) : Prop where
  /-- Every name is that of a setting. -/
  known : ∀ entry ∈ config.entries, ∃ s : Setting, entry.1 = s.name
  /-- A setting has the value that is spelled under its name, in any letter case, or its default when
  nothing or null stands there. -/
  reads : ∀ s : Setting, Options.Reads (({} : Options).get? s) (o.get? s) (config.get? s.name)

/-- What a configuration is accepted as. -/
structure Decodes (config : Config) : Prop where
  /-- It is accepted when all its entries are acceptable. -/
  accepts : (∃ o, Options.ofConfig config = .ok o) ↔ ∀ entry ∈ config.entries, Acceptable entry
  /-- It is decoded to the options that it writes and to no others. -/
  decodes : ∀ o, Options.ofConfig config = .ok o ↔ Writes config o
  /-- It is refused for what is wrong with the first entry, in the order of the names, that is not
  acceptable. -/
  refuses : ∀ e, Options.ofConfig config = .error e ↔
    ∃ entry ∈ config.entries, Complaint entry e ∧
      ∀ other ∈ config.entries, other.1 < entry.1 → Acceptable other

/-- The first bad entry of a configuration is the one whose name comes first. -/
theorem firstBad_entries_iff (config : Config) (e : Error) :
    FirstBad Acceptable Complaint config.entries e ↔
      ∃ entry ∈ config.entries, Complaint entry e ∧
        ∀ other ∈ config.entries, other.1 < entry.1 → Acceptable other := by
  have hsorted := config.sorted
  constructor
  · rintro ⟨before, entry, after, hentries, hbefore, hbad⟩
    rw [hentries] at hsorted ⊢
    refine ⟨entry, by simp, hbad, fun other hother hlt => ?_⟩
    obtain ⟨-, hafter, -⟩ := List.pairwise_append.1 hsorted
    rcases List.mem_append.1 hother with hother | hother
    · exact hbefore other hother
    · rcases List.mem_cons.1 hother with rfl | hother
      · exact absurd hlt (String.lt_irrefl _)
      · have hgt := (List.pairwise_cons.1 hafter).1 other hother
        exact absurd (String.lt_trans hlt hgt) (String.lt_irrefl _)
  · rintro ⟨entry, hmem, hbad, hbefore⟩
    obtain ⟨before, after, hentries⟩ := List.append_of_mem hmem
    rw [hentries] at hsorted
    refine ⟨before, entry, after, hentries, fun other hother => ?_, hbad⟩
    refine hbefore other (by simp [hentries, hother]) ?_
    exact (List.pairwise_append.1 hsorted).2.2 other hother entry List.mem_cons_self

/-! ### Writing options -/

/-- A way to write options as a configuration. -/
structure Style where
  /-- How a word is written. -/
  spell : String → String
  /-- A word is changed in the case of its letters at most. -/
  folded_spell : ∀ word, folded (spell word) = folded word
  /-- Whether a setting that the options do not mention is written as null or left out. -/
  showsAbsent : Setting → Bool

variable (style : Style)

/-- The value that spells a checked value. -/
def SettingValue.toValue : SettingValue → Value
  | target t => .string (style.spell (Choice.spelling t))
  | moduleKind m => .string (style.spell (Choice.spelling m))
  | lib libs => .list (libs.map fun l => .string (style.spell (Choice.spelling l)))
  | jsx j => .string (style.spell (Choice.spelling j))
  | strict b | strictNullChecks b | noImplicitAny b | allowUnreachableCode b => .bool b

theorem SettingValue.writtenAs_toValue (v : SettingValue) : v.WrittenAs (v.toValue style) := by
  have hspells : ∀ {α : Type} [Choice α] (a : α),
      Spells (.string (style.spell (Choice.spelling a))) a :=
    fun a => ⟨_, rfl, style.folded_spell _⟩
  cases v with
  | target t => exact hspells t
  | moduleKind m => exact hspells m
  | lib libs =>
    refine ⟨_, rfl, ?_⟩
    rw [List.forall₂_map_left_iff, List.forall₂_same]
    exact fun l _ => hspells l
  | jsx j => exact hspells j
  | strict b | strictNullChecks b | noImplicitAny b | allowUnreachableCode b => exact rfl

theorem SettingValue.toValue_ne_null (v : SettingValue) : v.toValue style ≠ .null := by
  cases v <;> simp [toValue]

namespace Options

/-- What is written under the name of a setting. -/
def entry? (o : Options) (s : Setting) : Option Value :=
  match o.get? s with
  | some v => some (v.toValue style)
  | none => if style.showsAbsent s then some .null else none

/-- The configuration with one more setting written. -/
def writeSetting (o : Options) (config : Config) (s : Setting) : Config :=
  match o.entry? style s with
  | some value => config.insert s.name value
  | none => config

/-- The options as a configuration. -/
def toConfig (o : Options) : Config := Setting.all.foldl (o.writeSetting style) Table.empty

variable (o : Options)

theorem reads_entry? (s : Setting) : Reads (({} : Options).get? s) (o.get? s) (o.entry? style s) := by
  unfold entry?
  split
  · next v hv => exact (reads_some_iff (v.toValue_ne_null style)).2 ⟨v, hv, v.writtenAs_toValue style⟩
  · next hv =>
    have habsent : ({} : Options).get? s = none := by cases s <;> first | rfl | simp [get?] at hv
    split <;> simp [Reads, hv, habsent]

theorem get?_writeSetting (config : Config) (s s₁ : Setting) :
    (o.writeSetting style config s₁).get? s.name =
      if s = s₁ then (o.entry? style s).or (config.get? s.name) else config.get? s.name := by
  unfold writeSetting
  split
  · next value hvalue =>
    simp only [Table.get?_insert, Setting.name_inj]
    split
    · next h => rw [h, hvalue, Option.some_or]
    · rfl
  · next hvalue =>
    split
    · next h => rw [h, hvalue, Option.none_or]
    · rfl

theorem get?_foldl_writeSetting (settings : List Setting) (config : Config) (s : Setting)
    (hconfig : config.get? s.name = none ∨ config.get? s.name = o.entry? style s) :
    (settings.foldl (o.writeSetting style) config).get? s.name =
      if s ∈ settings then o.entry? style s else config.get? s.name := by
  induction settings generalizing config with
  | nil => simp
  | cons s₁ settings ih =>
    have hnext := o.get?_writeSetting style config s s₁
    by_cases h : s = s₁
    · have hwritten : (o.writeSetting style config s₁).get? s.name = o.entry? style s := by
        rw [hnext, if_pos h]
        rcases hconfig with hconfig | hconfig <;> simp [hconfig]
      rw [List.foldl_cons, ih _ (.inr hwritten), hwritten]
      simp [h]
    · rw [if_neg h] at hnext
      rw [List.foldl_cons, ih _ (by rwa [hnext]), hnext]
      simp [h]

theorem get?_toConfig (s : Setting) : (o.toConfig style).get? s.name = o.entry? style s := by
  rw [toConfig, get?_foldl_writeSetting style o _ _ s (.inl (Table.get?_empty _)), if_pos]
  cases s <;> decide

/-- Only names of settings are written. -/
theorem known_toConfig : ∀ entry ∈ (o.toConfig style).entries, ∃ s : Setting, entry.1 = s.name := by
  have hfold : ∀ (settings : List Setting) (config : Config),
      (∀ entry ∈ config.entries, ∃ s : Setting, entry.1 = s.name) →
        ∀ entry ∈ (settings.foldl (o.writeSetting style) config).entries,
          ∃ s : Setting, entry.1 = s.name := by
    intro settings
    induction settings with
    | nil => exact fun config h => h
    | cons s settings ih =>
      refine fun config h => ih _ fun entry hentry => ?_
      unfold writeSetting at hentry
      split at hentry
      · rcases mem_insertEntry hentry with rfl | hentry
        · exact ⟨s, rfl⟩
        · exact h entry hentry
      · exact h entry hentry
  exact hfold _ _ (by simp [Table.empty])

theorem writes_toConfig : Writes (o.toConfig style) o where
  known := o.known_toConfig style
  reads s := by
    rw [get?_toConfig]
    exact o.reads_entry? style s

end Options

/-- **Configurations are accepted and decoded exactly.** A configuration is accepted when every name is
that of a setting and every value is null or has the shape that its setting needs, words being the
same up to the case of ASCII letters. Then each setting has the value that is spelled under its own
name, or else its default; otherwise the complaint is about the first entry that is wrong, in the order
of the names, and for a list about its first element that is wrong. So options that are written as a
configuration, in any letter case and with absent settings left out or null, are decoded to
themselves. -/
theorem decodes_ofConfig :
    (∀ config : Config, Decodes config) ∧
      ∀ (style : Style) (o : Options), Options.ofConfig (o.toConfig style) = .ok o := by
  have hdecodes : ∀ config : Config, Decodes config := fun config =>
    { accepts := foldlM_succeeds_iff Options.applyField_succeeds_iff _ _
      decodes := fun o => by
        have h := Options.foldlM_applyField_eq_ok_iff config.entries config.sorted {} o
        exact h.trans ⟨fun h => ⟨h.1, h.2⟩, fun h => ⟨h.known, h.reads⟩⟩
      refuses := fun e => by
        rw [← firstBad_entries_iff]
        exact foldlM_eq_error_iff Options.applyField_succeeds_iff Options.applyField_eq_error_iff _ _ e }
  exact ⟨hdecodes, fun style o => ((hdecodes _).decodes o).2 (o.writes_toConfig style)⟩

end ScriptAnalysis.Config

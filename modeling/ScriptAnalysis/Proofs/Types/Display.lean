import ScriptAnalysis.Proofs.Types.Layout

/-!
# Displayed types are unambiguous

Two types with the same written form are the same (`display_eq_display_iff`), as long as unions have two members at
least and none that is a union, the names of parameters are made of the characters of names, and numbers and objects are
what they can be (`Ty.Displayable`). A written form says where it ends in front of what can follow a type
(`Ty.ReadsBack`), and in front of what can follow the core of a list (`Ty.CoreReadsBack`); the two are proved together,
along the type.
-/

namespace ScriptAnalysis.Ty

open Semantics (Globals)

/-- The types whose written forms are told apart: the names of parameters are empty or made of the characters of names,
the texts of numbers are what is written for a number, every object is one of the environment, and a union has at least
two members, none of them a union. The members of objects are not written. -/
inductive Displayable (globals : Globals) : Ty → Prop where
  /-- A type without parts, and the text of a number is the one that is written for it. -/
  | plain {t : Ty} (hplain : t.isPlain = true)
      (hnumber : ∀ text, t = numberLiteral text → ∃ source, ofNumeral source = t) : Displayable globals t
  /-- A list. -/
  | array {t : Ty} (h : t.Displayable globals) : Displayable globals (array t)
  /-- A union of two types at least that are no unions. -/
  | union {ts : List Ty} (htwo : 2 ≤ ts.length) (hunion : ∀ t ∈ ts, ∀ us, t ≠ union us)
      (h : ∀ t ∈ ts, t.Displayable globals) : Displayable globals (union ts)
  /-- A function. -/
  | function {params : List (Param Ty)} {ret : Ty}
      (hnames : ∀ p ∈ params, ∀ c ∈ p.name.toList, Lexeme.isNamePart c = true)
      (hparams : ∀ p ∈ params, p.type.Displayable globals) (hret : ret.Displayable globals) :
      Displayable globals (function params ret)
  /-- An object of the environment. -/
  | object {id : Nat} {name : String} {members : List (String × Ty)}
      (h : globals.objects[id]? = some (name, members)) : Displayable globals (object id name members)

variable {libs : List Config.Lib} {s t : Ty} {params : List (Param Ty)} {r r' : List Char}

/-! ### What can follow -/

/-- Whether a text is empty or begins with one of some characters. -/
def Opens (cs r : List Char) : Prop := ∀ c ∈ r.head?, c ∈ cs

/-- What can follow a whole type: the end of a group or of parameters, or the next parameter. -/
def followType : List Char := [')', ',']

/-- What can follow a member of a union: what can follow the union, or a bar. -/
def followMember : List Char := ' ' :: followType

/-- What can follow the core of a list: what can follow the list, or brackets. -/
def followCore : List Char := '[' :: followMember

theorem opens_cons {cs r : List Char} {c : Char} : Opens cs (c :: r) ↔ c ∈ cs := by
  simp [Opens]

theorem Opens.mono {cs ds : List Char} (h : Opens cs r) (hcs : cs ⊆ ds) : Opens ds r := fun c hc => hcs (h c hc)

theorem Opens.head?_ne {cs : List Char} (h : Opens cs r) {c : Char} (hc : c ∉ cs) : r.head? ≠ some c :=
  fun hr => hc (h c hr)

theorem Opens.not_isWordChar (h : Opens followCore r) : ∀ c ∈ r.head?, isWordChar c = false := by
  have hfollow : ∀ c ∈ followCore, (!isWordChar c) = true := List.all_eq_true.mp (by decide)
  exact fun c hc => by simpa using hfollow c (h c hc)

/-- What has a separator in front of each item goes on with a separator or with the rest. -/
theorem Opens.flatMap_append {α : Type} {f : α → List Char} {sep : Char} {cs : List Char} (h : Opens cs r)
    (hsep : sep ∈ cs) (as : List α) : Opens cs (as.flatMap (fun a => sep :: f a) ++ r) := by
  cases as with
  | nil => exact h
  | cons a as => exact opens_cons.mpr hsep

theorem opens_brackets_append (h : Opens followMember r) (n : Nat) : Opens followCore (brackets n ++ r) := by
  cases n with
  | zero => exact h.mono (List.subset_cons_self _ _)
  | succ n => exact opens_cons.mpr List.mem_cons_self

/-- A text says how it is divided into items, each with a separator in front. -/
theorem flatMap_append_inj {α : Type} {f : α → List Char} {sep : Char} {follow : List Char} {as bs : List α}
    (hsep : sep ∈ follow)
    (hitem : ∀ a ∈ as, ∀ b ∈ bs, ∀ r r', Opens follow r → Opens follow r' → f a ++ r = f b ++ r' → a = b ∧ r = r')
    (hr : Opens follow r) (hr' : Opens follow r') (hstop : r.head? ≠ some sep) (hstop' : r'.head? ≠ some sep)
    (h : as.flatMap (fun a => sep :: f a) ++ r = bs.flatMap (fun b => sep :: f b) ++ r') : as = bs ∧ r = r' := by
  induction as generalizing bs with
  | nil =>
    cases bs with
    | nil => exact ⟨rfl, h⟩
    | cons b bs => exact absurd (congrArg List.head? h) hstop
  | cons a as ih =>
    cases bs with
    | nil => exact absurd (congrArg List.head? h).symm hstop'
    | cons b bs =>
      rw [List.flatMap_cons, List.flatMap_cons, List.append_assoc, List.append_assoc] at h
      obtain ⟨rfl, htail⟩ := hitem a List.mem_cons_self b List.mem_cons_self _ _ (hr.flatMap_append hsep as)
        (hr'.flatMap_append hsep bs) (List.cons.inj h).2
      obtain ⟨rfl, hend⟩ := ih (fun c hc d hd => hitem c (List.mem_cons_of_mem _ hc) d (List.mem_cons_of_mem _ hd))
        htail
      exact ⟨rfl, hend⟩

/-! ### Types that are no lists -/

/-- The forms of what is no list, in front of brackets. -/
inductive Spelled (globals : Globals) : Ty → Prop where
  /-- One word. -/
  | word {t : Ty} (h : t.IsWord globals) : Spelled globals t
  /-- Text between quotes. -/
  | quoted (value : String) : Spelled globals (stringLiteral value)
  /-- Something in parentheses. -/
  | group {t : Ty} (h : t.needsParensInArray = true) : Spelled globals t

theorem isNumeral_of_ofNumeral {source text : String} (h : ofNumeral source = numberLiteral text) :
    Decimal.IsNumeral text.toList := by
  rw [ofNumeral] at h
  split at h
  · rw [← numberLiteral.inj h]
    exact Decimal.isNumeral_text _
  · cases h

theorem Displayable.spelled {globals : Globals} (h : t.Displayable globals) (harray : ∀ e, t ≠ Ty.array e) :
    Spelled globals t := by
  cases h with
  | plain hplain hnumber =>
    cases t with
    | numberLiteral text =>
      obtain ⟨source, hsource⟩ := hnumber text rfl
      exact .word (.numeral (isNumeral_of_ofNumeral hsource))
    | stringLiteral value => exact .quoted value
    | booleanLiteral value => cases value <;> exact .word (.named (by simp [namedTypes]))
    | array | union | function | object => cases hplain
    | _ => exact .word (.named (by simp [namedTypes]))
  | array => exact absurd rfl (harray _)
  | union | function => exact .group rfl
  | object h => exact .word (.object h)

theorem Displayable.core {globals : Globals} (h : t.Displayable globals) : t.core.Displayable globals := by
  induction h with
  | array _ ih => exact ih
  | plain hplain hnumber =>
    rw [core_of_ne_array]
    · exact .plain hplain hnumber
    · rintro e rfl
      cases hplain
  | union htwo hunion h => exact .union htwo hunion h
  | function hnames hparams hret => exact .function hnames hparams hret
  | object h => exact .object h

theorem IsWord.elementChars_eq (h : t.IsWord (Globals.ofLibs libs)) : t.elementChars = t.chars := by
  have hnamed : ∀ t ∈ namedTypes, t.needsParensInArray = false := by simp [namedTypes, needsParensInArray]
  refine elementChars_of_not_parens ?_
  cases h with
  | named h => exact hnamed t h
  | numeral | object => rfl

/-- What a core begins with, where that is not a word. -/
def lead (cs : List Char) : Option Char := cs.head?.filter fun c => !isWordChar c

theorem lead_append_of_isWordText {w : List Char} (h : isWordText w = true) (r : List Char) : lead (w ++ r) = none := by
  obtain ⟨hne, hw⟩ := isWordText_iff.mp h
  cases w with
  | nil => exact absurd rfl hne
  | cons c w => simp [lead, hw c List.mem_cons_self]

theorem IsWord.lead_eq (h : t.IsWord (Globals.ofLibs libs)) (r : List Char) : lead (t.elementChars ++ r) = none := by
  rw [h.elementChars_eq]
  exact lead_append_of_isWordText h.isWordText_display r

theorem lead_stringLiteral (value : String) (r : List Char) :
    lead ((stringLiteral value).elementChars ++ r) = some '"' := by
  rw [elementChars_of_not_parens rfl, chars_stringLiteral]
  rfl

theorem elementChars_append_of_parens (h : t.needsParensInArray = true) (r : List Char) :
    t.elementChars ++ r = '(' :: (t.chars ++ ')' :: r) := by
  rw [elementChars_of_parens h, List.cons_append, List.append_assoc]
  rfl

theorem lead_of_parens (h : t.needsParensInArray = true) (r : List Char) :
    lead (t.elementChars ++ r) = some '(' := by
  rw [elementChars_append_of_parens h]
  rfl

theorem Spelled.isWord (h : Spelled (Globals.ofLibs libs) t) (hlead : lead (t.elementChars ++ r) = none) :
    t.IsWord (Globals.ofLibs libs) := by
  cases h with
  | word h => exact h
  | quoted => rw [lead_stringLiteral] at hlead; cases hlead
  | group h => rw [lead_of_parens h] at hlead; cases hlead

theorem Spelled.eq_stringLiteral (h : Spelled (Globals.ofLibs libs) t)
    (hlead : lead (t.elementChars ++ r) = some '"') : ∃ value, t = stringLiteral value := by
  cases h with
  | word h => rw [h.lead_eq] at hlead; cases hlead
  | quoted value => exact ⟨value, rfl⟩
  | group h => rw [lead_of_parens h] at hlead; cases hlead

theorem Spelled.needsParens (h : Spelled (Globals.ofLibs libs) t) (hlead : lead (t.elementChars ++ r) = some '(') :
    t.needsParensInArray = true := by
  cases h with
  | word h => rw [h.lead_eq] at hlead; cases hlead
  | quoted => rw [lead_stringLiteral] at hlead; cases hlead
  | group h => exact h

/-! ### Reading cores -/

/-- The written form of a type says, in front of what can follow a type, which type it is and where it ends. -/
def ReadsBack (libs : List Config.Lib) (s : Ty) : Prop :=
  ∀ ⦃t : Ty⦄ ⦃r r' : List Char⦄, t.Displayable (Globals.ofLibs libs) → Opens followType r → Opens followType r' →
    s.chars ++ r = t.chars ++ r' → s = t ∧ r = r'

/-- The same for what stands in front of brackets, among the types that are no lists. -/
def CoreReadsBack (libs : List Config.Lib) (s : Ty) : Prop :=
  ∀ ⦃t : Ty⦄ ⦃r r' : List Char⦄, t.Displayable (Globals.ofLibs libs) → (∀ e, t ≠ array e) → Opens followCore r →
    Opens followCore r' → s.elementChars ++ r = t.elementChars ++ r' → s = t ∧ r = r'

/-- The first character tells words, quoted text and groups apart; each is then read on its own. -/
theorem coreReadsBack_of_spelled (hs : Spelled (Globals.ofLibs libs) s)
    (hgroup : s.needsParensInArray = true → ReadsBack libs s) : CoreReadsBack libs s := by
  intro t r r' ht harray hr hr' h
  have hlead : lead (t.elementChars ++ r') = lead (s.elementChars ++ r) := congrArg lead h.symm
  cases hs with
  | word hs =>
    rw [hs.lead_eq] at hlead
    have ht := (ht.spelled harray).isWord hlead
    rw [hs.elementChars_eq, ht.elementChars_eq] at h
    obtain ⟨hword, hend⟩ := word_append_inj (isWordText_iff.mp hs.isWordText_display).2
      (isWordText_iff.mp ht.isWordText_display).2 hr.not_isWordChar hr'.not_isWordChar h
    exact ⟨hs.eq_of_display_eq ht (String.toList_inj.mp hword), hend⟩
  | quoted value =>
    rw [lead_stringLiteral] at hlead
    obtain ⟨value', rfl⟩ := (ht.spelled harray).eq_stringLiteral hlead
    rw [elementChars_of_not_parens rfl, elementChars_of_not_parens rfl, chars_stringLiteral, chars_stringLiteral] at h
    obtain ⟨hvalue, hend⟩ := Text.quote_append_inj h
    exact ⟨congrArg stringLiteral (String.toList_inj.mp hvalue), hend⟩
  | group hs =>
    rw [lead_of_parens hs] at hlead
    have htparens := (ht.spelled harray).needsParens hlead
    rw [elementChars_append_of_parens hs, elementChars_append_of_parens htparens] at h
    have hclose : ∀ q, Opens followType (')' :: q) := fun q => opens_cons.mpr List.mem_cons_self
    obtain ⟨hst, hend⟩ := hgroup hs ht (hclose r) (hclose r') (List.cons.inj h).2
    exact ⟨hst, (List.cons.inj hend).2⟩

/-- A list is read back when its core is: the core says where it ends, then the brackets are counted. -/
theorem elementChars_append_inj (hs : CoreReadsBack libs s.core) (ht : t.Displayable (Globals.ofLibs libs))
    (hr : Opens followMember r) (hr' : Opens followMember r') (h : s.elementChars ++ r = t.elementChars ++ r') :
    s = t ∧ r = r' := by
  rw [elementChars_eq s, elementChars_eq t, List.append_assoc, List.append_assoc] at h
  obtain ⟨hcore, h⟩ := hs ht.core (core_ne_array t) (opens_brackets_append hr _) (opens_brackets_append hr' _) h
  have hbracket : '[' ∉ followMember := by decide
  obtain ⟨hdepth, h⟩ := brackets_append_inj (hr.head?_ne hbracket) (hr'.head?_ne hbracket) h
  exact ⟨eq_of_core_eq hcore hdepth, h⟩

/-! ### Reading unions -/

/-- The types that are written with bars between them: the members of a union, and every other type alone. -/
def alternatives : Ty → List Ty
  | union ts => ts
  | t => [t]

theorem eq_union_or (t : Ty) : (∃ us, t = union us) ∨ ∀ us, t ≠ union us :=
  (Classical.em _).imp_right not_exists.mp

theorem eq_function_or (t : Ty) : (∃ ps ret, t = function ps ret) ∨ ∀ ps ret, t ≠ function ps ret :=
  (Classical.em _).imp_right fun h ps ret ht => h ⟨ps, ret, ht⟩

theorem alternatives_of_ne_union (h : ∀ us, t ≠ union us) : t.alternatives = [t] := by
  cases t with
  | union us => exact absurd rfl (h us)
  | _ => rfl

theorem Displayable.of_mem_alternatives {globals : Globals} (h : t.Displayable globals) {u : Ty}
    (hu : u ∈ t.alternatives) : u.Displayable globals := by
  obtain ⟨us, rfl⟩ | hunion := eq_union_or t
  · cases h with
    | plain hplain => cases hplain
    | union _ _ h => exact h u hu
  · rw [alternatives_of_ne_union hunion] at hu
    rwa [List.mem_singleton.mp hu]

theorem Displayable.alternatives_ne_nil {globals : Globals} (h : t.Displayable globals) : t.alternatives ≠ [] := by
  obtain ⟨us, rfl⟩ | hunion := eq_union_or t
  · cases h with
    | plain hplain => cases hplain
    | union htwo =>
      rintro rfl
      exact absurd htwo (Nat.not_succ_le_zero 1)
  · rw [alternatives_of_ne_union hunion]
    exact List.cons_ne_nil _ _

/-- What is no function is written with bars between its alternatives. -/
theorem Displayable.chars_eq {globals : Globals} (h : t.Displayable globals)
    (hfunction : ∀ ps ret, t ≠ Ty.function ps ret) : t.chars = barredChars t.alternatives := by
  have hsingle : ∀ {u : Ty}, u.needsParensInArray = false → u.chars = barredChars [u] := by
    intro u hu
    rw [barredChars, List.flatMap_nil, List.append_nil, elementChars_of_not_parens hu]
  cases h with
  | plain hplain =>
    cases t with
    | array | union | function | object => cases hplain
    | _ => exact hsingle rfl
  | array | object => exact hsingle rfl
  | union _ hunion => exact chars_union hunion
  | function => exact absurd rfl (hfunction _ _)

/-- One type is no union of two or more, so the alternatives say which type it is. -/
theorem Displayable.eq_of_alternatives_eq {globals : Globals} (hs : s.Displayable globals) (ht : t.Displayable globals)
    (h : s.alternatives = t.alternatives) : s = t := by
  have hsingle : ∀ {ts : List Ty} {u : Ty}, (Ty.union ts).Displayable globals → (∀ us, u ≠ Ty.union us) →
      ts ≠ u.alternatives := by
    intro ts u hts hu
    cases hts with
    | plain hplain => cases hplain
    | union htwo =>
      rintro rfl
      rw [alternatives_of_ne_union hu] at htwo
      exact absurd htwo (Nat.not_succ_le_self 1)
  obtain ⟨us, rfl⟩ | hsu := eq_union_or s <;> obtain ⟨vs, rfl⟩ | htu := eq_union_or t
  · exact congrArg Ty.union h
  · exact absurd h (hsingle hs htu)
  · exact absurd h.symm (hsingle ht hsu)
  · rw [alternatives_of_ne_union hsu, alternatives_of_ne_union htu] at h
    exact List.singleton_inj.mp h

/-- Unions are read back when the cores of their members are, member by member. -/
theorem barredChars_append_inj {ss ts : List Ty} (hss : ss ≠ []) (hts : ts ≠ [])
    (hs : ∀ s ∈ ss, CoreReadsBack libs s.core) (ht : ∀ t ∈ ts, t.Displayable (Globals.ofLibs libs))
    (hr : Opens followType r) (hr' : Opens followType r') (h : barredChars ss ++ r = barredChars ts ++ r') :
    ss = ts ∧ r = r' := by
  have hmember : ∀ {q : List Char}, Opens followType q → Opens followMember q := fun hq =>
    hq.mono (List.subset_cons_self _ _)
  cases ss with
  | nil => exact absurd rfl hss
  | cons s ss =>
    cases ts with
    | nil => exact absurd rfl hts
    | cons t ts =>
      rw [barredChars, barredChars, List.append_assoc, List.append_assoc] at h
      obtain ⟨rfl, hrest⟩ := elementChars_append_inj (hs s List.mem_cons_self) (ht t List.mem_cons_self)
        ((hmember hr).flatMap_append List.mem_cons_self ss) ((hmember hr').flatMap_append List.mem_cons_self ts) h
      have hspace : ' ' ∉ followType := by decide
      obtain ⟨rfl, hend⟩ := flatMap_append_inj (f := fun u => '|' :: ' ' :: elementChars u) List.mem_cons_self
        (fun u hu v hv q q' hq hq' h => elementChars_append_inj (hs u (List.mem_cons_of_mem _ hu))
          (ht v (List.mem_cons_of_mem _ hv)) hq hq' (List.cons.inj (List.cons.inj h).2).2)
        (hmember hr) (hmember hr') (hr.head?_ne hspace) (hr'.head?_ne hspace) hrest
      exact ⟨rfl, hend⟩

/-! ### Functions beside other types -/

/-- What is no function begins with the core of its first alternative. -/
theorem Displayable.exists_core (ht : t.Displayable (Globals.ofLibs libs))
    (hfunction : ∀ ps ret, t ≠ Ty.function ps ret) (hr : Opens followType r) :
    ∃ e q, e.Displayable (Globals.ofLibs libs) ∧ (∀ u, e ≠ Ty.array u) ∧ Opens followCore q ∧
      t.chars ++ r = e.elementChars ++ q := by
  cases halternatives : t.alternatives with
  | nil => exact absurd halternatives ht.alternatives_ne_nil
  | cons u us =>
    have hu : u ∈ t.alternatives := halternatives ▸ List.mem_cons_self
    have hrest : Opens followMember (us.flatMap (fun u => ' ' :: '|' :: ' ' :: u.elementChars) ++ r) :=
      (hr.mono (List.subset_cons_self _ _)).flatMap_append List.mem_cons_self us
    refine ⟨u.core, _, (ht.of_mem_alternatives hu).core, core_ne_array u, opens_brackets_append hrest u.depth, ?_⟩
    rw [ht.chars_eq hfunction, halternatives, barredChars, elementChars_eq u, List.append_assoc, List.append_assoc]

theorem opensParams_append_of_isWordText {w : List Char} (hw : isWordText w = true) (hr : Opens followCore r) :
    opensParams (w ++ r) = false := by
  obtain ⟨hne, hchars⟩ := isWordText_iff.mp hw
  have hmark : ∀ c ∈ followCore, (!(c == '?' || c == ':')) = true := List.all_eq_true.mp (by decide)
  have hhead : (w ++ r).head? ≠ some ')' := by
    cases w with
    | nil => exact absurd rfl hne
    | cons c w =>
      intro hc
      obtain rfl : c = ')' := Option.some.inj hc
      exact absurd (hchars ')' List.mem_cons_self) (by decide)
  have hrest : (w ++ r).dropWhile isWordChar = r := by
    rw [List.dropWhile_append_of_pos hchars]
    cases r with
    | nil => rfl
    | cons c r => rw [List.dropWhile_cons_of_neg (by simp [hr.not_isWordChar c rfl])]
  rw [opensParams, hrest, Bool.or_eq_false_iff]
  refine ⟨beq_eq_false_iff_ne.mpr hhead, ?_⟩
  cases r with
  | nil => rfl
  | cons c r => simpa using hmark c (hr c rfl)

/-- Inside its parenthesis, a group does not begin as the parameters of a function do. -/
theorem Displayable.opensParams_eq_false (ht : t.Displayable (Globals.ofLibs libs)) (hr : Opens followType r) :
    opensParams (t.chars ++ r) = false := by
  obtain ⟨ps, ret, rfl⟩ | hfunction := eq_function_or t
  · rw [chars_function]
    rfl
  · obtain ⟨e, q, he, harray, hq, hchars⟩ := ht.exists_core hfunction hr
    rw [hchars]
    cases he.spelled harray with
    | word he =>
      rw [he.elementChars_eq]
      exact opensParams_append_of_isWordText he.isWordText_display hq
    | quoted value =>
      rw [elementChars_of_not_parens rfl, chars_stringLiteral]
      rfl
    | group he =>
      rw [elementChars_append_of_parens he]
      rfl

/-- No function is written like another type: the parameters differ from what any group begins with. -/
theorem Displayable.chars_append_ne_function (ht : t.Displayable (Globals.ofLibs libs))
    (hfunction : ∀ ps ret, t ≠ Ty.function ps ret)
    (hnames : ∀ p ∈ params, ∀ c ∈ p.name.toList, Lexeme.isNamePart c = true) (ret : Ty) (hr : Opens followType r) :
    t.chars ++ r ≠ (Ty.function params ret).chars ++ r' := by
  intro h
  obtain ⟨e, q, he, harray, hq, hchars⟩ := ht.exists_core hfunction hr
  rw [hchars, chars_function, List.cons_append] at h
  have hparens := (he.spelled harray).needsParens (congrArg lead h)
  rw [elementChars_append_of_parens hparens] at h
  have hopens := congrArg opensParams (List.cons.inj h).2
  rw [he.opensParams_eq_false (opens_cons.mpr List.mem_cons_self), List.append_assoc, List.cons_append,
    opensParams_paramsChars hnames] at hopens
  cases hopens

/-! ### Reading functions -/

/-- A parameter is read back when its type is. -/
theorem param_append_inj {p q : Param Ty} (hp : ∀ c ∈ p.name.toList, Lexeme.isNamePart c = true)
    (hq : ∀ c ∈ q.name.toList, Lexeme.isNamePart c = true) (hread : ReadsBack libs p.type)
    (htype : q.type.Displayable (Globals.ofLibs libs)) (hr : Opens followType r) (hr' : Opens followType r')
    (h : paramHead p ++ p.type.chars ++ r = paramHead q ++ q.type.chars ++ r') : p = q ∧ r = r' := by
  rw [List.append_assoc, List.append_assoc] at h
  obtain ⟨hname, hoptional, hrest, htail⟩ := paramHead_append_inj hp hq h
  obtain ⟨hpq, hend⟩ := hread htype hr hr' htail
  cases p
  cases q
  subst hname hoptional hrest hpq
  exact ⟨rfl, hend⟩

/-- Parameters are read back when their types are, one by one. -/
theorem paramsChars_append_inj {ps qs : List (Param Ty)}
    (hps : ∀ p ∈ ps, ∀ c ∈ p.name.toList, Lexeme.isNamePart c = true)
    (hqs : ∀ q ∈ qs, ∀ c ∈ q.name.toList, Lexeme.isNamePart c = true) (hread : ∀ p ∈ ps, ReadsBack libs p.type)
    (htypes : ∀ q ∈ qs, q.type.Displayable (Globals.ofLibs libs))
    (h : paramsChars ps ++ ')' :: r = paramsChars qs ++ ')' :: r') : ps = qs ∧ r = r' := by
  have hone : ∀ p ∈ ps, ∀ q ∈ qs, ∀ u u', Opens followType u → Opens followType u' →
      paramHead p ++ p.type.chars ++ u = paramHead q ++ q.type.chars ++ u' → p = q ∧ u = u' :=
    fun p hp q hq _ _ => param_append_inj (hps p hp) (hqs q hq) (hread p hp) (htypes q hq)
  have hclose : ∀ u, Opens followType (')' :: u) := fun u => opens_cons.mpr List.mem_cons_self
  have hstop : ∀ u : List Char, (')' :: u).head? ≠ some ',' := fun u hu => absurd (Option.some.inj hu) (by decide)
  have hcomma : ',' ∈ followType := by decide
  cases ps with
  | nil =>
    cases qs with
    | nil => exact ⟨rfl, (List.cons.inj h).2⟩
    | cons q qs =>
      rw [paramsChars, paramsChars, List.append_assoc, List.append_assoc] at h
      exact absurd (congrArg List.head? h).symm (head?_paramHead_ne (hqs q List.mem_cons_self) _)
  | cons p ps =>
    cases qs with
    | nil =>
      rw [paramsChars, paramsChars, List.append_assoc, List.append_assoc] at h
      exact absurd (congrArg List.head? h) (head?_paramHead_ne (hps p List.mem_cons_self) _)
    | cons q qs =>
      rw [paramsChars, paramsChars, List.append_assoc _ _ (')' :: r), List.append_assoc _ _ (')' :: r')] at h
      obtain ⟨rfl, hrest⟩ := hone p List.mem_cons_self q List.mem_cons_self _ _ ((hclose r).flatMap_append hcomma ps)
        ((hclose r').flatMap_append hcomma qs) h
      obtain ⟨rfl, hend⟩ := flatMap_append_inj (f := fun p => ' ' :: (paramHead p ++ p.type.chars)) hcomma
        (fun u hu v hv w w' hw hw' h => hone u (List.mem_cons_of_mem _ hu) v (List.mem_cons_of_mem _ hv) w w' hw hw'
          (List.cons.inj h).2) (hclose r) (hclose r') (hstop r) (hstop r') hrest
      exact ⟨rfl, (List.cons.inj hend).2⟩

theorem readsBack_function {ret : Ty} (hnames : ∀ p ∈ params, ∀ c ∈ p.name.toList, Lexeme.isNamePart c = true)
    (hparams : ∀ p ∈ params, ReadsBack libs p.type) (hret : ReadsBack libs ret) :
    ReadsBack libs (function params ret) := by
  intro t r r' ht hr hr' h
  obtain ⟨ps, u, rfl⟩ | hfunction := eq_function_or t
  · cases ht with
    | plain hplain => cases hplain
    | function hnames' hparams' hret' =>
      rw [chars_function, chars_function, List.cons_append, List.cons_append, List.append_assoc, List.append_assoc] at h
      obtain ⟨rfl, harrow⟩ := paramsChars_append_inj hnames hnames' hparams hparams' (List.cons.inj h).2
      have hresult : ret.chars ++ r = u.chars ++ r' := by simpa using harrow
      obtain ⟨rfl, hend⟩ := hret hret' hr hr' hresult
      exact ⟨rfl, hend⟩
  · exact absurd h.symm (ht.chars_append_ne_function hfunction hnames ret hr')

/-- What is no function is read back when the cores of its alternatives are. -/
theorem readsBack_of_alternatives (hs : s.Displayable (Globals.ofLibs libs)) (hfunction : ∀ ps ret, s ≠ function ps ret)
    (hread : ∀ u ∈ s.alternatives, CoreReadsBack libs u.core) : ReadsBack libs s := by
  intro t r r' ht hr hr' h
  obtain ⟨ps, ret, rfl⟩ | htf := eq_function_or t
  · cases ht with
    | plain hplain => cases hplain
    | function hnames => exact absurd h (hs.chars_append_ne_function hfunction hnames ret hr)
  · rw [hs.chars_eq hfunction, ht.chars_eq htf] at h
    obtain ⟨halternatives, hend⟩ := barredChars_append_inj hs.alternatives_ne_nil ht.alternatives_ne_nil hread
      (fun u hu => ht.of_mem_alternatives hu) hr hr' h
    exact ⟨hs.eq_of_alternatives_eq ht halternatives, hend⟩

/-! ### Reading types -/

/-- What is neither list, union nor function is one word or one quoted text. -/
theorem readsBack_of_single (hs : s.Displayable (Globals.ofLibs libs)) (harray : ∀ e, s ≠ array e)
    (hparens : s.needsParensInArray = false) : CoreReadsBack libs s.core ∧ ReadsBack libs s := by
  have hcore : CoreReadsBack libs s.core := by
    rw [core_of_ne_array harray]
    exact coreReadsBack_of_spelled (hs.spelled harray) fun h => absurd (hparens.symm.trans h) Bool.false_ne_true
  have hfunction : ∀ ps ret, s ≠ function ps ret := by
    rintro ps ret rfl
    cases hparens
  have hunion : ∀ us, s ≠ union us := by
    rintro us rfl
    cases hparens
  refine ⟨hcore, readsBack_of_alternatives hs hfunction fun u hu => ?_⟩
  rw [alternatives_of_ne_union hunion] at hu
  rwa [List.mem_singleton.mp hu]

/-- **Displayed types can be read back**, whole and in front of brackets. -/
theorem Displayable.readsBack (h : s.Displayable (Globals.ofLibs libs)) :
    CoreReadsBack libs s.core ∧ ReadsBack libs s := by
  induction h with
  | @plain t hplain hnumber =>
    refine readsBack_of_single (.plain hplain hnumber) ?_ ?_
    · rintro e rfl
      cases hplain
    · cases t with
      | array | union | function | object => cases hplain
      | _ => rfl
  | @array t h ih =>
    refine ⟨ih.1, readsBack_of_alternatives (.array h) nofun fun u hu => ?_⟩
    rw [List.mem_singleton.mp hu]
    exact ih.1
  | union htwo hunion h ih =>
    have hread := readsBack_of_alternatives (.union htwo hunion h) nofun fun u hu => (ih u hu).1
    exact ⟨coreReadsBack_of_spelled (.group rfl) fun _ => hread, hread⟩
  | function hnames hparams hret ihparams ihret =>
    have hread := readsBack_function hnames (fun p hp => (ihparams p hp).2) ihret.2
    exact ⟨coreReadsBack_of_spelled (.group rfl) fun _ => hread, hread⟩
  | object h => exact readsBack_of_single (.object h) nofun rfl

/-- A type is read back from its written form. -/
theorem Displayable.eq_of_display_eq (hs : s.Displayable (Globals.ofLibs libs))
    (ht : t.Displayable (Globals.ofLibs libs)) (h : s.display = t.display) : s = t := by
  have hend : Opens followType [] := nofun
  have hchars : s.chars ++ [] = t.chars ++ [] := congrArg (fun text => text.toList ++ []) h
  exact (hs.readsBack.2 ht hend hend hchars).1

/-- **Displayed types are unambiguous**: two types have the same written form just in case they are the same. -/
theorem display_eq_display_iff (hs : s.Displayable (Globals.ofLibs libs)) (ht : t.Displayable (Globals.ofLibs libs)) :
    s.display = t.display ↔ s = t :=
  ⟨hs.eq_of_display_eq ht, congrArg display⟩

/-- A function or an object. -/
def functionOrObject : Ty :=
  union [function [⟨"x", stringLiteral "a | b", true, false⟩] number, object 1 "Document" [("title", string)]]

/-- A function whose result is a number or an object. -/
def functionToEither : Ty :=
  function [⟨"x", stringLiteral "a | b", true, false⟩] (union [number, object 1 "Document" [("title", string)]])

example : functionOrObject.display = "((x?: \"a | b\") => number) | Document" ∧
    functionToEither.display = "(x?: \"a | b\") => number | Document" := by
  decide +kernel

/-- Only parentheses tell these two apart. -/
theorem display_eq_display_iff_parentheses :
    functionOrObject.Displayable (Globals.ofLibs [.dom]) ∧ functionToEither.Displayable (Globals.ofLibs [.dom]) ∧
      (functionOrObject.display = functionToEither.display ↔ functionOrObject = functionToEither) := by
  have hnumber : number.Displayable (Globals.ofLibs [.dom]) := .plain rfl nofun
  have hobject : (object 1 "Document" [("title", string)]).Displayable (Globals.ofLibs [.dom]) :=
    .object (by decide +kernel)
  have hfunction : ∀ {ret : Ty}, ret.Displayable (Globals.ofLibs [.dom]) →
      (function [⟨"x", stringLiteral "a | b", true, false⟩] ret).Displayable (Globals.ofLibs [.dom]) := by
    refine fun hret => .function (fun p hp => ?_) (fun p hp => ?_) hret
    · rw [List.mem_singleton.mp hp]
      exact List.all_eq_true.mp (by decide)
    · rw [List.mem_singleton.mp hp]
      exact .plain rfl nofun
  have hs : functionOrObject.Displayable (Globals.ofLibs [.dom]) :=
    .union (Nat.le_refl 2) (by simp) (by simp [hfunction hnumber, hobject])
  have ht : functionToEither.Displayable (Globals.ofLibs [.dom]) :=
    hfunction (.union (Nat.le_refl 2) (by simp) (by simp [hnumber, hobject]))
  exact ⟨hs, ht, display_eq_display_iff hs ht⟩

end ScriptAnalysis.Ty

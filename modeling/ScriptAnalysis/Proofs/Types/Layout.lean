import ScriptAnalysis.Proofs.Text.Quoted
import ScriptAnalysis.Proofs.Types.Words
import Mathlib.Data.List.TakeWhile

/-!
# How written types are laid out

The written form of a type as a list of characters. A list is its core, in parentheses where they are needed, and a
pair of brackets for each list around it (`elementChars_eq`); members are divided by bars, parameters by commas. What
stands in front of the type of a parameter says where it ends (`paramHead_append_inj`), and no type begins as the
parameters of a function do (`opensParams_paramsChars`).
-/

namespace ScriptAnalysis.Ty

variable {t : Ty} {ts : List Ty}

/-! ### Characters of types -/

/-- The characters of the written form. -/
def chars (t : Ty) : List Char := t.display.toList

/-- The characters of the written form in front of brackets, in parentheses where these are needed. -/
def elementChars (t : Ty) : List Char := (parenthesized t.needsParensInArray t.display).toList

theorem toList_parenthesized (needed : Bool) (text : String) :
    (parenthesized needed text).toList = if needed then '(' :: (text.toList ++ [')']) else text.toList := by
  cases needed <;> simp [parenthesized]

theorem elementChars_of_parens (h : t.needsParensInArray = true) : t.elementChars = '(' :: (t.chars ++ [')']) := by
  rw [elementChars, toList_parenthesized, if_pos h, chars]

theorem elementChars_of_not_parens (h : t.needsParensInArray = false) : t.elementChars = t.chars := by
  rw [elementChars, toList_parenthesized, h, if_neg Bool.false_ne_true, chars]

theorem chars_array (t : Ty) : (array t).chars = t.elementChars ++ ['[', ']'] := by
  rw [chars, display, String.toList_append, elementChars]
  rfl

theorem chars_stringLiteral (value : String) : (stringLiteral value).chars = Text.quote value.toList := by
  rw [chars, display, Text.quoted, String.toList_ofList]

/-! ### Lists with something between -/

theorem intercalate_cons {α : Type} (sep l : List α) (ls : List (List α)) :
    sep.intercalate (l :: ls) = l ++ ls.flatMap (sep ++ ·) := by
  induction ls generalizing l with
  | nil => simp
  | cons l' ls ih => rw [List.intercalate_cons_cons, ih, List.flatMap_cons, List.append_assoc, List.append_assoc]

/-- The characters of some types with bars between them. -/
def barredChars : List Ty → List Char
  | [] => []
  | t :: ts => t.elementChars ++ ts.flatMap fun t => ' ' :: '|' :: ' ' :: t.elementChars

theorem displayMembers_eq (ts : List Ty) :
    displayMembers ts = ts.map fun t => parenthesized t.needsParensInUnion t.display := by
  induction ts with
  | nil => rfl
  | cons t ts ih => rw [displayMembers, ih, List.map_cons]

/-- What is no union is put in parentheses in a union where it is before brackets. -/
theorem needsParensInUnion_eq (h : ∀ us, t ≠ union us) : t.needsParensInUnion = t.needsParensInArray := by
  cases t with
  | union us => exact absurd rfl (h us)
  | _ => rfl

theorem chars_union (h : ∀ t ∈ ts, ∀ us, t ≠ union us) : (union ts).chars = barredChars ts := by
  have hmembers : (displayMembers ts).map String.toList = ts.map elementChars := by
    rw [displayMembers_eq, List.map_map]
    refine List.map_congr_left fun t ht => ?_
    rw [Function.comp_apply, needsParensInUnion_eq (h t ht), elementChars]
  rw [chars, display, String.toList_intercalate, hmembers]
  cases ts with
  | nil => rfl
  | cons t ts =>
    rw [List.map_cons, intercalate_cons, List.flatMap_map]
    rfl

/-! ### Parameters -/

/-- What stands in front of the type of a parameter. -/
def paramHead (p : Param Ty) : List Char :=
  (if p.rest then ['.', '.', '.'] else []) ++ p.name.toList ++ (if p.optional then ['?'] else []) ++ [':', ' ']

/-- The characters of parameters with commas between them. -/
def paramsChars : List (Param Ty) → List Char
  | [] => []
  | p :: ps => paramHead p ++ p.type.chars ++ ps.flatMap fun p => ',' :: ' ' :: (paramHead p ++ p.type.chars)

theorem displayParams_eq (ps : List (Param Ty)) : (displayParams ps).map String.toList =
    ps.map fun p => paramHead p ++ p.type.chars := by
  induction ps with
  | nil => rfl
  | cons p ps ih =>
    obtain ⟨name, type, optional, rest⟩ := p
    rw [displayParams, List.map_cons, ih, List.map_cons]
    cases rest <;> cases optional <;> simp [paramHead, chars]

theorem chars_function (params : List (Param Ty)) (ret : Ty) : (function params ret).chars =
    '(' :: (paramsChars params ++ ')' :: ' ' :: '=' :: '>' :: ' ' :: ret.chars) := by
  have hparams : (", ".intercalate (displayParams params)).toList = paramsChars params := by
    rw [String.toList_intercalate, displayParams_eq]
    cases params with
    | nil => rfl
    | cons p ps =>
      rw [List.map_cons, intercalate_cons, List.flatMap_map]
      rfl
  rw [chars, display]
  simp [hparams, chars]

/-! ### Brackets -/

/-- What a list is a list of, at whatever depth. -/
def core : Ty → Ty
  | array t => core t
  | t => t

/-- How many lists there are around the core. -/
def depth : Ty → Nat
  | array t => depth t + 1
  | _ => 0

/-- Pairs of brackets. -/
def brackets : Nat → List Char
  | 0 => []
  | n + 1 => '[' :: ']' :: brackets n

theorem brackets_succ (n : Nat) : brackets (n + 1) = brackets n ++ ['[', ']'] := by
  induction n with
  | zero => rfl
  | succ n ih => exact congrArg (fun cs => '[' :: ']' :: cs) ih

theorem core_of_ne_array (h : ∀ e, t ≠ array e) : t.core = t := by
  cases t with
  | array e => exact absurd rfl (h e)
  | _ => rfl

theorem core_ne_array (t e : Ty) : t.core ≠ array e := by
  induction t using core.induct with
  | case1 t ih => exact ih
  | case2 t h => rw [core_of_ne_array h]; exact h e

theorem depth_of_ne_array (h : ∀ e, t ≠ array e) : t.depth = 0 := by
  cases t with
  | array e => exact absurd rfl (h e)
  | _ => rfl

/-- A type is known from its core and the number of lists around it. -/
theorem eq_of_core_eq {s : Ty} (hcore : s.core = t.core) (hdepth : s.depth = t.depth) : s = t := by
  induction s using core.induct generalizing t with
  | case1 s ih =>
    cases t with
    | array t =>
      exact congrArg array (ih (t := t) hcore (Nat.succ.inj hdepth))
    | _ => cases hdepth
  | case2 s hs =>
    have ht : ∀ e, t ≠ array e := by
      rintro e rfl
      rw [depth_of_ne_array hs] at hdepth
      cases hdepth
    rwa [core_of_ne_array hs, core_of_ne_array ht] at hcore

/-- A list is written as its core and a pair of brackets for each list. -/
theorem elementChars_eq (t : Ty) : t.elementChars = t.core.elementChars ++ brackets t.depth := by
  induction t using core.induct with
  | case1 t ih =>
    rw [elementChars_of_not_parens rfl, chars_array, ih, List.append_assoc, ← brackets_succ]
    rfl
  | case2 t h => rw [core_of_ne_array h, depth_of_ne_array h, brackets, List.append_nil]

/-- Brackets end where there are no more of them. -/
theorem brackets_append_inj {m n : Nat} {r r' : List Char} (hr : r.head? ≠ some '[') (hr' : r'.head? ≠ some '[')
    (h : brackets m ++ r = brackets n ++ r') : m = n ∧ r = r' := by
  induction m generalizing n with
  | zero =>
    cases n with
    | zero => exact ⟨rfl, h⟩
    | succ n => exact absurd (congrArg List.head? h) hr
  | succ m ih =>
    cases n with
    | zero => exact absurd (congrArg List.head? h).symm hr'
    | succ n =>
      obtain ⟨rfl, hrest⟩ := ih (List.cons.inj (List.cons.inj h).2).2
      exact ⟨rfl, hrest⟩

/-! ### What parameters begin with -/

/-- The mark of a parameter that may be left out, and what always stands in front of its type. -/
def markChars (optional : Bool) : List Char := (if optional then ['?'] else []) ++ [':', ' ']

theorem paramHead_eq (p : Param Ty) :
    paramHead p = (if p.rest then ['.', '.', '.'] else []) ++ (p.name.toList ++ markChars p.optional) := by
  simp only [paramHead, markChars, List.append_assoc]

theorem not_isNamePart_of_markChars (optional : Bool) (r : List Char) :
    ∀ c ∈ (markChars optional ++ r).head?, Lexeme.isNamePart c = false := by
  cases optional <;> simp [markChars] <;> decide

theorem markChars_append_inj {o o' : Bool} {r r' : List Char} (h : markChars o ++ r = markChars o' ++ r') :
    o = o' ∧ r = r' := by
  cases o <;> cases o' <;> simp_all [markChars]

/-- A name and a mark begin with a character of names or of marks. -/
theorem head?_nameAndMark_ne {name : List Char} (h : ∀ c ∈ name, Lexeme.isNamePart c = true) (optional : Bool)
    (r : List Char) {d : Char} (hname : Lexeme.isNamePart d = false) (hmark : d ∉ ['?', ':']) :
    (name ++ (markChars optional ++ r)).head? ≠ some d := by
  intro hd
  cases name with
  | nil => cases optional <;> obtain rfl := Option.some.inj hd <;> exact hmark (by decide)
  | cons c name =>
    obtain rfl : c = d := Option.some.inj hd
    exact Bool.false_ne_true (hname.symm.trans (h c List.mem_cons_self))

/-- No parameter begins with the parenthesis that ends the parameters. -/
theorem head?_paramHead_ne {p : Param Ty} (h : ∀ c ∈ p.name.toList, Lexeme.isNamePart c = true) (r : List Char) :
    (paramHead p ++ r).head? ≠ some ')' := by
  rw [paramHead_eq, List.append_assoc, List.append_assoc]
  cases p.rest with
  | true => exact fun hr => absurd (Option.some.inj hr) (by decide)
  | false => exact head?_nameAndMark_ne h _ _ (by decide) (by decide)

/-- What stands in front of the type of a parameter says which parameter it is, apart from the type, and where it
ends. -/
theorem paramHead_append_inj {p q : Param Ty} {r r' : List Char} (hp : ∀ c ∈ p.name.toList, Lexeme.isNamePart c = true)
    (hq : ∀ c ∈ q.name.toList, Lexeme.isNamePart c = true) (h : paramHead p ++ r = paramHead q ++ r') :
    p.name = q.name ∧ p.optional = q.optional ∧ p.rest = q.rest ∧ r = r' := by
  have hname : p.name.toList ++ (markChars p.optional ++ r) = q.name.toList ++ (markChars q.optional ++ r') →
      p.name = q.name ∧ p.optional = q.optional ∧ r = r' := by
    intro h
    obtain ⟨hname, hmark⟩ := word_append_inj hp hq (not_isNamePart_of_markChars _ _) (not_isNamePart_of_markChars _ _) h
    exact ⟨String.toList_inj.mp hname, markChars_append_inj hmark⟩
  rw [paramHead_eq, paramHead_eq, List.append_assoc, List.append_assoc, List.append_assoc, List.append_assoc] at h
  cases hrest : p.rest <;> cases hrest' : q.rest <;> rw [hrest, hrest'] at h
  · obtain ⟨hname, hoptional, hr⟩ := hname h
    exact ⟨hname, hoptional, rfl, hr⟩
  · exact absurd (congrArg List.head? h) (head?_nameAndMark_ne hp _ _ (by decide) (by decide))
  · exact absurd (congrArg List.head? h).symm (head?_nameAndMark_ne hq _ _ (by decide) (by decide))
  · obtain ⟨hname, hoptional, hr⟩ := hname (List.append_cancel_left h)
    exact ⟨hname, hoptional, rfl, hr⟩

/-- Whether a text begins as the parameters of a function and what follows them do: with a parenthesis, or with points
and a name, both of which may be missing, and one of the marks behind them. -/
def opensParams (cs : List Char) : Bool :=
  cs.head? == some ')' || (cs.dropWhile isWordChar).head?.any fun c => c == '?' || c == ':'

theorem opensParams_paramsChars {params : List (Param Ty)}
    (h : ∀ p ∈ params, ∀ c ∈ p.name.toList, Lexeme.isNamePart c = true) (r : List Char) :
    opensParams (paramsChars params ++ ')' :: r) = true := by
  cases params with
  | nil => rfl
  | cons p ps =>
    have hpoints : ∀ c ∈ (if p.rest then ['.', '.', '.'] else []), isWordChar c = true :=
      List.all_eq_true.mp (by cases p.rest <;> decide)
    have hname : ∀ c ∈ p.name.toList, isWordChar c = true := fun c hc =>
      isWordChar_of_isNamePart (h p List.mem_cons_self c hc)
    refine Bool.or_eq_true_iff.mpr (.inr ?_)
    rw [paramsChars, paramHead_eq]
    simp only [List.append_assoc]
    rw [List.dropWhile_append_of_pos hpoints, List.dropWhile_append_of_pos hname]
    cases p.optional <;> rfl

end ScriptAnalysis.Ty

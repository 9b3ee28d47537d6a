import ScriptAnalysis.Token.Lexeme
import ScriptAnalysis.Types.Display
import ScriptAnalysis.Proofs.Decimal.Numerals
import ScriptAnalysis.Proofs.Semantics.Objects

/-!
# Types written as one word

Most types without parts and all objects of the environment are written as one word: a name of the language, a written
number, or the name of an object. The word says which type it is (`Ty.IsWord.eq_of_display_eq`): no number is written
like a name, and the objects of the environment have different names, none of them a name of the language.
-/

namespace ScriptAnalysis

open Semantics (Globals)

/-! ### Objects of the environment -/

/-- The names of the objects that sets of names bring along. -/
def objectNames : List String :=
  ["Math", "JSON", "NumberConstructor", "StringConstructor", "Console", "Document", "Window"]

/-- The objects of the environment have names of their own, in one order. -/
theorem Semantics.Globals.objects_sublist (libs : List Config.Lib) :
    ((ofLibs libs).objects.map (·.1)).Sublist objectNames := by
  have hall : ∀ language document console : Bool,
      (((((if language then Ambient.language else []) ++ (if document then Ambient.document else []) ++
        (if console then Ambient.console else [])).foldl define initial).objects.map (·.1)).Sublist objectNames) := by
    decide +kernel
  exact hall _ _ _

/-! ### Words -/

/-- Whether a character belongs to a name or to a written number. -/
def isWordChar (c : Char) : Bool := Lexeme.isNamePart c || c == '.' || c == '-'

/-- Whether a text is a word: it has only such characters, and one at least. -/
def isWordText (w : List Char) : Bool := !w.isEmpty && w.all isWordChar

theorem isWordChar_of_isNamePart {c : Char} (h : Lexeme.isNamePart c = true) : isWordChar c = true := by
  rw [isWordChar, h, Bool.true_or, Bool.true_or]

theorem isWordText_iff {w : List Char} : isWordText w = true ↔ w ≠ [] ∧ ∀ c ∈ w, isWordChar c = true := by
  simp [isWordText]

theorem isWordText_of_isNumeral {w : List Char} (h : Decimal.IsNumeral w) : isWordText w = true := by
  have hdigit : ∀ c : Char, c.isDigit = true → isWordChar c = true := by
    intro c hc
    simp [isWordChar, Lexeme.isNamePart, hc]
  cases h with
  | word h => revert w; decide
  | @digits c cs hc hcs =>
    have hhead : isWordChar c = true := hc.elim (hdigit c) fun h => h ▸ rfl
    have htail : ∀ d ∈ cs, isWordChar d = true := fun d hd => (hcs d hd).elim (hdigit d) fun h => h ▸ rfl
    exact isWordText_iff.mpr ⟨List.cons_ne_nil _ _, List.forall_mem_cons.mpr ⟨hhead, htail⟩⟩

/-- Whether a text begins like a written number or is one of the words that stand for one. -/
def opensNumeral (w : List Char) : Bool :=
  decide (w ∈ [['N', 'a', 'N'], ['i', 'n', 'f'], ['-', 'i', 'n', 'f']]) || w.head?.any fun c => c.isDigit || c == '-'

theorem opensNumeral_of_isNumeral {w : List Char} (h : Decimal.IsNumeral w) : opensNumeral w = true := by
  cases h with
  | word h => simp [opensNumeral, h]
  | digits hc => simp [opensNumeral, hc]

namespace Ty

/-- The types that have a name of the language. -/
def namedTypes : List Ty :=
  [any, unknown, never, void, undefined, null, number, string, boolean, booleanLiteral true, booleanLiteral false]

/-- The types that are written as one word. -/
inductive IsWord (globals : Globals) : Ty → Prop where
  /-- The type has a name of the language. -/
  | named {t : Ty} (h : t ∈ namedTypes) : IsWord globals t
  /-- The type of one number. -/
  | numeral {text : String} (h : Decimal.IsNumeral text.toList) : IsWord globals (numberLiteral text)
  /-- An object of the environment. -/
  | object {id : Nat} {name : String} {members : List (String × Ty)}
      (h : globals.objects[id]? = some (name, members)) : IsWord globals (object id name members)

variable {libs : List Config.Lib} {s t : Ty}

theorem display_ne_of_mem_namedTypes : ∀ t ∈ namedTypes, ∀ n ∈ objectNames, t.display ≠ n := by
  simp [namedTypes, objectNames, display]

theorem display_inj_of_mem_namedTypes : ∀ s ∈ namedTypes, ∀ t ∈ namedTypes, s.display = t.display → s = t := by
  simp [namedTypes, display]

theorem opensNumeral_of_mem_namedTypes : ∀ t ∈ namedTypes, opensNumeral t.display.toList = false := by
  simp [namedTypes, display, opensNumeral]

theorem opensNumeral_of_mem_objectNames : ∀ n ∈ objectNames, opensNumeral n.toList = false := by
  simp [objectNames, opensNumeral]

theorem isWordText_of_mem_namedTypes : ∀ t ∈ namedTypes, isWordText t.display.toList = true := by
  simp [namedTypes, display, isWordText, isWordChar, Lexeme.isNamePart, Lexeme.isNameStart]

theorem isWordText_of_mem_objectNames : ∀ n ∈ objectNames, isWordText n.toList = true := by
  simp [objectNames, isWordText, isWordChar, Lexeme.isNamePart, Lexeme.isNameStart]

theorem mem_objectNames {id : Nat} {name : String} {members : List (String × Ty)}
    (h : (Globals.ofLibs libs).objects[id]? = some (name, members)) : name ∈ objectNames :=
  (Globals.objects_sublist libs).subset (List.mem_map.mpr ⟨_, List.mem_of_getElem? h, rfl⟩)

/-- An object of the environment is known from its name. -/
theorem object_eq_of_name_eq {i j : Nat} {name : String} {ms ns : List (String × Ty)}
    (hi : (Globals.ofLibs libs).objects[i]? = some (name, ms))
    (hj : (Globals.ofLibs libs).objects[j]? = some (name, ns)) : object i name ms = object j name ns := by
  have hnodup : ((Globals.ofLibs libs).objects.map (·.1)).Nodup := (Globals.objects_sublist libs).nodup (by decide)
  have hnames : ((Globals.ofLibs libs).objects.map (·.1))[i]? = ((Globals.ofLibs libs).objects.map (·.1))[j]? := by
    rw [List.getElem?_map, List.getElem?_map, hi, hj]
    rfl
  have hlt : i < ((Globals.ofLibs libs).objects.map (·.1)).length := by
    rw [List.length_map]
    exact (List.getElem?_eq_some_iff.mp hi).1
  obtain rfl := (List.getElem?_inj hlt hnodup).mp hnames
  obtain rfl : ms = ns := congrArg Prod.snd (Option.some.inj (hi.symm.trans hj))
  rfl

@[simp] theorem display_numberLiteral (text : String) : (numberLiteral text).display = text := by
  rw [display]

@[simp] theorem display_object (id : Nat) (name : String) (members : List (String × Ty)) :
    (object id name members).display = name := by
  rw [display]

theorem IsWord.isWordText_display (h : t.IsWord (Globals.ofLibs libs)) : isWordText t.display.toList = true := by
  cases h with
  | named h => exact isWordText_of_mem_namedTypes t h
  | numeral h =>
    rw [display_numberLiteral]
    exact isWordText_of_isNumeral h
  | object h =>
    rw [display_object]
    exact isWordText_of_mem_objectNames _ (mem_objectNames h)

/-- Only numbers are written like numbers. -/
theorem IsWord.eq_numberLiteral (h : t.IsWord (Globals.ofLibs libs)) {text : String} (htext : t.display = text)
    (hnumeral : Decimal.IsNumeral text.toList) : t = numberLiteral text := by
  subst htext
  have hopens := opensNumeral_of_isNumeral hnumeral
  cases h with
  | named h =>
    rw [opensNumeral_of_mem_namedTypes t h] at hopens
    cases hopens
  | numeral => rw [display_numberLiteral]
  | object h =>
    rw [display_object, opensNumeral_of_mem_objectNames _ (mem_objectNames h)] at hopens
    cases hopens

/-- **A word says which type it is.** -/
theorem IsWord.eq_of_display_eq (hs : s.IsWord (Globals.ofLibs libs)) (ht : t.IsWord (Globals.ofLibs libs))
    (h : s.display = t.display) : s = t := by
  cases hs with
  | numeral hs => exact (ht.eq_numberLiteral (by rw [← h, display_numberLiteral]) hs).symm
  | named hs =>
    cases ht with
    | named ht => exact display_inj_of_mem_namedTypes s hs t ht h
    | numeral ht =>
      have hword : s.IsWord (Globals.ofLibs libs) := .named hs
      exact hword.eq_numberLiteral (by rw [h, display_numberLiteral]) ht
    | object ht => exact absurd h (display_ne_of_mem_namedTypes s hs _ (mem_objectNames ht))
  | object hs =>
    cases ht with
    | named ht => exact absurd h.symm (display_ne_of_mem_namedTypes t ht _ (mem_objectNames hs))
    | numeral ht => exact (IsWord.object hs).eq_numberLiteral (by rw [h, display_numberLiteral]) ht
    | object ht =>
      rw [display_object, display_object] at h
      subst h
      exact object_eq_of_name_eq hs ht

end Ty

end ScriptAnalysis

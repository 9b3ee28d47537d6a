import Mathlib.Data.List.TakeWhile
import ScriptAnalysis.Proofs.Token.StringForms

/-!
# Words that are written whole

Names, reserved words, punctuators, numbers and strings as they are written. Each is a whole word: a
space behind it ends it. `Escape.spell` writes a string between double quotes, and `value_spell` says that
its value is the string again.
-/

namespace ScriptAnalysis

namespace Word

/-! ### Names and reserved words -/

/-- The word of a name; a name with the spelling of a reserved word is that word. -/
def ofName (name : String) : Word :=
  ⟨(TokenKind.reservedWord? name.toList).getD .identifier, name⟩

/-- The word of a reserved word or punctuator. -/
def ofKind (kind : TokenKind) : Word := ⟨kind, kind.spelling?.getD ""⟩

/-- The characters of a name: a letter, `_` or `$`, and then also digits. -/
def IsName (name : String) : Prop :=
  ∃ c cs, name.toList = c :: cs ∧ Lexeme.isNameStart c = true ∧ cs.all Lexeme.isNamePart = true

theorem isLayout_of_isNameStart {c : Char} (h : Lexeme.isNameStart c = true) :
    Lexeme.isLayout c = false := by
  rw [Bool.eq_false_iff]
  intro hl
  simp only [Lexeme.isLayout, Bool.or_eq_true, beq_iff_eq] at hl
  rcases hl with ((((rfl | rfl) | rfl) | rfl) | rfl) | rfl <;> revert h <;> decide

/-- What is taken while characters are of a class ends at a space that is not. -/
theorem takeWhile_append_of_breaks {p : Char → Bool} (hp : p ' ' = false) (cs : List Char)
    {rest : List Char} (h : Breaks rest) : (cs ++ rest).takeWhile p = cs.takeWhile p := by
  induction cs with
  | nil =>
    rcases h with rfl | ⟨rest, rfl⟩
    · rfl
    · simp [hp]
  | cons c cs ih => simp [List.takeWhile_cons, ih]

theorem isWhole_ofName {name : String} (h : IsName name) : (ofName name).IsWhole := by
  obtain ⟨c, cs, htext, hstart, hpart⟩ := h
  refine ⟨c, cs, htext, isLayout_of_isNameStart hstart, fun rest hrest => ?_⟩
  have htake : (cs ++ rest).takeWhile Lexeme.isNamePart = cs := by
    rw [takeWhile_append_of_breaks (by decide) cs hrest]
    exact List.takeWhile_eq_self_iff.2 (List.all_eq_true.1 hpart)
  simp [Lexeme.classify, isLayout_of_isNameStart hstart, hstart, htake, ofName, htext]

theorem isName_spelling {kind : TokenKind} (h : kind ∈ TokenKind.reservedWords) :
    IsName (kind.spelling?.getD "") ∧ ofName (kind.spelling?.getD "") = ofKind kind := by
  simp only [TokenKind.reservedWords, List.mem_cons, List.not_mem_nil, or_false] at h
  rcases h with rfl | rfl | rfl | rfl | rfl | rfl | rfl | rfl | rfl | rfl | rfl | rfl <;>
    exact ⟨⟨_, _, rfl, by decide, by decide⟩, by decide⟩

theorem isWhole_ofKind_of_isReservedWord {kind : TokenKind} (h : kind ∈ TokenKind.reservedWords) :
    (ofKind kind).IsWhole := by
  obtain ⟨hname, heq⟩ := isName_spelling h
  exact heq ▸ isWhole_ofName hname

/-! ### Punctuators -/

theorem isWhole_ofKind_of_isPunctuator {kind : TokenKind} (h : kind ∈ TokenKind.punctuators) :
    (ofKind kind).IsWhole := by
  simp only [TokenKind.punctuators, List.mem_cons, List.not_mem_nil, or_false] at h
  rcases h with rfl | rfl | rfl | rfl | rfl | rfl | rfl | rfl | rfl | rfl | rfl | rfl | rfl | rfl |
    rfl | rfl | rfl | rfl | rfl | rfl | rfl | rfl | rfl | rfl | rfl | rfl | rfl | rfl | rfl | rfl |
    rfl | rfl <;>
  · refine ⟨_, _, rfl, by decide, fun rest hrest => ?_⟩
    rcases hrest with rfl | ⟨rest, rfl⟩ <;> rfl

/-- A kind with one spelling is a whole word. -/
theorem isWhole_ofKind {kind : TokenKind} (h : kind.spelling?.isSome = true) :
    (ofKind kind).IsWhole := by
  rcases (TokenKind.isSome_spelling?_iff kind).1 h with h | h
  · exact isWhole_ofKind_of_isReservedWord (List.contains_iff_mem.1 h)
  · exact isWhole_ofKind_of_isPunctuator (List.contains_iff_mem.1 h)

/-! ### Numbers -/

/-- The characters of a number: digits, with all that follows them read as one number. -/
def IsNumeral (text : String) : Prop :=
  ∃ c cs, text.toList = c :: cs ∧ c.isDigit = true ∧ Lexeme.number (c :: cs) = c :: cs

theorem isLayout_of_isDigit {c : Char} (h : c.isDigit = true) : Lexeme.isLayout c = false := by
  rw [Bool.eq_false_iff]
  intro hl
  simp only [Lexeme.isLayout, Bool.or_eq_true, beq_iff_eq] at hl
  rcases hl with ((((rfl | rfl) | rfl) | rfl) | rfl) | rfl <;> revert h <;> decide

theorem isNameStart_of_isDigit {c : Char} (h : c.isDigit = true) :
    Lexeme.isNameStart c = false := by
  have hle : c.toNat ≤ '9'.toNat := by
    simp only [Char.isDigit, Bool.and_eq_true, decide_eq_true_eq] at h
    exact UInt32.le_iff_toNat_le.1 h.2
  have hupper : c.isUpper = false := by
    refine Bool.eq_false_iff.2 fun hc => ?_
    have hA : 'A'.toNat ≤ c.toNat := UInt32.le_iff_toNat_le.1 (of_decide_eq_true hc).1
    exact absurd (hA.trans hle) (by decide)
  have hlower : c.isLower = false := by
    refine Bool.eq_false_iff.2 fun hc => ?_
    have hcs : 'a'.val ≤ c.val := of_decide_eq_true (Bool.and_eq_true_iff.1 hc).1
    exact absurd ((UInt32.le_iff_toNat_le.1 hcs).trans hle) (by decide)
  have hunderscore : c ≠ '_' := by
    rintro rfl
    exact absurd h (by decide)
  have hdollar : c ≠ '$' := by
    rintro rfl
    exact absurd h (by decide)
  have halpha : c.isAlpha = false := by
    show (c.isUpper || c.isLower) = false
    rw [hupper, hlower]
    rfl
  simp [Lexeme.isNameStart, halpha, hunderscore, hdollar]

theorem isWhole_numeral {text : String} (h : IsNumeral text) :
    (Word.mk .numericLiteral text).IsWhole := by
  obtain ⟨c, cs, htext, hdigit, hnumber⟩ := h
  refine ⟨c, cs, htext, isLayout_of_isDigit hdigit, fun rest hrest => ?_⟩
  have hlongest := Pattern.isLongest_number hdigit cs
  rw [hnumber] at hlongest
  have hbehind : Pattern.IsLongest (Pattern.hexNumber + Pattern.decimalNumber) (c :: (cs ++ rest)) (c :: cs) := by
    rcases hrest with rfl | ⟨rest, rfl⟩
    · rwa [List.append_nil]
    · have hspace : Pattern.Over (· ≠ ' ') (Pattern.hexNumber + Pattern.decimalNumber) := by
        rintro w hw _ hc rfl
        exact absurd (Pattern.over_number w hw ' ' hc) (by decide)
      exact hlongest.append_cons hspace rest
  have hsame := hbehind.eq (Pattern.isLongest_number hdigit _)
  simp [Lexeme.classify, isLayout_of_isDigit hdigit, isNameStart_of_isDigit hdigit, hdigit, hsame]

end Word

/-! ### Strings -/

namespace Escape

/-- A character as it is written between double quotes. -/
def spellChar (c : Char) : List Char :=
  if c = '"' ∨ c = '\\' then ['\\', c]
  else if c = '\n' then ['\\', 'n']
  else if c = '\r' then ['\\', 'r']
  else [c]

/-- A string between double quotes. -/
def spell (s : List Char) : List Char := '"' :: (s.flatMap spellChar ++ ['"'])

theorem writes_spellChar (c : Char) : Writes '"' c (spellChar c) := by
  unfold spellChar
  split
  · rename_i h
    exact .escaped (by rcases h with rfl | rfl <;> decide)
  split
  · rename_i h
    exact .letter 'n' (by simp [h])
  split
  · rename_i h
    exact .letter 'r' (by simp [h])
  · rename_i hquote hn hr
    exact .itself (by simp_all)

theorem forall₂_spellChar (s : List Char) : List.Forall₂ (Writes '"') s (s.map spellChar) := by
  induction s with
  | nil => exact .nil
  | cons c s ih => exact .cons (writes_spellChar c) ih

/-- The value of a string that is written between quotes is the string. -/
theorem value_spell (s : List Char) : value (spell s) = s :=
  (value_between (.inl rfl) _).trans (unescape_flatten (forall₂_spellChar s))

end Escape

namespace Word

/-- The word of a string. -/
def ofString (s : String) : Word := ⟨.stringLiteral, String.ofList (Escape.spell s.toList)⟩

theorem isWhole_ofString (s : String) : (ofString s).IsWhole :=
  isWhole_string (.inl rfl) (Escape.flatten_mem_closed (.inl rfl) (Escape.forall₂_spellChar s.toList))

end Word

end ScriptAnalysis

import ScriptAnalysis.Proofs.Token.Patterns
import ScriptAnalysis.Proofs.Token.Word
import ScriptAnalysis.Token.Escape

/-!
# The ways to write a string

Between quotes a character can be written as itself, after a backslash, by a letter that stands for it, or by
its number in base sixteen (`Escape.Writes`). Whatever way is chosen for each character of a string, what is
written between the quotes is one token, and its value is the string (`Escape.value_enclosed`).
-/

namespace ScriptAnalysis

open Text
open scoped Computability

/-- What stands between two quotes is read as one token, whatever follows. -/
theorem Word.isWhole_string {q : Char} {w : List Char} (hq : q = '"' ∨ q = '\'') (hw : w ∈ Pattern.closed q) :
    (Word.mk .stringLiteral (String.ofList (q :: w))).IsWhole := by
  have hhead : Lexeme.isLayout q = false ∧ Lexeme.isNameStart q = false ∧ q.isDigit = false ∧ q ≠ '\\' := by
    rcases hq with rfl | rfl <;> decide
  obtain ⟨hlayout, hname, hdigit, hbackslash⟩ := hhead
  refine ⟨q, w, String.toList_ofList, hlayout, fun rest _ => ?_⟩
  simp [Lexeme.classify, hlayout, hname, hdigit, hq, Pattern.stringBody_append hbackslash hw]

namespace Escape

/-! ### The forms of a character -/

/-- The digit has the value in base sixteen, as a small or a capital letter from ten on. -/
def WritesDigit (n : Nat) (d : Char) : Prop := d = n.digitChar ∨ d = n.digitChar.toUpper

/-- The characters write `c` between two quotes `q`. -/
inductive Writes (q c : Char) : List Char → Prop where
  /-- The character itself. -/
  | itself (h : c ∉ [q, '\\', '\n', '\r']) : Writes q c [c]
  /-- A letter that stands for the character after a backslash. -/
  | letter (l : Char) (h : (c, l) ∈ [('\n', 'n'), ('\t', 't'), ('\r', 'r'), ('\x00', '0')]) :
    Writes q c ['\\', l]
  /-- The character after a backslash. -/
  | escaped (h : c ∉ ['n', 't', 'r', '0', 'u', '\n']) : Writes q c ['\\', c]
  /-- The number of the character, in four digits. -/
  | numbered (d₃ d₂ d₁ d₀ : Char) (h : c.toNat < 0x10000) (h₃ : WritesDigit (c.toNat / 0x1000) d₃)
      (h₂ : WritesDigit (c.toNat / 0x100 % 0x10) d₂) (h₁ : WritesDigit (c.toNat / 0x10 % 0x10) d₁)
      (h₀ : WritesDigit (c.toNat % 0x10) d₀) : Writes q c ['\\', 'u', d₃, d₂, d₁, d₀]

variable {q c d : Char} {n : Nat} {s w : List Char} {parts : List (List Char)}

theorem WritesDigit.hexDigit?_eq (h : WritesDigit n d) (hn : n < 16) : hexDigit? d = some n := by
  have hall : ∀ n < 16, hexDigit? n.digitChar = some n ∧ hexDigit? n.digitChar.toUpper = some n := by decide
  rcases h with rfl | rfl
  · exact (hall n hn).1
  · exact (hall n hn).2

/-- A digit can stand between quotes. -/
theorem WritesDigit.mem_piece (h : WritesDigit n d) (hn : n < 16) (hq : q = '"' ∨ q = '\'') :
    [d] ∈ Pattern.piece q := by
  have hnone : ∀ e ∈ [q, '\\', '\n', '\r'], hexDigit? e = none := by
    rcases hq with rfl | rfl <;> simp [hexDigit?]
  exact .inl ⟨d, fun hd => Option.some_ne_none n ((h.hexDigit?_eq hn).symm.trans (hnone d hd)), rfl⟩

/-! ### What a written character stands for -/

theorem unescape_backslash {c : Char} (h : c ≠ 'u') (cs : List Char) :
    unescape ('\\' :: c :: cs) = plain c :: unescape cs := by
  rw [unescape.eq_def]
  split
  · simp at *
  · simp at *
  · simp_all
  · simp_all
  · rename_i heq
    simp only [List.cons.injEq, true_and] at heq
    rw [heq.1, heq.2]
  · rename_i hne heq
    simp only [List.cons.injEq] at heq
    exact absurd heq.2.symm (hne c cs heq.1.symm)

theorem unescape_cons {c : Char} (h : c ≠ '\\') (cs : List Char) :
    unescape (c :: cs) = c :: unescape cs := by
  rw [unescape.eq_def]
  split <;> simp_all

theorem character?_toNat (c : Char) : character? c.toNat = some c := by
  have hvalid : c.toNat.isValidChar := c.valid
  rw [character?, if_pos hvalid, Char.ofNat_toNat]

theorem numbered_digits {d₃ d₂ d₁ d₀ : Char} (h : c.toNat < 0x10000) (h₃ : WritesDigit (c.toNat / 0x1000) d₃)
    (h₂ : WritesDigit (c.toNat / 0x100 % 0x10) d₂) (h₁ : WritesDigit (c.toNat / 0x10 % 0x10) d₁)
    (h₀ : WritesDigit (c.toNat % 0x10) d₀) : numbered [d₃, d₂, d₁, d₀] = [c] := by
  have e₃ := h₃.hexDigit?_eq (by omega)
  have e₂ := h₂.hexDigit?_eq (by omega)
  have e₁ := h₁.hexDigit?_eq (by omega)
  have e₀ := h₀.hexDigit?_eq (by omega)
  have hplus : d₃ ≠ '+' := by
    rintro rfl
    have hnone : hexDigit? '+' = none := by decide
    exact absurd (hnone.symm.trans e₃) (Option.some_ne_none _).symm
  have hnumber : hexNumber? [d₃, d₂, d₁, d₀] = some c.toNat := by
    have hdigits : hexNumber? [d₃, d₂, d₁, d₀] = hexDigits? 0 [d₃, d₂, d₁, d₀] := by
      rw [hexNumber?.eq_def]
      split <;> simp_all
    simp only [hdigits, hexDigits?, e₃, e₂, e₁, e₀, Option.bind_some, Option.some.injEq]
    omega
  rw [numbered, hnumber, Option.bind_some, character?_toNat]

/-- A written character is read back in front of everything. -/
theorem Writes.unescape_append (h : Writes q c w) (rest : List Char) :
    unescape (w ++ rest) = c :: unescape rest := by
  cases h with
  | itself h => exact unescape_cons (by simp_all) rest
  | letter l h =>
    simp only [List.mem_cons, Prod.mk.injEq, List.not_mem_nil, or_false] at h
    rcases h with ⟨rfl, rfl⟩ | ⟨rfl, rfl⟩ | ⟨rfl, rfl⟩ | ⟨rfl, rfl⟩ <;>
      exact unescape_backslash (by decide) rest
  | escaped h =>
    simp only [List.mem_cons, List.not_mem_nil, or_false, not_or] at h
    obtain ⟨hn, ht, hr, hzero, hu, -⟩ := h
    have hplain : plain c = c := by rw [plain, if_neg hn, if_neg ht, if_neg hr, if_neg hzero]
    exact (unescape_backslash hu rest).trans (by rw [hplain])
  | numbered d₃ d₂ d₁ d₀ h h₃ h₂ h₁ h₀ =>
    have hnumber := numbered_digits h h₃ h₂ h₁ h₀
    exact congrArg (· ++ unescape rest) hnumber

/-- What a character is written with is made of what can stand between quotes. -/
theorem Writes.mem_star_piece (h : Writes q c w) (hq : q = '"' ∨ q = '\'') : w ∈ (Pattern.piece q)∗ := by
  have hescape : ∀ {l}, l ≠ '\n' → ['\\', l] ∈ (Pattern.piece q)∗ := fun hl =>
    Pattern.mem_star_of_mem (.inr ⟨['\\'], ⟨_, rfl, rfl⟩, [_], ⟨_, hl, rfl⟩, rfl⟩)
  cases h with
  | itself h => exact Pattern.mem_star_of_mem (.inl ⟨c, h, rfl⟩)
  | letter l h =>
    refine hescape ?_
    rintro rfl
    simp at h
  | escaped h => exact hescape fun hc => h (by simp [hc])
  | numbered d₃ d₂ d₁ d₀ h h₃ h₂ h₁ h₀ =>
    have hdigit : ∀ {n d}, WritesDigit n d → n < 16 → [d] ∈ (Pattern.piece q)∗ :=
      fun hd hn => Pattern.mem_star_of_mem (hd.mem_piece hn hq)
    have hhigh := Pattern.append_mem_star (hdigit h₃ (by omega)) (hdigit h₂ (by omega))
    have hlow := Pattern.append_mem_star (hdigit h₁ (by omega)) (hdigit h₀ (by omega))
    have hu : ['\\', 'u'] ∈ (Pattern.piece q)∗ := hescape (by decide)
    exact Pattern.append_mem_star hu (Pattern.append_mem_star hhigh hlow)

/-! ### Strings -/

/-- The value of what stands between quotes: both of them are one byte. -/
theorem value_between {q : Char} (hq : q = '"' ∨ q = '\'') (w : List Char) :
    value (q :: (w ++ [q])) = unescape w := by
  have hone : Text.byteLength [q] = 1 := by rcases hq with rfl | rfl <;> decide
  have happend : q :: (w ++ [q]) = [q] ++ w ++ [q] := rfl
  have hlength : Text.byteLength ([q] ++ w ++ [q]) - 1 = 1 + Text.byteLength w := by
    rw [Text.byteLength_append, Text.byteLength_append, hone, Nat.add_sub_cancel]
  have hslice := Text.slice_append_append [q] w [q]
  rw [hone] at hslice
  rw [happend, value, hlength, hslice, Option.getD_some]

/-- What is written for the characters of a string, between two quotes. -/
def enclosed (q : Char) (parts : List (List Char)) : List Char := q :: (parts.flatten ++ [q])

/-- What is written for the characters of a string stands for the string. -/
theorem unescape_flatten (h : List.Forall₂ (Writes q) s parts) : unescape parts.flatten = s := by
  induction h with
  | nil => rfl
  | cons hc _ ih => rw [List.flatten_cons, hc.unescape_append, ih]

theorem flatten_mem_closed (hq : q = '"' ∨ q = '\'') (h : List.Forall₂ (Writes q) s parts) :
    parts.flatten ++ [q] ∈ Pattern.closed q := by
  refine Language.append_mem_mul ?_ ⟨q, rfl, rfl⟩
  induction h with
  | nil => exact Language.nil_mem_kstar _
  | cons hc _ ih => exact Pattern.append_mem_star (hc.mem_star_piece hq) ih

end Escape

end ScriptAnalysis

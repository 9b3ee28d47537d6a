import ScriptAnalysis.Decimal.Shortest

/-!
# The characters of written numbers

A number is written with digits, a point among them and a sign in front, or as one of three words
(`Decimal.isNumeral_text`).
-/

namespace ScriptAnalysis.Decimal

/-- The forms that written numbers have. -/
inductive IsNumeral : List Char → Prop where
  /-- One of the words for what no digits write. -/
  | word {w : List Char} (h : w ∈ [['N', 'a', 'N'], ['i', 'n', 'f'], ['-', 'i', 'n', 'f']]) : IsNumeral w
  /-- A digit or a sign, and then digits and points. -/
  | digits {c : Char} {cs : List Char} (hc : c.isDigit = true ∨ c = '-')
      (hcs : ∀ d ∈ cs, d.isDigit = true ∨ d = '.') : IsNumeral (c :: cs)

/-- Digits first, and then digits and points. -/
theorem exists_digit_of_append {ds r : List Char} (hne : ds ≠ []) (hds : ∀ d ∈ ds, d.isDigit = true)
    (hr : ∀ d ∈ r, d.isDigit = true ∨ d = '.') :
    ∃ c cs, ds ++ r = c :: cs ∧ c.isDigit = true ∧ ∀ d ∈ cs, d.isDigit = true ∨ d = '.' := by
  cases ds with
  | nil => exact absurd rfl hne
  | cons c cs =>
    refine ⟨c, cs ++ r, rfl, hds c List.mem_cons_self, List.forall_mem_append.mpr ⟨fun d hd => ?_, hr⟩⟩
    exact .inl (hds d (List.mem_cons_of_mem c hd))

/-- Positional digits begin with a digit. -/
theorem Digits.exists_positional_eq_cons (d : Digits) :
    ∃ c cs, d.positional = c :: cs ∧ c.isDigit = true ∧ ∀ x ∈ cs, x.isDigit = true ∨ x = '.' := by
  have hdigit : ∀ x ∈ Nat.toDigits 10 d.digits, x.isDigit = true := fun x hx =>
    Nat.isDigit_of_mem_toDigits (by decide) (by decide) hx
  have hzero : ∀ n, ∀ x ∈ List.replicate n '0', x.isDigit = true := fun n x hx =>
    (List.eq_of_mem_replicate hx) ▸ rfl
  rw [Digits.positional]
  split
  · exact exists_digit_of_append Nat.toDigits_ne_nil hdigit fun x hx => .inl (hzero _ x hx)
  split
  · rename_i hafter
    refine exists_digit_of_append (List.ne_nil_of_length_pos ?_) (fun x hx => hdigit x (List.mem_of_mem_take hx))
      fun x hx => ?_
    · rw [List.length_take]
      omega
    · rcases List.mem_cons.mp hx with rfl | hx
      · exact .inr rfl
      · exact .inl (hdigit x (List.mem_of_mem_drop hx))
  · refine ⟨'0', _, rfl, rfl, fun x hx => ?_⟩
    rcases List.mem_cons.mp hx with rfl | hx
    · exact .inr rfl
    · exact .inl ((List.mem_append.mp hx).elim (hzero _ x) (hdigit x))

/-- **A written number** has one of the forms. -/
theorem isNumeral_text (v : Binary64) : IsNumeral v.text.toList := by
  cases v with
  | nan => exact .word (by decide)
  | infinite negative => cases negative <;> exact .word (by decide)
  | finite negative m e =>
    have hmagnitude : ∃ c cs, (if m = 0 then ['0'] else ((Interval.ofFinite m e).shortest.trimmed 20).positional) =
        c :: cs ∧ c.isDigit = true ∧ ∀ x ∈ cs, x.isDigit = true ∨ x = '.' := by
      split
      · exact ⟨'0', [], rfl, rfl, nofun⟩
      · exact Digits.exists_positional_eq_cons _
    obtain ⟨c, cs, heq, hc, hcs⟩ := hmagnitude
    rw [Binary64.text, String.toList_ofList, heq]
    cases negative with
    | true => exact .digits (.inr rfl) (List.forall_mem_cons.mpr ⟨.inl hc, hcs⟩)
    | false => exact .digits (.inl hc) hcs

end ScriptAnalysis.Decimal

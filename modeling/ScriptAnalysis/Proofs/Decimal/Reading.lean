import ScriptAnalysis.Decimal.Read
import ScriptAnalysis.Proofs.Token.Patterns

/-!
# Which written numbers are read

The two ways in which a program writes a number against what `Decimal.read?` accepts. A decimal number is
always read, and as a number (`read?_of_mem_decimalNumber`): its parts are those that reading looks for, because
none of them begins like what is taken before it. A hexadecimal number is never read
(`read?_of_mem_hexNumber`): behind the zero only an exponent could follow, and the letter is none.
-/

namespace ScriptAnalysis.Decimal

open Pattern

variable {w a b e : List Char}

/-! ### The parts of a decimal number -/

/-- Digits in front of what does not begin with a digit are the digits that are taken. -/
theorem takeWhile_isDigit_append (ha : ∀ c ∈ a, c.isDigit = true) (hb : ∀ c ∈ b.head?, c.isDigit = false) :
    (a ++ b).takeWhile Char.isDigit = a ∧ (a ++ b).dropWhile Char.isDigit = b := by
  rw [List.takeWhile_append_of_pos ha, List.dropWhile_append_of_pos ha]
  cases b with
  | nil => simp
  | cons c b =>
    have hc : c.isDigit = false := hb c rfl
    simp [hc]

/-- A digit is no sign. -/
theorem signed_of_isDigit {c : Char} (hc : c.isDigit = true) (cs : List Char) :
    signed (c :: cs) = (false, c :: cs) := by
  unfold signed
  split
  · exact absurd ((List.cons.inj ‹_›).1 ▸ hc) (by decide)
  · exact absurd ((List.cons.inj ‹_›).1 ▸ hc) (by decide)
  · rfl

/-- A fraction that may be missing is a point with its digits, or nothing. -/
theorem pointDigits_append (hb : b ∈ 1 + fraction)
    (he : ∀ c ∈ e.head?, c.isDigit = false ∧ c ≠ '.') : ∃ ds, pointDigits (b ++ e) = (ds, e) := by
  rw [fraction, digit_eq] at hb
  rcases hb with rfl | hb
  · refine ⟨[], ?_⟩
    cases e with
    | nil => rfl
    | cons c e =>
      have hc : c ≠ '.' := (he c rfl).2
      rw [List.nil_append, pointDigits]
      exact fun _ h => hc (List.cons.inj h).1
  · obtain ⟨_, ds, rfl, rfl, hds⟩ := mem_oneOf_mul.mp hb
    obtain ⟨-, hdigits⟩ := mem_several_oneOf_iff.mp hds
    obtain ⟨htake, hdrop⟩ := takeWhile_isDigit_append hdigits fun c hc => (he c hc).1
    exact ⟨ds, by rw [List.cons_append, pointDigits, htake, hdrop]⟩

/-- An exponent that may be missing is read. -/
theorem exists_exponent? (he : e ∈ 1 + exponent) : ∃ n, exponent? e = some n := by
  rw [exponent, signedDigits_eq] at he
  rcases he with rfl | he
  · exact ⟨0, rfl⟩
  · obtain ⟨x, r, rfl, hx, hr⟩ := mem_oneOf_mul.mp he
    have hx' : x = 'e' ∨ x = 'E' := List.mem_pair.mp hx
    have hread : ∀ negative ds, signed r = (negative, ds) → ds ∈ several (oneOf fun c => c.isDigit = true) →
        ∃ n, exponent? (x :: r) = some n := by
      intro negative ds hsigned hds
      obtain ⟨hne, hdigits⟩ := mem_several_oneOf_iff.mp hds
      have hall : ds.all Char.isDigit = true := List.all_eq_true.mpr hdigits
      simp only [exponent?, hsigned]
      rw [if_pos ⟨hx', hne, hall⟩]
      exact ⟨_, rfl⟩
    rcases hr with hr | hr
    · refine hread false r ?_ hr
      obtain ⟨hne, hdigits⟩ := mem_several_oneOf_iff.mp hr
      cases r with
      | nil => exact absurd rfl hne
      | cons c r => exact signed_of_isDigit (hdigits c List.mem_cons_self) r
    · obtain ⟨c, ds, rfl, hc, hds⟩ := mem_oneOf_mul.mp hr
      rcases List.mem_pair.mp hc with rfl | rfl
      · exact hread false ds rfl hds
      · exact hread true ds rfl hds

/-- What may be missing begins, if it is there, with a character of its class. -/
theorem head_of_mem_one_add {P : Char → Prop} {M : Language Char} (h : w ∈ 1 + oneOf P * M) :
    ∀ c ∈ w.head?, P c := by
  rcases h with rfl | h
  · exact fun c hc => absurd hc (Option.not_mem_none c)
  · obtain ⟨d, t, rfl, hd, -⟩ := mem_oneOf_mul.mp h
    rintro c ⟨rfl⟩
    exact hd

/-! ### What is read -/

theorem Binary64.ofRatio_ne_nan (negative : Bool) (num den : Nat) : ofRatio negative num den ≠ nan := by
  unfold ofRatio
  dsimp only
  repeat' split
  all_goals exact Binary64.noConfusion

/-- Digits with an exponent write a number. -/
theorem Binary64.ofDecimal_ne_nan (negative : Bool) (digits : Nat) (place : Int) :
    ofDecimal negative digits place ≠ nan := by
  unfold ofDecimal zero
  split
  · exact Binary64.noConfusion
  split
  · exact Binary64.noConfusion
  split
  · exact Binary64.noConfusion
  · exact ofRatio_ne_nan _ _ _

/-- **A decimal number is read**, and as a number. -/
theorem read?_of_mem_decimalNumber (h : w ∈ decimalNumber) : ∃ value, read? w = some value ∧ value ≠ .nan := by
  rw [decimalNumber, digit_eq] at h
  obtain ⟨_, ⟨a, ha, b, hb, rfl⟩, e, he, rfl⟩ := h
  obtain ⟨hne, hdigits⟩ := mem_several_oneOf_iff.mp ha
  have hpoint : ∀ c ∈ b.head?, c = '.' := head_of_mem_one_add hb
  have hletter : ∀ c ∈ e.head?, c.isDigit = false ∧ c ≠ '.' := by
    intro c hc
    rcases List.mem_pair.mp (head_of_mem_one_add he c hc) with rfl | rfl <;> decide
  have hbehind : ∀ c ∈ (b ++ e).head?, c.isDigit = false := by
    intro c hc
    cases b with
    | nil => exact (hletter c hc).1
    | cons d b =>
      obtain rfl : d = c := Option.some.inj hc
      rw [hpoint d rfl]
      rfl
  obtain ⟨ds, hpart⟩ := pointDigits_append hb hletter
  obtain ⟨n, hn⟩ := exists_exponent? he
  obtain ⟨htake, hdrop⟩ := takeWhile_isDigit_append hdigits hbehind
  obtain ⟨c, a, rfl⟩ := List.exists_cons_of_ne_nil hne
  refine ⟨.ofDecimal false (digitsOnto 0 (c :: a ++ ds)) (n - ds.length), ?_, Binary64.ofDecimal_ne_nan _ _ _⟩
  have hsigned : signed ((c :: a ++ b) ++ e) = (false, c :: a ++ (b ++ e)) := by
    rw [List.append_assoc]
    exact signed_of_isDigit (hdigits c List.mem_cons_self) _
  have hread : digits? false (c :: a ++ (b ++ e)) =
      some (.ofDecimal false (digitsOnto 0 (c :: a ++ ds)) (n - ds.length)) := by
    simp only [digits?, htake, hdrop, hpart, hn]
    rw [if_neg (fun h => hne h.1), Option.map_some]
  rw [read?, hsigned]
  simp only [hread, Option.some_or]

/-- **A hexadecimal number is not read.** -/
theorem read?_of_mem_hexNumber (h : w ∈ hexNumber) : read? w = none := by
  obtain ⟨_, t, rfl, rfl, ht⟩ := mem_oneOf_mul.mp h
  obtain ⟨x, t, rfl, hx, -⟩ := mem_oneOf_mul.mp ht
  have hdigits : digits? false ('0' :: x :: t) = none := by
    have htake : ('0' :: x :: t).takeWhile Char.isDigit = ['0'] ∧
        ('0' :: x :: t).dropWhile Char.isDigit = x :: t := by
      rcases List.mem_pair.mp hx with rfl | rfl <;> exact ⟨rfl, rfl⟩
    have hpart : pointDigits (x :: t) = ([], x :: t) := by
      rcases List.mem_pair.mp hx with rfl | rfl <;> rfl
    have hletter : ¬ (x = 'e' ∨ x = 'E') := by
      rcases List.mem_pair.mp hx with rfl | rfl <;> decide
    simp [digits?, htake, hpart, exponent?, hletter]
  have hword : word? false ('0' :: x :: t) = none := by
    simp [word?]
  rw [read?, signed_of_isDigit (by decide)]
  simp only [hdigits, hword, Option.or_none]

end ScriptAnalysis.Decimal

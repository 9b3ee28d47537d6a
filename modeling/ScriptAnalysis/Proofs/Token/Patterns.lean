import Mathlib.Computability.Language
import Mathlib.Data.List.TakeWhile
import ScriptAnalysis.Token.Lexeme

/-!
# Names, numbers and strings as languages

Which texts are a name, a number, a string or a line comment, said with unions, products and stars of
languages and without a word about how they are read. What the readers of `Lexeme` take from the head of a
text is the longest beginning of it that belongs to the language (`IsLongest`).
-/

namespace ScriptAnalysis

namespace Pattern

open scoped Computability

/-! ### The languages -/

/-- The words of one character that has the property. -/
def oneOf (p : Char → Prop) : Language Char := {w | ∃ c, p c ∧ w = [c]}

/-- The word that is one character. -/
def char (c : Char) : Language Char := oneOf (· = c)

/-- One word of the language, or several one behind the other. -/
def several (L : Language Char) : Language Char := L * L∗

/-- A decimal digit. -/
def digit : Language Char := oneOf fun c => '0' ≤ c ∧ c ≤ '9'

/-- A hexadecimal digit. -/
def hexDigit : Language Char :=
  oneOf fun c => ('0' ≤ c ∧ c ≤ '9') ∨ ('a' ≤ c ∧ c ≤ 'f') ∨ ('A' ≤ c ∧ c ≤ 'F')

/-- An ASCII letter, `_` or `$`. -/
def nameStart : Language Char :=
  oneOf fun c => ('a' ≤ c ∧ c ≤ 'z') ∨ ('A' ≤ c ∧ c ≤ 'Z') ∨ c = '_' ∨ c = '$'

/-- A name, reserved words included. -/
def name : Language Char := nameStart * (nameStart + digit)∗

/-- A hexadecimal number. -/
def hexNumber : Language Char := char '0' * (oneOf (· ∈ ['x', 'X']) * several hexDigit)

/-- A point and digits. -/
def fraction : Language Char := char '.' * several digit

/-- Perhaps a sign, and digits. -/
def signedDigits : Language Char := (1 + oneOf (· ∈ ['+', '-'])) * several digit

/-- A letter `e`, perhaps a sign, and digits. -/
def exponent : Language Char := oneOf (· ∈ ['e', 'E']) * signedDigits

/-- Digits, perhaps a fraction, perhaps an exponent. -/
def decimalNumber : Language Char := several digit * (1 + fraction) * (1 + exponent)

/-- What stands between the quotes of a string: a character other than the quote, a backslash and the two
that end a line, or a backslash and any character but a line feed. -/
def piece (q : Char) : Language Char :=
  oneOf (· ∉ [q, '\\', '\n', '\r']) + char '\\' * oneOf (· ≠ '\n')

/-- The pieces of a string and the quote that closes it. -/
def closed (q : Char) : Language Char := (piece q)∗ * char q

/-- A string between two quotes. -/
def string (q : Char) : Language Char := char q * closed q

/-- Two slashes and the rest of their line. -/
def lineComment : Language Char := char '/' * (char '/' * (oneOf (· ≠ '\n'))∗)

/-! ### Membership -/

variable {P : Char → Prop} {p : Char → Bool} {L M : Language Char} {c : Char} {cs w u v : List Char}

@[simp] theorem mem_oneOf : w ∈ oneOf P ↔ ∃ c, P c ∧ w = [c] := Iff.rfl

theorem mem_oneOf_mul : w ∈ oneOf P * M ↔ ∃ c t, w = c :: t ∧ P c ∧ t ∈ M := by
  rw [Language.mem_mul]
  constructor
  · rintro ⟨_, ⟨c, hc, rfl⟩, t, ht, rfl⟩
    exact ⟨c, t, rfl, hc, ht⟩
  · rintro ⟨c, t, rfl, hc, ht⟩
    exact ⟨[c], ⟨c, hc, rfl⟩, t, ht, rfl⟩

theorem cons_mem_oneOf_mul : c :: w ∈ oneOf P * M ↔ P c ∧ w ∈ M := by
  rw [mem_oneOf_mul]
  constructor
  · rintro ⟨_, _, heq, hc, hw⟩
    obtain ⟨rfl, rfl⟩ := List.cons.inj heq
    exact ⟨hc, hw⟩
  · exact fun ⟨hc, hw⟩ => ⟨c, w, rfl, hc, hw⟩

theorem mem_star_oneOf : w ∈ (oneOf P)∗ ↔ ∀ c ∈ w, P c := by
  rw [Language.mem_kstar]
  constructor
  · rintro ⟨ws, rfl, hws⟩ c hc
    obtain ⟨_, hw, hc⟩ := List.mem_flatten.mp hc
    obtain ⟨d, hd, rfl⟩ := hws _ hw
    exact List.mem_singleton.mp hc ▸ hd
  · intro h
    refine ⟨w.map fun c => [c], (List.flatMap_singleton' w).symm, fun y hy => ?_⟩
    obtain ⟨c, hc, rfl⟩ := List.mem_map.mp hy
    exact ⟨c, h c hc, rfl⟩

/-- What may be missing and begins with a character of a class begins with no other one. -/
theorem cons_notMem_one_add (hc : ¬ P c) : c :: w ∉ 1 + oneOf P * M :=
  fun h => h.elim (fun h => absurd h (List.cons_ne_nil c w)) fun h => absurd (cons_mem_oneOf_mul.mp h).1 hc

theorem mem_several_oneOf_iff : w ∈ several (oneOf P) ↔ w ≠ [] ∧ ∀ c ∈ w, P c := by
  rw [several]
  cases w with
  | nil => simp [mem_oneOf_mul]
  | cons c w => simp [cons_mem_oneOf_mul, mem_star_oneOf]

theorem mem_star_of_mem (hw : w ∈ L) : w ∈ L∗ :=
  Language.mem_kstar.mpr ⟨[w], List.flatten_singleton.symm, List.forall_mem_singleton.mpr hw⟩

theorem append_mem_star (hw : w ∈ L∗) (hv : v ∈ L∗) : w ++ v ∈ L∗ :=
  kstar_mul_kstar L ▸ Language.append_mem_mul hw hv

theorem oneOf_add {Q : Char → Prop} : oneOf P + oneOf Q = oneOf fun c => P c ∨ Q c := by
  ext w
  rw [Language.mem_add]
  simp only [mem_oneOf, or_and_right, exists_or]

theorem oneOf_congr {Q : Char → Prop} (h : ∀ c, P c ↔ Q c) : oneOf P = oneOf Q :=
  congrArg oneOf (funext fun c => propext (h c))

theorem digit_eq : digit = oneOf fun c => c.isDigit = true :=
  oneOf_congr fun c => by simp [Char.isDigit, Char.le_def]

theorem hexDigit_eq : hexDigit = oneOf fun c => Lexeme.isHexDigit c = true :=
  oneOf_congr fun c => by simp [Lexeme.isHexDigit, Char.isDigit, Char.le_def, or_assoc]

theorem isAlpha_iff (c : Char) : c.isAlpha = true ↔ ('a' ≤ c ∧ c ≤ 'z') ∨ ('A' ≤ c ∧ c ≤ 'Z') := by
  have hupper : c.isUpper = true ↔ 'A' ≤ c ∧ c ≤ 'Z' := decide_eq_true_iff
  have hlower : c.isLower = true ↔ 'a' ≤ c ∧ c ≤ 'z' :=
    Bool.and_eq_true_iff.trans (and_congr decide_eq_true_iff decide_eq_true_iff)
  rw [← hupper, ← hlower, or_comm]
  exact Bool.or_eq_true_iff

theorem nameStart_eq : nameStart = oneOf fun c => Lexeme.isNameStart c = true :=
  oneOf_congr fun c => by simp [Lexeme.isNameStart, isAlpha_iff, or_assoc]

theorem namePart_eq : nameStart + digit = oneOf fun c => Lexeme.isNamePart c = true := by
  rw [nameStart_eq, digit_eq, oneOf_add]
  exact oneOf_congr fun c => by simp [Lexeme.isNamePart]

/-! ### The longest beginning -/

/-- The word belongs to the language, the text begins with it, and with no longer word of the language. -/
structure IsLongest (L : Language Char) (cs w : List Char) : Prop where
  mem : w ∈ L
  isPrefix : w <+: cs
  longest : ∀ v ∈ L, v <+: cs → v.length ≤ w.length

/-- The text begins with no word of the language. -/
def Misses (L : Language Char) (cs : List Char) : Prop := ∀ v ∈ L, ¬ v <+: cs

theorem misses_nil : Misses (oneOf P * M) [] := by
  rintro v hv hpre
  obtain ⟨c, t, rfl, -, -⟩ := mem_oneOf_mul.mp hv
  exact absurd (List.prefix_nil.mp hpre) (List.cons_ne_nil c t)

theorem misses_cons (h : P c → Misses M cs) : Misses (oneOf P * M) (c :: cs) := by
  rintro v hv hpre
  obtain ⟨d, t, rfl, hd, ht⟩ := mem_oneOf_mul.mp hv
  obtain ⟨rfl, hrest⟩ := List.cons_prefix_cons.mp hpre
  exact h hd t ht hrest

theorem Misses.add (h : Misses L cs) (h' : Misses M cs) : Misses (L + M) cs :=
  fun v hv => hv.elim (h v) (h' v)

namespace IsLongest

theorem isPrefix_of_mem (h : IsLongest L cs w) (hv : v ∈ L) (hpre : v <+: cs) : v <+: w :=
  List.prefix_of_prefix_length_le hpre h.isPrefix (h.longest v hv hpre)

theorem eq (h : IsLongest L cs w) (h' : IsLongest L cs v) : v = w :=
  (h.isPrefix_of_mem h'.mem h'.isPrefix).eq_of_length_le (h'.longest w h.mem h.isPrefix)

/-- The longest beginning is still the longest when nothing stands behind it. -/
theorem self (h : IsLongest L cs w) : IsLongest L w w :=
  ⟨h.mem, List.prefix_rfl, fun v hv hpre => h.longest v hv (hpre.trans h.isPrefix)⟩

theorem cons (h : IsLongest M cs w) (hc : P c) : IsLongest (oneOf P * M) (c :: cs) (c :: w) := by
  refine ⟨cons_mem_oneOf_mul.mpr ⟨hc, h.mem⟩, List.cons_prefix_cons.mpr ⟨rfl, h.isPrefix⟩, ?_⟩
  intro v hv hpre
  obtain ⟨d, t, rfl, -, ht⟩ := mem_oneOf_mul.mp hv
  exact Nat.succ_le_succ (h.longest t ht (List.cons_prefix_cons.mp hpre).2)

theorem char (h : IsLongest M cs w) : IsLongest (char c * M) (c :: cs) (c :: w) := h.cons rfl

theorem add (h : IsLongest L cs w) (hM : ∀ v ∈ M, v <+: cs → v.length ≤ w.length) :
    IsLongest (L + M) cs w :=
  ⟨.inl h.mem, h.isPrefix, fun v hv => hv.elim (h.longest v) (hM v)⟩

theorem add_of_misses (h : IsLongest L cs w) (hM : Misses M cs) : IsLongest (L + M) cs w :=
  h.add fun v hv hpre => absurd hpre (hM v hv)

theorem one_add (h : IsLongest M cs w) : IsLongest (1 + M) cs w := by
  rw [add_comm]
  exact h.add fun v hv _ => (Language.mem_one v).mp hv ▸ Nat.zero_le _

theorem one_add_nil (h : Misses M cs) : IsLongest (1 + M) cs [] :=
  ⟨.inl rfl, List.nil_prefix, fun v hv hpre =>
    hv.elim (fun hv => (Language.mem_one v).mp hv ▸ Nat.le_refl _) fun hv => absurd hpre (h v hv)⟩

/-- One longest beginning behind the other: what begins the second one occurs nowhere in the first one, so
giving up a part of the first one does not help. -/
theorem mul (h : IsLongest L cs u) (h' : IsLongest M (cs.drop u.length) w)
    (hapart : ∀ c ∈ u, ∀ t, c :: t ∉ M) : IsLongest (L * M) cs (u ++ w) := by
  refine ⟨Language.append_mem_mul h.mem h'.mem, Lexeme.isPrefix_append_of_drop h.isPrefix h'.isPrefix, ?_⟩
  intro v hv hpre
  obtain ⟨a, ha, b, hb, rfl⟩ := Language.mem_mul.mp hv
  obtain ⟨r, rfl⟩ := h.isPrefix_of_mem ha ((List.prefix_append a b).trans hpre)
  obtain ⟨rest, rfl⟩ := h.isPrefix
  rw [List.append_assoc, List.prefix_append_right_inj] at hpre
  cases r with
  | nil =>
    have hlength := h'.longest b hb (by simpa using hpre)
    simp only [List.length_append, List.length_nil]
    omega
  | cons c r =>
    cases b with
    | nil => simp
    | cons d b =>
      rw [List.cons_append, List.cons_prefix_cons] at hpre
      exact absurd hb (hpre.1 ▸ hapart c (by simp) b)

end IsLongest

theorem isLongest_singleton (h : w <+: cs) : IsLongest {w} cs w :=
  ⟨rfl, h, fun _ hv _ => Nat.le_of_eq (congrArg List.length hv)⟩

theorem misses_singleton (h : ¬ w <+: cs) : Misses {w} cs := fun _ hv hpre => h (hv ▸ hpre)

/-! ### Alphabets -/

/-- The words of the language have only characters with the property. -/
def Over (P : Char → Prop) (L : Language Char) : Prop := ∀ w ∈ L, ∀ c ∈ w, P c

namespace Over

theorem one : Over P 1 := by
  rintro _ rfl c hc
  exact absurd hc List.not_mem_nil

theorem oneOf {Q : Char → Prop} (h : ∀ c, Q c → P c) : Over P (oneOf Q) := by
  rintro _ ⟨d, hd, rfl⟩ c hc
  exact List.mem_singleton.mp hc ▸ h d hd

theorem add (h : Over P L) (h' : Over P M) : Over P (L + M) := fun w hw => hw.elim (h w) (h' w)

theorem mul (h : Over P L) (h' : Over P M) : Over P (L * M) := by
  intro w hw c hc
  obtain ⟨a, ha, b, hb, rfl⟩ := Language.mem_mul.mp hw
  exact (List.mem_append.mp hc).elim (h a ha c) (h' b hb c)

theorem star (h : Over P L) : Over P L∗ := by
  rintro _ ⟨ws, rfl, hws⟩ c hc
  obtain ⟨w, hw, hc⟩ := List.mem_flatten.mp hc
  exact h w (hws w hw) c hc

theorem several (h : Over P L) : Over P (several L) := h.mul h.star

theorem mono {Q : Char → Prop} (h : Over P L) (hPQ : ∀ c, P c → Q c) : Over Q L :=
  fun w hw c hc => hPQ c (h w hw c hc)

end Over

/-- What stands behind a character that no word has does not matter. -/
theorem IsLongest.append_cons (h : IsLongest L cs w) (hover : Over (· ≠ c) L) (rest : List Char) :
    IsLongest L (cs ++ c :: rest) w := by
  refine ⟨h.mem, h.isPrefix.trans (List.prefix_append ..), fun v hv hpre => h.longest v hv ?_⟩
  have hc : c ∉ v := fun hc => hover v hv c hc rfl
  have hmiddle : cs ++ [c] <+: cs ++ c :: rest := ⟨rest, by rw [List.append_assoc]; rfl⟩
  rcases List.prefix_or_prefix_of_prefix hpre hmiddle with hle | hle
  · rcases List.prefix_concat_iff.mp hle with rfl | hle
    · exact absurd (by simp) hc
    · exact hle
  · exact absurd (hle.subset (by simp)) hc

/-! ### What the readers take -/

theorem isLongest_takeWhile (cs : List Char) :
    IsLongest (oneOf fun c => p c = true)∗ cs (cs.takeWhile p) := by
  refine ⟨mem_star_oneOf.mpr fun _ => List.mem_takeWhile_imp, List.takeWhile_prefix p, ?_⟩
  rintro v hv ⟨rest, rfl⟩
  rw [List.takeWhile_append_of_pos (mem_star_oneOf.mp hv), List.length_append]
  exact Nat.le_add_right ..

/-- One character of a class, and all those behind it. -/
theorem isLongest_cons_takeWhile (hc : p c = true) (cs : List Char) :
    IsLongest (several (oneOf fun c => p c = true)) (c :: cs) (c :: cs.takeWhile p) :=
  (isLongest_takeWhile cs).cons hc

theorem isLongest_name (hc : Lexeme.isNameStart c = true) (cs : List Char) :
    IsLongest name (c :: cs) (c :: cs.takeWhile Lexeme.isNamePart) := by
  rw [name, namePart_eq, nameStart_eq]
  exact (isLongest_takeWhile cs).cons hc

theorem isLongest_lineComment (cs : List Char) :
    IsLongest lineComment ('/' :: '/' :: cs) ('/' :: '/' :: cs.takeWhile (· ≠ '\n')) := by
  have hclass : oneOf (· ≠ '\n') = oneOf fun c => decide (c ≠ '\n') = true :=
    oneOf_congr fun c => (decide_eq_true_iff).symm
  rw [lineComment, hclass]
  exact (isLongest_takeWhile cs).char.char

/-! ### Numbers -/

theorem isLongest_fraction (cs : List Char) : IsLongest (1 + fraction) cs (Lexeme.fraction cs) := by
  rw [fraction, digit_eq]
  match cs with
  | [] => exact .one_add_nil misses_nil
  | [c] =>
    have hnil : Lexeme.fraction [c] = [] := by simp [Lexeme.fraction]
    rw [hnil]
    exact .one_add_nil (misses_cons fun _ => misses_nil)
  | c :: d :: cs =>
    by_cases hc : c = '.'
    · subst hc
      rw [Lexeme.fraction]
      split
      · rename_i hd
        exact (isLongest_cons_takeWhile hd cs).char.one_add
      · rename_i hd
        exact .one_add_nil (misses_cons fun _ => misses_cons fun hd' => absurd hd' hd)
    · have hnil : Lexeme.fraction (c :: d :: cs) = [] := by simp [Lexeme.fraction, hc]
      rw [hnil]
      exact .one_add_nil (misses_cons fun hc' => absurd hc' hc)

theorem signedDigits_eq : signedDigits = several (oneOf fun c => c.isDigit = true) +
    oneOf (· ∈ ['+', '-']) * several (oneOf fun c => c.isDigit = true) := by
  rw [signedDigits, add_mul, one_mul, digit_eq]

theorem not_isDigit_of_sign (hc : c ∈ ['+', '-']) : ¬ c.isDigit = true := by
  rcases List.mem_pair.mp hc with rfl | rfl <;> decide

theorem isLongest_digits (hc : c.isDigit = true) (cs : List Char) :
    IsLongest signedDigits (c :: cs) (c :: cs.takeWhile Char.isDigit) := by
  rw [signedDigits_eq]
  refine (isLongest_cons_takeWhile hc cs).add_of_misses (misses_cons fun hsign => ?_)
  exact absurd hc (not_isDigit_of_sign hsign)

theorem isLongest_signed (hsign : c ∈ ['+', '-']) {d : Char} (hd : d.isDigit = true) (cs : List Char) :
    IsLongest signedDigits (c :: d :: cs) (c :: d :: cs.takeWhile Char.isDigit) := by
  rw [signedDigits_eq, add_comm]
  exact ((isLongest_cons_takeWhile hd cs).cons hsign).add_of_misses
    (misses_cons fun hc => absurd hc (not_isDigit_of_sign hsign))

theorem misses_signedDigits (hc : ¬ c.isDigit = true)
    (hsigned : c ∈ ['+', '-'] → ∀ d t, cs = d :: t → ¬ d.isDigit = true) : Misses signedDigits (c :: cs) := by
  rw [signedDigits_eq]
  refine (misses_cons fun hc' => absurd hc' hc).add (misses_cons fun hsign => ?_)
  cases cs with
  | nil => exact misses_nil
  | cons d t => exact misses_cons fun hd => absurd hd (hsigned hsign d t rfl)

theorem isLongest_exponent (cs : List Char) : IsLongest (1 + exponent) cs (Lexeme.exponent cs) := by
  rw [exponent]
  match cs with
  | [] => exact .one_add_nil misses_nil
  | [e] =>
    refine .one_add_nil (misses_cons fun _ => ?_)
    rw [signedDigits_eq]
    exact misses_nil.add misses_nil
  | e :: s :: cs =>
    by_cases he : e ∈ ['e', 'E']
    · have he' : (e == 'e' || e == 'E') = true := by simpa using he
      simp only [Lexeme.exponent, he', if_pos]
      split
      · rename_i hs
        exact ((isLongest_digits hs cs).cons he).one_add
      rename_i hs
      split
      · rename_i hsign
        have hsign : s ∈ ['+', '-'] := by simpa using hsign
        cases cs with
        | nil => exact .one_add_nil (misses_cons fun _ => misses_signedDigits hs nofun)
        | cons d cs =>
          dsimp only
          split
          · rename_i hd
            exact ((isLongest_signed hsign hd cs).cons he).one_add
          · rename_i hd
            refine .one_add_nil (misses_cons fun _ => misses_signedDigits hs fun _ _ _ heq => ?_)
            exact (List.cons.inj heq).1 ▸ hd
      · rename_i hsign
        refine .one_add_nil (misses_cons fun _ => misses_signedDigits hs fun hsign' => absurd ?_ hsign)
        simpa using hsign'
    · have hnil : Lexeme.exponent (e :: s :: cs) = [] := by simp_all [Lexeme.exponent]
      rw [hnil]
      exact .one_add_nil (misses_cons fun he' => absurd he' he)

theorem eq_or_isDigit_of_mem_fraction (hw : w ∈ 1 + fraction) (hc : c ∈ w) : c = '.' ∨ c.isDigit = true := by
  rw [fraction, digit_eq] at hw
  rcases hw with rfl | hw
  · exact absurd hc List.not_mem_nil
  · obtain ⟨d, t, rfl, rfl, ht⟩ := mem_oneOf_mul.mp hw
    exact (List.mem_cons.mp hc).imp_right ((mem_several_oneOf_iff.mp ht).2 c)

theorem isLongest_decimalNumber (hc : c.isDigit = true) (cs : List Char) :
    IsLongest decimalNumber (c :: cs) (Lexeme.decimalNumber (c :: cs)) := by
  have hdigits : (c :: cs).takeWhile Char.isDigit = c :: cs.takeWhile Char.isDigit :=
    List.takeWhile_cons_of_pos hc
  have hwhole := isLongest_cons_takeWhile hc cs
  have hwhole' := (mem_several_oneOf_iff.mp hwhole.mem).2
  rw [decimalNumber, digit_eq, Lexeme.decimalNumber, hdigits]
  have hpart := isLongest_fraction ((c :: cs).drop (c :: cs.takeWhile Char.isDigit).length)
  refine (hwhole.mul hpart fun d hd t => ?_).mul ?_ fun d hd t => ?_
  · refine cons_notMem_one_add fun hpoint => absurd (hwhole' d hd) ?_
    rw [hpoint]
    decide
  · rw [List.length_append, ← List.drop_drop]
    exact isLongest_exponent _
  · refine cons_notMem_one_add fun he => ?_
    have hd' : d = '.' ∨ d.isDigit = true :=
      (List.mem_append.mp hd).elim (fun hd => .inr (hwhole' d hd)) (eq_or_isDigit_of_mem_fraction hpart.mem)
    rcases List.mem_pair.mp he with rfl | rfl <;> revert hd' <;> decide

theorem exists_of_hexNumber_ne_nil (h : Lexeme.hexNumber cs ≠ []) :
    ∃ x d t, cs = '0' :: x :: d :: t ∧ x ∈ ['x', 'X'] ∧ Lexeme.isHexDigit d = true ∧
      Lexeme.hexNumber cs = '0' :: x :: d :: t.takeWhile Lexeme.isHexDigit := by
  rw [Lexeme.hexNumber.eq_def] at h ⊢
  split at h
  · split at h
    · rename_i hcond
      rw [Bool.and_eq_true] at hcond
      exact ⟨_, _, _, rfl, by simpa using hcond.1, hcond.2, if_pos (Bool.and_eq_true_iff.mpr hcond)⟩
    · exact absurd rfl h
  · exact absurd rfl h

theorem isLongest_hexNumber (h : Lexeme.hexNumber cs ≠ []) : IsLongest hexNumber cs (Lexeme.hexNumber cs) := by
  obtain ⟨x, d, t, rfl, hx, hd, heq⟩ := exists_of_hexNumber_ne_nil h
  rw [heq, hexNumber, hexDigit_eq]
  exact ((isLongest_cons_takeWhile hd t).cons hx).char

theorem misses_hexNumber (h : Lexeme.hexNumber cs = []) : Misses hexNumber cs := by
  rw [hexNumber, hexDigit_eq]
  rintro v hv ⟨rest, rfl⟩
  obtain ⟨_, t, rfl, rfl, ht⟩ := mem_oneOf_mul.mp hv
  obtain ⟨x, t, rfl, hx, ht⟩ := mem_oneOf_mul.mp ht
  obtain ⟨d, t, rfl, hd, -⟩ := mem_oneOf_mul.mp ht
  refine absurd h ?_
  have hx' : (x == 'x' || x == 'X') = true := by simpa using hx
  simp [Lexeme.hexNumber, hx', hd]

theorem decimalNumber_hex {x : Char} (hx : x ∈ ['x', 'X']) (cs : List Char) :
    Lexeme.decimalNumber ('0' :: x :: cs) = ['0'] := by
  have hzero : ('0' :: x :: cs).takeWhile Char.isDigit = ['0'] := by
    rcases List.mem_pair.mp hx with rfl | rfl <;> rfl
  have hrest : Lexeme.fraction (x :: cs) = [] ∧ Lexeme.exponent (x :: cs) = [] := by
    rcases List.mem_pair.mp hx with rfl | rfl <;> cases cs <;> simp [Lexeme.fraction, Lexeme.exponent]
  simp [Lexeme.decimalNumber, hzero, hrest.1, hrest.2]

/-- A number is the longest of both forms: the other one would end behind the zero. -/
theorem isLongest_number (hc : c.isDigit = true) (cs : List Char) :
    IsLongest (hexNumber + decimalNumber) (c :: cs) (Lexeme.number (c :: cs)) := by
  have hdecimal := isLongest_decimalNumber hc cs
  rw [Lexeme.number]
  split
  · rename_i hnil
    rw [add_comm]
    exact hdecimal.add_of_misses (misses_hexNumber hnil)
  · rename_i hne
    refine (isLongest_hexNumber hne).add fun v hv hpre => ?_
    obtain ⟨x, d, t, heq, hx, -, hhex⟩ := exists_of_hexNumber_ne_nil hne
    have hle := hdecimal.longest v hv hpre
    rw [heq, decimalNumber_hex hx] at hle
    rw [hhex]
    exact Nat.le_trans hle (Nat.succ_le_succ (Nat.zero_le _))

/-- No number has a layout character in it. -/
theorem over_number : Over (fun c => Lexeme.isLayout c = false) (hexNumber + decimalNumber) := by
  have hlayout : ∀ {c : Char}, ('0' ≤ c ∧ c ≤ '9') ∨ ('a' ≤ c ∧ c ≤ 'f') ∨ ('A' ≤ c ∧ c ≤ 'F') →
      Lexeme.isLayout c = false := by
    intro c h
    by_contra hl
    simp only [Lexeme.isLayout, Bool.not_eq_false, Bool.or_eq_true, beq_iff_eq] at hl
    rcases hl with ((((rfl | rfl) | rfl) | rfl) | rfl) | rfl <;> revert h <;> decide
  have hdigit : Over (fun c => Lexeme.isLayout c = false) digit := .oneOf fun _ h => hlayout (.inl h)
  have hhex : Over (fun c => Lexeme.isLayout c = false) hexDigit := .oneOf fun _ h => hlayout h
  have hchar : ∀ {d}, Lexeme.isLayout d = false → Over (fun c => Lexeme.isLayout c = false) (char d) :=
    fun hd => .oneOf fun _ heq => heq ▸ hd
  have hclass : ∀ {ds : List Char}, ds.all (!Lexeme.isLayout ·) = true →
      Over (fun c => Lexeme.isLayout c = false) (oneOf (· ∈ ds)) :=
    fun hds => .oneOf fun d hd => (Bool.not_eq_true' _).mp (List.all_eq_true.mp hds d hd)
  have hsigned : Over (fun c => Lexeme.isLayout c = false) signedDigits :=
    (Over.one.add (hclass rfl)).mul hdigit.several
  have hfraction : Over (fun c => Lexeme.isLayout c = false) fraction :=
    (hchar (by decide)).mul hdigit.several
  have hexponent : Over (fun c => Lexeme.isLayout c = false) exponent := (hclass rfl).mul hsigned
  refine ((hchar (by decide)).mul ((hclass rfl).mul hhex.several)).add ?_
  exact (hdigit.several.mul (Over.one.add hfraction)).mul (Over.one.add hexponent)

/-- A number begins with the digit that a text begins with. -/
theorem number_cons (hc : c.isDigit = true) (cs : List Char) :
    Lexeme.number (c :: cs) = c :: (Lexeme.number (c :: cs)).tail := by
  have hlongest := isLongest_number hc cs
  have hcons : ∃ d t, Lexeme.number (c :: cs) = d :: t := by
    rcases hlongest.mem with h | h
    · obtain ⟨d, t, heq, -⟩ := mem_oneOf_mul.mp h
      exact ⟨d, t, heq⟩
    · rw [decimalNumber, several, mul_assoc, mul_assoc] at h
      obtain ⟨d, t, heq, -⟩ := mem_oneOf_mul.mp h
      exact ⟨d, t, heq⟩
  obtain ⟨d, t, heq⟩ := hcons
  have hpre := hlongest.isPrefix
  rw [heq] at hpre ⊢
  rw [(List.cons_prefix_cons.mp hpre).1, List.tail_cons]

/-! ### Strings -/

section

variable {q : Char}

theorem stringBody_piece_append (hw : w ∈ piece q) (rest : List Char) :
    Lexeme.stringBody q (w ++ rest) =
      (w ++ (Lexeme.stringBody q rest).1, (Lexeme.stringBody q rest).2) := by
  rcases hw with ⟨c, hc, rfl⟩ | hw
  · simp only [List.mem_cons, List.not_mem_nil, or_false, not_or] at hc
    obtain ⟨hcq, hbackslash, hn, hr⟩ := hc
    rw [List.singleton_append, Lexeme.stringBody.eq_def]
    split <;> simp_all
  · obtain ⟨_, _, rfl, rfl, c, hc, rfl⟩ := mem_oneOf_mul.mp hw
    simp [Lexeme.stringBody, hc]

/-- What closes a string is read through, whatever follows it. -/
theorem stringBody_append (hq : q ≠ '\\') (hw : w ∈ closed q) (rest : List Char) :
    Lexeme.stringBody q (w ++ rest) = (w, true) := by
  obtain ⟨_, ⟨ws, rfl, hws⟩, _, ⟨_, rfl, rfl⟩, rfl⟩ := Language.mem_mul.mp hw
  clear hw
  induction ws with
  | nil =>
    rw [List.flatten_nil, List.nil_append, List.singleton_append, Lexeme.stringBody.eq_def]
    split <;> simp_all
  | cons w ws ih =>
    obtain ⟨hw, hws⟩ := List.forall_mem_cons.mp hws
    rw [List.flatten_cons, List.append_assoc, List.append_assoc, stringBody_piece_append hw,
      ← List.append_assoc _ [_], ih hws, List.append_assoc]

theorem mem_closed_cons (hw : w ∈ piece q) (h : v ∈ closed q) : w ++ v ∈ closed q := by
  obtain ⟨u, hu, t, ht, rfl⟩ := Language.mem_mul.mp h
  rw [← List.append_assoc]
  exact Language.append_mem_mul (append_mem_star (mem_star_of_mem hw) hu) ht

theorem mem_closed_of_stringBody (h : (Lexeme.stringBody q cs).2 = true) :
    (Lexeme.stringBody q cs).1 ∈ closed q := by
  fun_induction Lexeme.stringBody q cs with
  | case1 => cases h
  | case2 => cases h
  | case3 c cs hc body ih =>
    exact mem_closed_cons (.inr (mem_oneOf_mul.mpr ⟨_, _, rfl, rfl, c, hc, rfl⟩)) (ih h)
  | case4 => exact ⟨[], Language.nil_mem_kstar _, [q], ⟨q, rfl, rfl⟩, rfl⟩
  | case5 => cases h
  | case6 c cs _ hq hend body ih =>
    obtain ⟨hn, hr, hbackslash⟩ := not_or.mp hend |>.imp_right not_or.mp
    have hpiece : [c] ∈ piece q := .inl ⟨c, by simp [hq, hn, hr, hbackslash], rfl⟩
    exact mem_closed_cons hpiece (ih h)

/-- What is read of a string that is not closed are pieces of one. -/
theorem mem_pieces_of_stringBody (h : (Lexeme.stringBody q cs).2 = false) :
    (Lexeme.stringBody q cs).1 ∈ (piece q)∗ := by
  fun_induction Lexeme.stringBody q cs with
  | case1 => exact Language.nil_mem_kstar _
  | case2 => exact Language.nil_mem_kstar _
  | case3 c cs hc body ih =>
    have hpiece : ['\\', c] ∈ piece q := .inr (mem_oneOf_mul.mpr ⟨_, _, rfl, rfl, c, hc, rfl⟩)
    exact append_mem_star (mem_star_of_mem hpiece) (ih h)
  | case4 => cases h
  | case5 => exact Language.nil_mem_kstar _
  | case6 c cs _ hq hend body ih =>
    obtain ⟨hn, hr, hbackslash⟩ := not_or.mp hend |>.imp_right not_or.mp
    have hpiece : [c] ∈ piece q := .inl ⟨c, by simp [hq, hn, hr, hbackslash], rfl⟩
    exact append_mem_star (mem_star_of_mem hpiece) (ih h)

theorem isLongest_string (hq : q ≠ '\\') (h : (Lexeme.stringBody q cs).2 = true) :
    IsLongest (string q) (q :: cs) (q :: (Lexeme.stringBody q cs).1) := by
  refine IsLongest.char ⟨mem_closed_of_stringBody h, Lexeme.isPrefix_stringBody q cs, ?_⟩
  rintro v hv ⟨rest, rfl⟩
  rw [stringBody_append hq hv]

theorem misses_string (hq : q ≠ '\\') (h : (Lexeme.stringBody q cs).2 = false) :
    Misses (string q) (q :: cs) := by
  refine misses_cons fun _ v hv hpre => ?_
  obtain ⟨rest, rfl⟩ := hpre
  rw [stringBody_append hq hv] at h
  cases h

end

end Pattern

end ScriptAnalysis

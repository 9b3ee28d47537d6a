import ScriptAnalysis.Text.Quoted
import Mathlib.Data.List.TakeWhile

/-!
# Quoted text can be read back

Text between quotes says where it ends and which characters it stands for (`quote_append_inj`): a character is written
in one of three ways (`Text.Quotes`), and how it is written never begins with a quote and never goes on after what
writes the character.
-/

namespace ScriptAnalysis

/-! ### Words -/

/-- A word of certain characters ends where the first other one stands. -/
theorem word_append_inj {p : Char → Bool} {w w' r r' : List Char} (hw : ∀ c ∈ w, p c = true)
    (hw' : ∀ c ∈ w', p c = true) (hr : ∀ c ∈ r.head?, p c = false) (hr' : ∀ c ∈ r'.head?, p c = false)
    (h : w ++ r = w' ++ r') : w = w' ∧ r = r' := by
  have htake : ∀ {v s : List Char}, (∀ c ∈ v, p c = true) → (∀ c ∈ s.head?, p c = false) →
      (v ++ s).takeWhile p = v := by
    intro v s hv hs
    rw [List.takeWhile_append_of_pos hv]
    cases s with
    | nil => simp
    | cons c s => simp [hs c rfl]
  have hword : w = w' := by rw [← htake hw hr, h, htake hw' hr']
  subst hword
  exact ⟨rfl, List.append_cancel_left h⟩

namespace Text

/-! ### Hexadecimal digits -/

theorem hexDigits_eq (n : Nat) : hexDigits n =
    if n < 16 then [n.digitChar] else hexDigits (n / 16) ++ [(n % 16).digitChar] :=
  Nat.toDigits_eq_if (by decide)

theorem hexDigits_ne_nil (n : Nat) : hexDigits n ≠ [] := Nat.toDigits_ne_nil

theorem digitChar_inj : ∀ m < 16, ∀ n < 16, m.digitChar = n.digitChar → m = n := by
  decide

/-- A number is known from its digits. -/
theorem hexDigits_injective : Function.Injective hexDigits := by
  intro m
  induction m using Nat.strongRecOn with
  | ind m ih =>
    intro n h
    have hne : ∀ k c d, hexDigits (k / 16) ++ [c] ≠ [d] := by
      intro k c d heq
      have hlength := congrArg List.length heq
      rw [List.length_append, List.length_singleton, List.length_singleton] at hlength
      exact hexDigits_ne_nil (k / 16) (List.length_eq_zero_iff.mp (by omega))
    rw [hexDigits_eq m, hexDigits_eq n] at h
    split at h <;> split at h
    · rename_i hm hn
      exact digitChar_inj m hm n hn (List.singleton_inj.mp h)
    · exact absurd h.symm (hne _ _ _)
    · exact absurd h (hne _ _ _)
    · obtain ⟨hhigh, hlow⟩ := List.append_inj' h rfl
      have hhigh := ih (m / 16) (by omega) hhigh
      have hlow := digitChar_inj _ (Nat.mod_lt m (by decide)) _ (Nat.mod_lt n (by decide)) (List.singleton_inj.mp hlow)
      omega

theorem ne_of_mem_hexDigits {n : Nat} {c : Char} (h : c ∈ hexDigits n) : c ≠ '\x7d' := by
  induction n using Nat.strongRecOn with
  | ind n ih =>
    have hdigit : ∀ m < 16, m.digitChar ≠ '\x7d' := by decide
    rw [hexDigits_eq] at h
    split at h
    · rename_i hn
      exact List.mem_singleton.mp h ▸ hdigit n hn
    · rcases List.mem_append.mp h with h | h
      · exact ih (n / 16) (by omega) h
      · exact List.mem_singleton.mp h ▸ hdigit _ (Nat.mod_lt n (by decide))

/-! ### Characters -/

/-- The characters with an escape of their own, each with the character that stands for it after a backslash. -/
def shortEscapes : List (Char × Char) :=
  [('\x00', '0'), ('\t', 't'), ('\r', 'r'), ('\n', 'n'), ('\\', '\\'), ('"', '"')]

/-- The ways in which a character is written inside quotes. -/
inductive Quotes (c : Char) : List Char → Prop where
  /-- The character stands for itself. -/
  | plain (hbackslash : c ≠ '\\') (hquote : c ≠ '"') : Quotes c [c]
  /-- Another character stands for it, after a backslash. -/
  | short {e : Char} (h : (c, e) ∈ shortEscapes) : Quotes c ['\\', e]
  /-- Its number stands for it. -/
  | long : Quotes c ('\\' :: 'u' :: '\x7b' :: (hexDigits c.toNat ++ ['\x7d']))

theorem quotes_quoteChar (c : Char) : Quotes c (quoteChar c) := by
  unfold quoteChar
  split_ifs with hnull htab hreturn hfeed hbackslash hquote hprinted
  · exact .short (by simp [shortEscapes, hnull])
  · exact .short (by simp [shortEscapes, htab])
  · exact .short (by simp [shortEscapes, hreturn])
  · exact .short (by simp [shortEscapes, hfeed])
  · exact .short (by simp [shortEscapes, hbackslash])
  · exact .short (by simp [shortEscapes, hquote])
  · exact .plain hbackslash hquote
  · exact .long

/-- What stands for a character does not begin with a quote. -/
theorem Quotes.head_ne {c : Char} {cs r r' : List Char} (h : Quotes c cs) : cs ++ r ≠ '"' :: r' := by
  cases h with
  | plain _ hquote => exact fun h => hquote (List.cons.inj h).1
  | short | long => exact fun h => absurd (List.cons.inj h).1 (by decide)

/-- No two characters have the same escape, and none has the one that begins a number. -/
theorem shortEscapes_inj : ∀ p ∈ shortEscapes, ∀ q ∈ shortEscapes, p.2 = q.2 → p.1 = q.1 := by
  decide

theorem ne_of_mem_shortEscapes : ∀ p ∈ shortEscapes, p.2 ≠ 'u' := by
  decide

/-- What stands for a character says where it ends. -/
theorem Quotes.append_inj {c d : Char} {cs ds r r' : List Char} (hc : Quotes c cs) (hd : Quotes d ds)
    (h : cs ++ r = ds ++ r') : c = d ∧ r = r' := by
  cases hc with
  | plain hbackslash hquote =>
    cases hd with
    | plain => exact List.cons.inj h
    | short | long => exact absurd (List.cons.inj h).1 hbackslash
  | short he =>
    cases hd with
    | plain hbackslash => exact absurd (List.cons.inj h).1.symm hbackslash
    | short he' =>
      obtain ⟨he'', hr⟩ := List.cons.inj (List.cons.inj h).2
      exact ⟨shortEscapes_inj _ he _ he' he'', hr⟩
    | long => exact absurd (List.cons.inj (List.cons.inj h).2).1 (ne_of_mem_shortEscapes _ he)
  | long =>
    cases hd with
    | plain hbackslash => exact absurd (List.cons.inj h).1.symm hbackslash
    | short he => exact absurd (List.cons.inj (List.cons.inj h).2).1.symm (ne_of_mem_shortEscapes _ he)
    | long =>
      simp only [List.cons_append, List.append_assoc, List.cons.injEq, true_and] at h
      have hdigit : ∀ n, ∀ c ∈ hexDigits n, (c != '\x7d') = true := fun n c hc =>
        bne_iff_ne.mpr (ne_of_mem_hexDigits hc)
      obtain ⟨hdigits, hr⟩ := word_append_inj (hdigit _) (hdigit _) (by simp) (by simp) h
      exact ⟨Char.toNat_inj.mp (hexDigits_injective hdigits), (List.cons.inj hr).2⟩

/-! ### Texts -/

/-- What stands inside quotes says which text it stands for, and the closing quote where it ends. -/
theorem inside_append_inj {cs ds r r' : List Char}
    (h : cs.flatMap quoteChar ++ '"' :: r = ds.flatMap quoteChar ++ '"' :: r') : cs = ds ∧ r = r' := by
  induction cs generalizing ds with
  | nil =>
    cases ds with
    | nil => exact ⟨rfl, (List.cons.inj h).2⟩
    | cons d ds =>
      rw [List.flatMap_cons, List.append_assoc] at h
      exact absurd h.symm (quotes_quoteChar d).head_ne
  | cons c cs ih =>
    rw [List.flatMap_cons, List.append_assoc] at h
    cases ds with
    | nil => exact absurd h (quotes_quoteChar c).head_ne
    | cons d ds =>
      rw [List.flatMap_cons, List.append_assoc] at h
      obtain ⟨hcd, hrest⟩ := (quotes_quoteChar c).append_inj (quotes_quoteChar d) h
      obtain ⟨hcs, hr⟩ := ih hrest
      exact ⟨by rw [hcd, hcs], hr⟩

/-- **Quoted text** says where it ends and which text it stands for. -/
theorem quote_append_inj {cs ds r r' : List Char} (h : quote cs ++ r = quote ds ++ r') : cs = ds ∧ r = r' := by
  simp only [quote, List.cons_append, List.append_assoc, List.cons.injEq, true_and] at h
  exact inside_append_inj h

end Text

end ScriptAnalysis

import ScriptAnalysis.Proofs.Syntax.Printer
import ScriptAnalysis.Syntax.Parser

/-!
# What a reader does with words

`Reads p before P after` says that `p`, in front of the words `before`, finds no error, returns something
that `P` holds of, and stops in front of the words `after`. One lemma per step says what it reads; readers
that are built from others are handled with `Reads.bind`.
-/

namespace ScriptAnalysis

namespace Word

/-- The kind of the first word; the end of the text when there is none. -/
def first (ws : List Word) : TokenKind := (ws.head?.map Word.kind).getD .endOfFile

@[simp] theorem first_nil : first [] = .endOfFile := rfl

@[simp] theorem first_cons (w : Word) (ws : List Word) : first (w :: ws) = w.kind := rfl

@[simp] theorem kind_ofKind (kind : TokenKind) : (ofKind kind).kind = kind := rfl

end Word

namespace Syntax.Parser

open Word

/-- The words left are these, all on one line, and the end of the text is behind them. -/
structure State.Shows (s : State) (ws : List Word) : Prop where
  words : s.rest.map Token.word = ws
  sameLine : ∀ t ∈ s.rest, t.afterLineBreak = false
  ending : s.ending.kind = .endOfFile

namespace State.Shows

variable {s : State} {w : Word} {ws : List Word}

/-- In front of a word stands its token. -/
theorem exists_rest (h : s.Shows (w :: ws)) :
    ∃ t rest, s.rest = t :: rest ∧ t.word = w ∧ rest.map Token.word = ws := by
  have hwords := h.words
  cases hrest : s.rest with
  | nil => simp [hrest] at hwords
  | cons t rest =>
    simp only [hrest, List.map_cons, List.cons.injEq] at hwords
    exact ⟨t, rest, rfl, hwords.1, hwords.2⟩

theorem word_current (h : s.Shows (w :: ws)) : s.current.word = w := by
  obtain ⟨t, rest, hrest, hword, -⟩ := h.exists_rest
  simpa [State.current, State.peek, hrest] using hword

theorem kind_current (h : s.Shows ws) : s.current.kind = first ws := by
  cases ws with
  | nil =>
    have hrest : s.rest = [] := by simpa using h.words
    simpa [State.current, State.peek, hrest] using h.ending
  | cons w ws => exact congrArg Word.kind h.word_current

theorem text_current (h : s.Shows (w :: ws)) : s.current.text = w.text :=
  congrArg Word.text h.word_current

/-- The second token, or the end of the text. -/
theorem kind_peek_one (h : s.Shows ws) : (s.peek 1).kind = first ws.tail := by
  cases ws with
  | nil =>
    have hrest : s.rest = [] := by simpa using h.words
    simpa [State.peek, hrest] using h.ending
  | cons w ws =>
    obtain ⟨t, rest, hrest, -, hwords⟩ := h.exists_rest
    cases rest with
    | nil =>
      obtain rfl : ws = [] := by simpa using hwords.symm
      simpa [State.peek, hrest] using h.ending
    | cons t' rest =>
      subst hwords
      simp [State.peek, hrest]

/-- The state after the next token shows the words after the first. -/
theorem advanced (h : s.Shows (w :: ws)) : s.advanced.Shows ws := by
  obtain ⟨t, rest, hrest, -, hwords⟩ := h.exists_rest
  have hadvanced : s.advanced = { s with rest := rest, lastEnd := t.span.stop } := by
    simp [State.advanced, hrest]
  rw [hadvanced]
  refine ⟨hwords, fun t' ht' => h.sameLine t' ?_, h.ending⟩
  rw [hrest]
  exact List.mem_cons_of_mem t ht'

theorem length_rest (h : s.Shows ws) : s.rest.length = ws.length := by
  rw [← h.words, List.length_map]

/-- All words are on one line, the end of the text apart. -/
theorem afterLineBreak_current (h : s.Shows (w :: ws)) : s.current.afterLineBreak = false := by
  obtain ⟨t, rest, hrest, -⟩ := h.exists_rest
  have ht := h.sameLine t (by simp [hrest])
  simpa [State.current, State.peek, hrest] using ht

theorem afterLineBreak_peek_one {w' : Word} (h : s.Shows (w :: w' :: ws)) :
    (s.peek 1).afterLineBreak = false := by
  obtain ⟨t, rest, hrest, -, hwords⟩ := h.exists_rest
  obtain ⟨t', rest', rfl, -, -⟩ := List.map_eq_cons_iff.1 hwords
  have ht := h.sameLine t' (by simp [hrest])
  simpa [State.peek, hrest] using ht

end State.Shows

@[simp] theorem State.errors_advanced (s : State) : s.advanced.errors = s.errors := by
  unfold State.advanced
  split <;> rfl

/-- In front of `before` the reader finds no error, returns something that `P` holds of and stops in
front of `after`. -/
def Reads {γ : Type} (p : Parse γ) (before : List Word) (P : γ → Prop) (after : List Word) : Prop :=
  ∀ s : State, s.Shows before →
    P (p.run s).1 ∧ (p.run s).2.Shows after ∧ (p.run s).2.errors = s.errors

namespace Reads

variable {γ δ : Type} {p : Parse γ} {P : γ → Prop} {Q : δ → Prop} {before mid after : List Word}

theorem pure {x : γ} (h : P x) : Reads (Pure.pure x) before P before :=
  fun _ hs => ⟨h, hs, rfl⟩

/-- One reader, and then another that depends on what the first returned. -/
theorem bind {f : γ → Parse δ} (hp : Reads p before P mid)
    (hf : ∀ x, P x → Reads (f x) mid Q after) : Reads (p >>= f) before Q after := by
  intro s hs
  obtain ⟨hx, hmid, herrors⟩ := hp s hs
  obtain ⟨hy, hafter, herrors'⟩ := hf _ hx _ hmid
  exact ⟨hy, hafter, herrors'.trans herrors⟩

theorem map {f : γ → δ} (hp : Reads p before P after) (hf : ∀ x, P x → Q (f x)) :
    Reads (f <$> p) before Q after := by
  intro s hs
  obtain ⟨hx, hafter, herrors⟩ := hp s hs
  exact ⟨hf _ hx, hafter, herrors⟩

theorem some (hp : Reads p before P after) :
    Reads (Option.some <$> p) before (fun x? => ∃ x, x? = Option.some x ∧ P x) after :=
  hp.map fun x hx => ⟨x, rfl, hx⟩

theorem mono {P' : γ → Prop} (hp : Reads p before P after) (h : ∀ x, P x → P' x) :
    Reads p before P' after := by
  intro s hs
  obtain ⟨hx, hafter, herrors⟩ := hp s hs
  exact ⟨h _ hx, hafter, herrors⟩

/-- Looking at the state. -/
theorem get_bind {f : State → Parse δ} (h : ∀ s : State, s.Shows before → Reads (f s) before Q after) :
    Reads (get >>= f) before Q after :=
  fun s hs => h s hs s hs

end Reads

/-! ### Steps -/

variable {γ : Type} {Q : γ → Prop} {w : Word} {ws after : List Word} {kind : TokenKind}

theorem reads_current : Reads current (w :: ws) (·.word = w) (w :: ws) :=
  fun _ hs => ⟨hs.word_current, hs, rfl⟩

theorem reads_current_any : Reads current ws (·.kind = first ws) ws :=
  fun _ hs => ⟨hs.kind_current, hs, rfl⟩

theorem reads_isAt : Reads (isAt kind) ws (· = (first ws == kind)) ws :=
  fun _ hs => ⟨congrArg (· == kind) hs.kind_current, hs, rfl⟩

theorem reads_remaining : Reads remaining ws (· = ws.length) ws :=
  fun _ hs => ⟨hs.length_rest, hs, rfl⟩

theorem reads_advance : Reads advance (w :: ws) (·.word = w) ws :=
  fun s hs => ⟨hs.word_current, hs.advanced, s.errors_advanced⟩

theorem reads_eat : Reads (eat kind) (ofKind kind :: ws) (· = true) ws := by
  refine reads_isAt.bind ?_
  rintro _ rfl
  simp only [first_cons, kind_ofKind, beq_self_eq_true, if_true]
  exact reads_advance.bind fun _ _ => .pure rfl

theorem reads_eat_of_ne (h : first ws ≠ kind) : Reads (eat kind) ws (· = false) ws := by
  refine reads_isAt.bind ?_
  rintro _ rfl
  rw [if_neg (by simpa using h)]
  exact .pure rfl

theorem reads_expect : Reads (expect kind) (ofKind kind :: ws) (· = true) ws := by
  refine reads_eat.bind ?_
  rintro _ rfl
  exact .pure rfl

theorem reads_finish {start : Nat} {k : Kind (Ident Span) (Node Span)} :
    Reads (finish start k) ws (·.kind = k) ws :=
  fun _ hs => ⟨rfl, hs, rfl⟩

theorem reads_semicolon : Reads semicolon (ofKind .semicolon :: ws) (fun _ => True) ws := by
  refine reads_eat.bind ?_
  rintro _ rfl
  exact .pure trivial

/-- A name that is no reserved word is an identifier. -/
theorem kind_ofName {name : String} (h : IsIdentifier name) : (ofName name).kind = .identifier := by
  simp [ofName, h.2]

theorem reads_declaredName {cause : ErrorCause} {name : String} (h : IsIdentifier name) :
    Reads (declaredName cause) (ofName name :: ws) (·.bare = ⟨(), name⟩) ws := by
  refine reads_isAt.bind ?_
  rintro _ rfl
  rw [first_cons, kind_ofName h, if_pos (beq_self_eq_true _)]
  refine reads_advance.bind fun t ht => .pure ?_
  have : t.text = name := congrArg Word.text ht
  simp [Ident.bare, this]

theorem kind_ofName_eq (name : String) :
    (ofName name).kind = .identifier ∨ (ofName name).kind.isReservedWord = true := by
  cases h : TokenKind.reservedWord? name.toList with
  | none => exact .inl (by simp [ofName, h])
  | some kind =>
    refine .inr ?_
    have hmem := List.mem_of_find?_eq_some h
    simpa [ofName, h, TokenKind.isReservedWord] using hmem

theorem reads_memberName {name : String} :
    Reads memberName (ofName name :: ws) (·.bare = ⟨(), name⟩) ws := by
  refine reads_current.bind fun t ht => ?_
  have hkind : t.kind = (ofName name).kind := congrArg Word.kind ht
  have htext : t.text = name := congrArg Word.text ht
  have hname : (t.kind == .identifier || t.kind.isReservedWord) = true := by
    rw [hkind]
    rcases kind_ofName_eq name with h | h <;> simp [h]
  rw [if_pos hname]
  refine reads_advance.bind fun _ _ => .pure ?_
  simp [Ident.bare, htext]

end Syntax.Parser

end ScriptAnalysis

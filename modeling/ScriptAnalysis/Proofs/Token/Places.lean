import ScriptAnalysis.Token.Stream

/-!
# Where tokens stand

The tokens of a text cover characters of it, which are what they are spelled with (`coversIn_ofChars`), and
each starts where the one before it has stopped or later (`pairwise_all_ofChars`); the end of the text comes
last. So no two tokens start at the same place (`pairwise_starts_ofChars`). What one piece can be is said once,
by `Lexeme.Cuts`.
-/

namespace ScriptAnalysis

open Text

/-! ### The pieces of a text -/

/-- Every piece of a text is read at the head of some text. -/
theorem Lexeme.exists_scan_of_mem {recover : Recovery} {l : Lexeme} {cs : List Char}
    (h : l ∈ lexemes cs recover) : ∃ c rest, l = scan c rest recover := by
  suffices H : ∀ n cs, l ∈ scanMany recover n cs → ∃ c rest, l = scan c rest recover from H _ _ h
  intro n
  induction n with
  | zero => simp [scanMany]
  | succ n ih =>
    rintro (- | ⟨c, rest⟩) h
    · simp [scanMany] at h
    · rcases List.mem_cons.mp h with rfl | h
      · exact ⟨c, rest, rfl⟩
      · exact ih _ h

/-- A token of the kind can have the characters: it is not the end of the text, and has the one spelling of
its kind if there is one. -/
def TokenKind.CanBe (kind : TokenKind) (cs : List Char) : Prop :=
  kind ≠ .endOfFile ∧ (kind.spelling?.isSome = true → cs = kind.chars)

theorem TokenKind.canBe_of_mem {kind : TokenKind}
    (h : kind ∈ [TokenKind.identifier, .numericLiteral, .stringLiteral, .unknown]) (cs : List Char) :
    kind.CanBe cs := by
  have hfree : kind ≠ .endOfFile ∧ kind.spelling?.isSome = false := by
    revert h
    cases kind <;> decide
  exact ⟨hfree.1, fun h => absurd (h.symm.trans hfree.2) (by decide)⟩

theorem TokenKind.canBe_of_reservedWord? {kind : TokenKind} {cs : List Char}
    (h : TokenKind.reservedWord? cs = some kind) : kind.CanBe cs := by
  have hmem : kind ∈ TokenKind.reservedWords := List.mem_of_find?_eq_some h
  have hchars : kind.chars = cs := by simpa using List.find?_some h
  refine ⟨?_, fun _ => hchars.symm⟩
  rintro rfl
  revert hmem
  decide

theorem TokenKind.canBe_of_punctuator? {kind : TokenKind} {c : Char} {cs : List Char}
    (h : TokenKind.punctuator? (c :: cs) = some kind) : kind.CanBe (c :: kind.chars.tail) := by
  have hmem : kind ∈ TokenKind.punctuators := List.mem_of_find?_eq_some h
  have hprefix : kind.chars <+: c :: cs := Lexeme.isPrefix_punctuator? h
  have hne : kind ≠ .endOfFile ∧ kind.chars ≠ [] := by
    revert hmem
    cases kind <;> decide
  refine ⟨hne.1, fun _ => ?_⟩
  obtain ⟨d, ds, hchars⟩ := List.exists_cons_of_ne_nil hne.2
  rw [hchars, List.cons_prefix_cons] at hprefix
  rw [hchars, hprefix.1]
  rfl

/-- Neither a name nor a number, a string or a comment begins the text. -/
structure Lexeme.IsOther (c : Char) (cs : List Char) : Prop where
  not_name : ¬ isNameStart c = true
  not_digit : ¬ c.isDigit = true
  not_quote : ¬ (c = '"' ∨ c = '\'')
  not_line : ∀ rest, c :: cs ≠ '/' :: '/' :: rest
  not_block : ∀ rest, c :: cs ≠ '/' :: '*' :: rest

/-- The class of the piece at the head of a text that starts with `c`, and its characters after `c`: one case
for each branch of `classify`. -/
inductive Lexeme.Cuts (recover : Recovery) (c : Char) : List Char → LexemeClass → List Char → Prop where
  | layout {cs} (h : isLayout c = true) : Cuts recover c cs .layout (cs.takeWhile isLayout)
  | name {cs} (h : isNameStart c = true) :
    Cuts recover c cs (.token ((TokenKind.reservedWord? (c :: cs.takeWhile isNamePart)).getD .identifier))
      (cs.takeWhile isNamePart)
  | number {cs} (h : c.isDigit = true) : Cuts recover c cs (.token .numericLiteral) (number (c :: cs)).tail
  | string {cs} (h : c = '"' ∨ c = '\'') (hclosed : (stringBody c cs).2 = true) :
    Cuts recover c cs (.token .stringLiteral) (stringBody c cs).1
  | openString {cs} (h : c = '"' ∨ c = '\'') (hopen : (stringBody c cs).2 = false) :
    Cuts recover c cs (.token .unknown) (recover.tail c cs)
  | lineComment {rest} (h : c = '/') :
    Cuts recover c ('/' :: rest) .lineComment ('/' :: rest.takeWhile (· ≠ '\n'))
  | blockComment {rest} (h : c = '/') :
    Cuts recover c ('*' :: rest) (.blockComment (blockBody rest).2) ('*' :: (blockBody rest).1)
  | punctuator {cs kind} (hother : IsOther c cs) (h : TokenKind.punctuator? (c :: cs) = some kind) :
    Cuts recover c cs (.token kind) kind.chars.tail
  | unknown {cs} (hother : IsOther c cs) (h : TokenKind.punctuator? (c :: cs) = none) :
    Cuts recover c cs (.token .unknown) (recover.tail c cs)

theorem Lexeme.cuts_classify {recover : Recovery} (c : Char) (cs : List Char) :
    Cuts recover c cs (classify c cs recover).1 (classify c cs recover).2 := by
  unfold classify
  split
  · exact .layout ‹_›
  split
  · exact .name ‹_›
  split
  · exact .number ‹_›
  split
  · rename_i hquote
    dsimp only
    split
    · exact .string hquote ‹_›
    · exact .openString hquote (Bool.eq_false_iff.mpr ‹_›)
  split
  · exact .lineComment rfl
  · exact .blockComment rfl
  · rename_i hname hdigit hquote _ _ hline hblock
    have hother : IsOther c cs := ⟨hname, hdigit, hquote,
      fun rest heq => hline rest (List.cons.inj heq).1 (List.cons.inj heq).2,
      fun rest heq => hblock rest (List.cons.inj heq).1 (List.cons.inj heq).2⟩
    split
    · exact .punctuator hother ‹_›
    · exact .unknown hother ‹_›

/-- A piece that is a token has the characters of one of its kind. -/
theorem Lexeme.canBe_of_cuts {recover : Recovery} {c : Char} {cs tail : List Char} {kind : TokenKind}
    (h : Cuts recover c cs (.token kind) tail) : kind.CanBe (c :: tail) := by
  cases h with
  | name =>
    cases hword : TokenKind.reservedWord? (c :: cs.takeWhile isNamePart) with
    | none => exact TokenKind.canBe_of_mem (by simp) _
    | some word => exact TokenKind.canBe_of_reservedWord? hword
  | number => exact TokenKind.canBe_of_mem (by simp) _
  | string => exact TokenKind.canBe_of_mem (by simp) _
  | openString => exact TokenKind.canBe_of_mem (by simp) _
  | punctuator hother h => exact TokenKind.canBe_of_punctuator? h
  | unknown => exact TokenKind.canBe_of_mem (by simp) _

/-! ### The tokens of a text -/

/-- The token covers characters of the text, and is spelled with them. -/
structure Token.CoversIn (source : List Char) (t : Token) : Prop where
  lt : t.span.start < t.span.stop
  textIn : t.span.textIn source = t.text
  kind_ne : t.kind ≠ .endOfFile
  spelled : ∀ text, t.kind.spelling? = some text → t.text = text

namespace TokenStream

/-- The end of the text is a token of its own kind without characters. -/
theorem ending_ofLexemes (offset : Nat) (lineBreak : Bool) (ls : List Lexeme) :
    (ofLexemes offset lineBreak ls).ending.kind = .endOfFile ∧
      (ofLexemes offset lineBreak ls).ending.text = "" := by
  induction ls generalizing offset lineBreak with
  | nil => exact ⟨rfl, rfl⟩
  | cons l ls ih =>
    rw [ofLexemes]
    split <;> exact ih _ _

theorem kind_ending_ofChars (cs : List Char) : (ofChars cs).ending.kind = .endOfFile :=
  (ending_ofLexemes 0 false _).1

theorem text_ending_ofChars (cs : List Char) : (ofChars cs).ending.text = "" :=
  (ending_ofLexemes 0 false _).2

/-- Where the tokens start, the end of the text last. -/
def starts (stream : TokenStream) : List Nat := stream.all.map (·.span.start)

variable {ls : List Lexeme}

theorem coversIn_ofLexemes (before : List Char) (lineBreak : Bool)
    (hls : ∀ l ∈ ls, ∃ c rest, l = Lexeme.scan c rest) :
    ∀ t ∈ (ofLexemes (byteLength before) lineBreak ls).tokens,
      t.CoversIn (before ++ ls.flatMap (·.chars)) := by
  induction ls generalizing before lineBreak with
  | nil => simp [ofLexemes]
  | cons l ls ih =>
    have hrest : ∀ lineBreak, ∀ t ∈ (ofLexemes (byteLength before + byteLength l.chars) lineBreak ls).tokens,
        t.CoversIn (before ++ (l :: ls).flatMap (·.chars)) := by
      intro lineBreak
      have h := ih (before ++ l.chars) lineBreak fun l hl => hls l (List.mem_cons_of_mem _ hl)
      rwa [byteLength_append, List.append_assoc] at h
    rw [ofLexemes]
    split
    · exact hrest _
    · exact hrest _
    · exact hrest _
    · exact hrest _
    · rename_i kind hkind
      refine List.forall_mem_cons.mpr ⟨?_, hrest _⟩
      obtain ⟨c, rest, rfl⟩ := hls l List.mem_cons_self
      have hcut : Lexeme.Cuts .standard c rest (.token kind) (Lexeme.classify c rest).2 := by
        rw [← hkind]
        exact Lexeme.cuts_classify c rest
      obtain ⟨hne, hchars⟩ : kind.CanBe (Lexeme.scan c rest).chars := Lexeme.canBe_of_cuts hcut
      refine ⟨?_, ?_, hne, fun text htext => ?_⟩
      · have hpos := c.utf8Size_pos
        have hlength : byteLength (Lexeme.scan c rest).chars =
          c.utf8Size + byteLength (Lexeme.classify c rest).2 := rfl
        show byteLength before < byteLength before + byteLength (Lexeme.scan c rest).chars
        omega
      · rw [List.flatMap_cons, ← List.append_assoc, Span.textIn, slice_append_append]
        rfl
      · show String.ofList (Lexeme.scan c rest).chars = text
        rw [hchars (by rw [htext]; rfl), TokenKind.chars, htext, Option.getD_some, String.ofList_toList]

theorem pairwise_all_ofLexemes (offset : Nat) (lineBreak : Bool) (ls : List Lexeme) :
    (∀ t ∈ (ofLexemes offset lineBreak ls).all, offset ≤ t.span.start) ∧
      (ofLexemes offset lineBreak ls).all.Pairwise (·.span.stop ≤ ·.span.start) := by
  induction ls generalizing offset lineBreak with
  | nil => simp [ofLexemes, all]
  | cons l ls ih =>
    have hle : ∀ lineBreak, ∀ t ∈ (ofLexemes (offset + byteLength l.chars) lineBreak ls).all,
        offset ≤ t.span.start :=
      fun lineBreak t ht => Nat.le_trans (Nat.le_add_right ..) ((ih _ lineBreak).1 t ht)
    rw [ofLexemes]
    split
    · exact ⟨hle _, (ih _ _).2⟩
    · exact ⟨hle _, (ih _ _).2⟩
    · exact ⟨hle _, (ih _ _).2⟩
    · exact ⟨hle _, (ih _ _).2⟩
    · exact ⟨List.forall_mem_cons.mpr ⟨Nat.le_refl _, hle _⟩, List.pairwise_cons.mpr (ih _ _)⟩

variable (cs : List Char)

/-- Every token of a text covers characters of it. -/
theorem coversIn_ofChars : ∀ t ∈ (ofChars cs).tokens, t.CoversIn cs := by
  have h := coversIn_ofLexemes [] false fun l (hl : l ∈ lexemes cs) => Lexeme.exists_scan_of_mem hl
  rwa [flatMap_chars_lexemes] at h

/-- Every token starts where the ones before it have stopped or later. -/
theorem pairwise_all_ofChars : (ofChars cs).all.Pairwise (·.span.stop ≤ ·.span.start) :=
  (pairwise_all_ofLexemes 0 false _).2

/-- Every token starts after the ones before it. -/
theorem pairwise_starts_ofChars : (ofChars cs).starts.Pairwise (· < ·) := by
  have hpairs := pairwise_all_ofChars cs
  rw [starts, List.pairwise_map]
  rw [all, List.pairwise_append] at hpairs ⊢
  obtain ⟨htokens, hending, hle⟩ := hpairs
  refine ⟨?_, List.pairwise_singleton .., ?_⟩
  · exact htokens.imp_of_mem fun ha _ hle =>
      Nat.lt_of_lt_of_le (coversIn_ofChars cs _ ha).lt hle
  · exact fun a ha b hb => Nat.lt_of_lt_of_le (coversIn_ofChars cs a ha).lt (hle a ha b hb)

end TokenStream

end ScriptAnalysis

import ScriptAnalysis.Proofs.Token.Patterns
import ScriptAnalysis.Proofs.Token.Places
import ScriptAnalysis.Proofs.Token.Spelling

/-!
# Printing tokens and reading them again

A token that is known is read by its own characters: none of them was taken because of what stood before or
behind it, so in front of a space or of nothing they are read as the same token again
(`Lexeme.isWhole_of_cuts`). The tokens of a text, printed with one space between them, are therefore the
tokens of what is printed.
-/

namespace ScriptAnalysis

namespace Lexeme

variable {c q : Char} {cs w tail : List Char} {kind : TokenKind}

/-! ### Known tokens are whole words -/

/-- A number is read as itself when nothing stands behind it. -/
theorem number_idem (hc : c.isDigit = true) (cs : List Char) :
    number (number (c :: cs)) = number (c :: cs) := by
  have hself := (Pattern.isLongest_number hc cs).self
  rw [Pattern.number_cons hc cs] at hself ⊢
  exact hself.eq (Pattern.isLongest_number hc _)

theorem isWhole_punctuator (h : TokenKind.punctuator? (c :: cs) = some kind) :
    (Word.mk kind (String.ofList (c :: kind.chars.tail))).IsWhole := by
  have hkind : kind ∈ TokenKind.punctuators := List.mem_of_find?_eq_some h
  have hsome : kind.spelling?.isSome = true :=
    (TokenKind.isSome_spelling?_iff kind).mpr (.inr (List.contains_iff_mem.mpr hkind))
  rw [(TokenKind.canBe_of_punctuator? h).2 hsome, TokenKind.chars, String.ofList_toList]
  exact Word.isWhole_ofKind hsome

/-- A known token is read the same when only a space, or nothing, stands behind it. -/
theorem isWhole_of_cuts (h : Cuts .standard c cs (.token kind) tail) (hkind : kind ≠ .unknown) :
    (Word.mk kind (String.ofList (c :: tail))).IsWhole := by
  cases h with
  | name hname =>
    have hwhole : (Word.ofName (String.ofList (c :: cs.takeWhile isNamePart))).IsWhole :=
      Word.isWhole_ofName ⟨c, _, String.toList_ofList, hname, List.all_takeWhile⟩
    rwa [Word.ofName, String.toList_ofList] at hwhole
  | number hdigit =>
    have hidem := number_idem hdigit cs
    rw [Pattern.number_cons hdigit cs] at hidem
    exact Word.isWhole_numeral ⟨c, _, String.toList_ofList, hdigit, hidem⟩
  | string hquote hclosed => exact Word.isWhole_string hquote (Pattern.mem_closed_of_stringBody hclosed)
  | openString => exact absurd rfl hkind
  | punctuator _ hword => exact isWhole_punctuator hword
  | unknown => exact absurd rfl hkind

/-- Where a name is expected, and where a reserved word is, the token has the characters of a name. -/
theorem isName_of_cuts (h : Cuts .standard c cs (.token kind) tail)
    (hkind : kind = .identifier ∨ kind.isReservedWord = true) : Word.IsName (String.ofList (c :: tail)) := by
  cases h with
  | name hname => exact ⟨c, _, String.toList_ofList, hname, List.all_takeWhile⟩
  | number | string | openString | unknown => exact absurd hkind (by decide)
  | punctuator _ hword =>
    have hmem : kind.isPunctuator = true := List.contains_iff_mem.mpr (List.mem_of_find?_eq_some hword)
    rcases hkind with rfl | hreserved
    · exact absurd hmem (by decide)
    · rw [TokenKind.not_isReservedWord_of_isPunctuator kind hmem] at hreserved
      cases hreserved

end Lexeme

theorem Word.spaced_eq (ws : List Word) : spaced ws = [' '].intercalate (ws.map (·.text.toList)) := by
  induction ws with
  | nil => rfl
  | cons w ws ih =>
    cases ws with
    | nil => exact List.intercalate_singleton.symm
    | cons w' ws =>
      rw [spaced, ih, List.map_cons, List.map_cons, List.map_cons, List.intercalate_cons_cons,
        List.append_assoc]
      rfl

namespace TokenStream

/-- A token of pieces is one of them. -/
theorem exists_lexeme_of_mem_tokens {t : Token} {offset : Nat} {lineBreak : Bool} {ls : List Lexeme}
    (ht : t ∈ (ofLexemes offset lineBreak ls).tokens) :
    ∃ l ∈ ls, l.cls = .token t.kind ∧ t.text = String.ofList l.chars := by
  induction ls generalizing offset lineBreak with
  | nil => cases ht
  | cons l ls ih =>
    have hlater : ∀ {offset lineBreak}, t ∈ (ofLexemes offset lineBreak ls).tokens →
        ∃ l' ∈ l :: ls, l'.cls = .token t.kind ∧ t.text = String.ofList l'.chars := by
      intro offset lineBreak ht
      obtain ⟨l', hmem, hl'⟩ := ih ht
      exact ⟨l', List.mem_cons_of_mem l hmem, hl'⟩
    rw [ofLexemes] at ht
    split at ht
    · exact hlater ht
    · exact hlater ht
    · exact hlater ht
    · exact hlater ht
    · rename_i hcls
      rcases List.mem_cons.mp ht with rfl | ht
      · exact ⟨l, List.mem_cons_self, hcls, rfl⟩
      · exact hlater ht

/-- A token of a text has been cut off where it stands. -/
theorem exists_cuts_of_mem_tokens {cs : List Char} {t : Token} (ht : t ∈ (ofChars cs).tokens) :
    ∃ c rest tail, Lexeme.Cuts .standard c rest (.token t.kind) tail ∧ t.text = String.ofList (c :: tail) := by
  obtain ⟨l, hl, hcls, htext⟩ := exists_lexeme_of_mem_tokens ht
  obtain ⟨c, rest, rfl⟩ := Lexeme.exists_scan_of_mem hl
  refine ⟨c, rest, (Lexeme.classify c rest).2, ?_, htext⟩
  rw [← hcls]
  exact Lexeme.cuts_classify c rest

/-- The known tokens of a text are whole words. -/
theorem isWhole_of_mem_tokens {cs : List Char} {t : Token} (ht : t ∈ (ofChars cs).tokens)
    (hkind : t.kind ≠ .unknown) : t.word.IsWhole := by
  obtain ⟨c, rest, tail, hcut, htext⟩ := exists_cuts_of_mem_tokens ht
  rw [Token.word, htext]
  exact Lexeme.isWhole_of_cuts hcut hkind

/-- The names and the reserved words of a text have the characters of names. -/
theorem isName_of_mem_tokens {cs : List Char} {t : Token} (ht : t ∈ (ofChars cs).tokens)
    (hkind : t.kind = .identifier ∨ t.kind.isReservedWord = true) : Word.IsName t.text := by
  obtain ⟨c, rest, tail, hcut, htext⟩ := exists_cuts_of_mem_tokens ht
  rw [htext]
  exact Lexeme.isName_of_cuts hcut hkind

/-! ### Printing -/

/-- The tokens before the end of the text, with one space between them. -/
def printed (stream : TokenStream) : String := " ".intercalate (stream.tokens.map (·.text))

theorem toList_printed (stream : TokenStream) :
    stream.printed.toList = Word.spaced (stream.tokens.map Token.word) := by
  rw [printed, String.toList_intercalate, Word.spaced_eq, List.map_map, List.map_map]
  rfl

/-- The other stream has the same kinds and texts of tokens, the end of the text included, and neither
comments nor errors. -/
structure SameTokens (stream again : TokenStream) : Prop where
  words : again.all.map Token.word = stream.all.map Token.word
  comments : again.comments = []
  errors : again.errors = []

end TokenStream

end ScriptAnalysis

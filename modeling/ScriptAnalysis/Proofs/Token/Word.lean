import ScriptAnalysis.Token.Stream

/-!
# Words with spaces between them

A word is the kind and the characters of a token. It is whole when its characters, in front of a space
or of nothing, are cut off as one token of its kind. `shows_spaced` says that whole words written with one
space between them are read as exactly these tokens, with no comments and no errors.
-/

namespace ScriptAnalysis

/-- The kind and the characters of a token. -/
structure Word where
  /-- What the token is. -/
  kind : TokenKind
  /-- Its characters. -/
  text : String
  deriving DecidableEq

/-- The kind and the characters of a token. -/
def Token.word (t : Token) : Word := ⟨t.kind, t.text⟩

@[simp] theorem Token.kind_word (t : Token) : t.word.kind = t.kind := rfl

@[simp] theorem Token.text_word (t : Token) : t.word.text = t.text := rfl

namespace Word

/-- A space comes next, or nothing. -/
def Breaks (rest : List Char) : Prop := rest = [] ∨ ∃ rest', rest = ' ' :: rest'

/-- In front of a space or of nothing the characters are cut off as one token. -/
def IsWhole (w : Word) : Prop :=
  ∃ c cs, w.text.toList = c :: cs ∧ Lexeme.isLayout c = false ∧
    ∀ rest, Breaks rest → Lexeme.classify c (cs ++ rest) = (.token w.kind, cs)

/-- The words with one space between them. -/
def spaced : List Word → List Char
  | [] => []
  | [w] => w.text.toList
  | w :: w' :: ws => w.text.toList ++ ' ' :: spaced (w' :: ws)

/-- What stands behind the first of some words. -/
def spacedTail : List Word → List Char
  | [] => []
  | w :: ws => ' ' :: spaced (w :: ws)

theorem spaced_cons (w : Word) (ws : List Word) :
    spaced (w :: ws) = w.text.toList ++ spacedTail ws := by
  cases ws <;> simp [spaced, spacedTail]

theorem breaks_spacedTail (ws : List Word) : Breaks (spacedTail ws) := by
  cases ws with
  | nil => exact .inl rfl
  | cons w ws => exact .inr ⟨_, rfl⟩

/-- A whole word is cut off in front of what follows. -/
theorem IsWhole.lexemes_append {w : Word} (h : w.IsWhole) {rest : List Char} (hrest : Breaks rest) :
    lexemes (w.text.toList ++ rest) = ⟨.token w.kind, w.text.toList, rest⟩ :: lexemes rest := by
  obtain ⟨c, cs, htext, -, hclass⟩ := h
  have hscan : Lexeme.scan c (cs ++ rest) = ⟨.token w.kind, w.text.toList, rest⟩ := by
    simp [Lexeme.scan, hclass rest hrest, htext]
  rw [htext, List.cons_append, lexemes_cons, hscan, htext]

/-- The space in front of a whole word is cut off by itself. -/
theorem IsWhole.lexemes_space {w : Word} (h : w.IsWhole) (rest : List Char) :
    lexemes (' ' :: (w.text.toList ++ rest)) =
      ⟨.layout, [' '], w.text.toList ++ rest⟩ :: lexemes (w.text.toList ++ rest) := by
  obtain ⟨c, cs, htext, hlayout, -⟩ := h
  have hscan : Lexeme.scan ' ' (w.text.toList ++ rest) = ⟨.layout, [' '], w.text.toList ++ rest⟩ := by
    have : Lexeme.isLayout ' ' = true := by decide
    simp [Lexeme.scan, Lexeme.classify, this, htext, hlayout]
  rw [lexemes_cons, hscan]

end Word

/-- The stream has exactly these words, all on one line, and nothing else. -/
structure TokenStream.Shows (stream : TokenStream) (ws : List Word) : Prop where
  words : stream.tokens.map Token.word = ws
  sameLine : ∀ t ∈ stream.tokens, t.afterLineBreak = false
  ending : stream.ending.kind = .endOfFile
  comments : stream.comments = []
  errors : stream.errors = []

namespace Word

/-- The pieces of whole words make up a stream of these words. -/
theorem shows_ofLexemes {ws : List Word} (h : ∀ w ∈ ws, w.IsWhole) (offset : Nat) :
    (TokenStream.ofLexemes offset false (lexemes (spaced ws))).Shows ws ∧
      (TokenStream.ofLexemes offset false (lexemes (spacedTail ws))).Shows ws := by
  induction ws generalizing offset with
  | nil =>
    have : (TokenStream.ofLexemes offset false (lexemes [])).Shows [] :=
      ⟨rfl, by simp [TokenStream.ofLexemes], rfl, rfl, rfl⟩
    exact ⟨this, this⟩
  | cons w ws ih =>
    have hw := h w (List.mem_cons_self ..)
    have hwords : ∀ offset,
        (TokenStream.ofLexemes offset false (lexemes (spaced (w :: ws)))).Shows (w :: ws) := by
      intro offset
      obtain ⟨-, hrest⟩ := ih (fun w' hw' => h w' (List.mem_cons_of_mem w hw'))
        (offset + Text.byteLength w.text.toList)
      rw [spaced_cons, hw.lexemes_append (breaks_spacedTail ws)]
      refine ⟨?_, ?_, hrest.ending, hrest.comments, hrest.errors⟩
      · simp [TokenStream.ofLexemes, TokenStream.consToken, hrest.words, Token.word]
      · simpa [TokenStream.ofLexemes, TokenStream.consToken] using hrest.sameLine
    refine ⟨hwords offset, ?_⟩
    rw [spacedTail, spaced_cons, hw.lexemes_space, ← spaced_cons]
    exact hwords _

/-- Whole words with spaces between them are read as these words. -/
theorem shows_spaced {ws : List Word} (h : ∀ w ∈ ws, w.IsWhole) :
    (TokenStream.ofChars (spaced ws)).Shows ws :=
  (shows_ofLexemes h 0).1

end Word

end ScriptAnalysis

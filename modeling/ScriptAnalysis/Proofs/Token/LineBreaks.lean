import ScriptAnalysis.Proofs.Text.Lines
import ScriptAnalysis.Proofs.Token.LongestMatch

/-!
# Line breaks before tokens

A token is marked when a line feed stands between the token before it and its start. No token has a line feed
in it (`Lexeme.lineFeed_notMem_scan`): no rule has words with line feeds, and what is unknown is a single
character or the beginning of such a word, whichever way the lexer recovers (`Recovery.IsViable`). So the mark
says that the token starts on a later line than the one before it, as lines are found in the table of line
starts (`TokenStream.marksLines_ofChars`).
-/

namespace ScriptAnalysis

open Text

namespace Lexeme

/-! ### Recovery along the rules -/

/-- Where no rule matches, the text is read on only as long as one of the rules could still match: more than one
character is taken only of what a word of a rule begins with. -/
def Recovery.IsViable (recover : Recovery) : Prop :=
  ∀ c cs, isLayout c = false → Pattern.Misses Rule.any (c :: cs) → recover.tail c cs ≠ [] →
    ∃ w ∈ Rule.any, c :: recover.tail c cs <+: w

/-- What could still be a string is a string as soon as the quote stands behind it. -/
theorem Recovery.isViable_standard : Recovery.standard.IsViable := by
  intro c cs _ hmisses hne
  simp only [standard] at hne ⊢
  by_cases hquote : c = '"' ∨ c = '\''
  · rw [if_pos hquote] at hne ⊢
    have hopen : (stringBody c cs).2 = false := by
      by_contra hclosed
      have hwins : Item.Wins (c :: cs) _ _ := Item.wins_string hquote (Bool.not_eq_false _ ▸ hclosed)
      exact hmisses _ hwins.longest.mem hwins.longest.isPrefix
    have hmem : c :: ((stringBody c cs).1 ++ [c]) ∈ Pattern.string c :=
      Pattern.cons_mem_oneOf_mul.mpr ⟨rfl, Language.append_mem_mul
        (Pattern.mem_pieces_of_stringBody hopen) ⟨c, rfl, rfl⟩⟩
    have hrule : ∃ r : Rule, c :: ((stringBody c cs).1 ++ [c]) ∈ r.pattern := by
      rcases hquote with rfl | rfl
      · exact ⟨.doubleQuoted, hmem⟩
      · exact ⟨.singleQuoted, hmem⟩
    exact ⟨_, ⟨List.cons_ne_nil _ _, hrule⟩, List.cons_prefix_cons.mpr ⟨rfl, List.prefix_append ..⟩⟩
  · rw [if_neg hquote] at hne
    exact absurd rfl hne

/-! ### Tokens have no line feeds -/

theorem over_string {q : Char} (hq : q ≠ '\n') : Pattern.Over (· ≠ '\n') (Pattern.string q) := by
  have hquote : Pattern.Over (· ≠ '\n') (Pattern.char q) := .oneOf fun _ heq => heq ▸ hq
  have hpiece : Pattern.Over (· ≠ '\n') (Pattern.piece q) := by
    refine (Pattern.Over.oneOf ?_).add (.mul (.oneOf ?_) (.oneOf fun _ h => h))
    · rintro _ h rfl
      simp at h
    · rintro _ rfl
      decide
  exact hquote.mul (hpiece.star.mul hquote)

/-- No rule has a word with a line feed. -/
theorem Rule.over_any : Pattern.Over (· ≠ '\n') Rule.any := by
  have hlayout : ∀ c, isLayout c = false → c ≠ '\n' := by
    rintro _ h rfl
    exact absurd h (by decide)
  have hnumber := Pattern.over_number.mono hlayout
  rintro w ⟨-, r, hr⟩
  cases r with
  | lineComment =>
    have hslash : Pattern.Over (· ≠ '\n') (Pattern.char '/') := .oneOf fun _ heq => heq ▸ by decide
    exact (hslash.mul (hslash.mul (Pattern.Over.oneOf fun _ h => h).star)) w hr
  | blockComment =>
    obtain rfl : w = ['/', '*'] := hr
    exact List.forall_mem_cons.mpr ⟨by decide, List.forall_mem_singleton.mpr (by decide)⟩
  | fixed kind =>
    obtain ⟨rfl, hkind⟩ := Rule.mem_fixed_iff.mp hr
    have hwords : ∀ kind ∈ TokenKind.reservedWords, '\n' ∉ kind.chars := by decide
    have hpunctuators : ∀ kind ∈ TokenKind.punctuators, '\n' ∉ kind.chars := by decide
    rintro _ hc rfl
    exact hkind.elim (hwords kind) (hpunctuators kind) hc
  | hexNumber => exact hnumber w (.inl hr)
  | decimalNumber => exact hnumber w (.inr hr)
  | doubleQuoted => exact over_string (by decide) w hr
  | singleQuoted => exact over_string (by decide) w hr
  | name =>
    have hstart : Pattern.Over (· ≠ '\n') Pattern.nameStart := by
      refine .oneOf ?_
      rintro _ h rfl
      revert h
      decide
    have hdigit : Pattern.Over (· ≠ '\n') Pattern.digit := by
      refine .oneOf ?_
      rintro _ h rfl
      revert h
      decide
    exact (hstart.mul (hstart.add hdigit).star) w hr

variable {recover : Recovery} {c : Char} {rest : List Char} {kind : TokenKind}

/-- A token has no line feed. -/
theorem lineFeed_notMem_scan (hrecover : recover.IsViable)
    (h : (scan c rest recover).cls = .token kind) : '\n' ∉ (scan c rest recover).chars := by
  have hword : ∀ {w}, w ∈ Rule.any → '\n' ∉ w := fun hw hmem => Rule.over_any _ hw _ hmem rfl
  have hlayout : isLayout c = false := by
    by_contra hc
    rw [scan, classify_of_isLayout (Bool.not_eq_false _ ▸ hc)] at h
    cases h
  have hunknown (hmisses : Pattern.Misses Rule.any (c :: rest)) : '\n' ∉ c :: recover.tail c rest := by
    by_cases hnil : recover.tail c rest = []
    · rw [hnil, List.mem_singleton]
      rintro rfl
      exact absurd hlayout (by decide)
    · obtain ⟨w, hw, hpre⟩ := hrecover c rest hlayout hmisses hnil
      exact fun hmem => hword hw (hpre.subset hmem)
  have hcut : Cuts recover c rest (.token kind) (classify c rest recover).2 := by
    rw [← h]
    exact cuts_classify c rest
  have hmatch := Item.isLongestMatch_cuts hcut rfl
  have hchars : (scan c rest recover).chars = c :: (classify c rest recover).2 := rfl
  rw [hchars]
  generalize (classify c rest recover).2 = tail at hcut hmatch
  cases hcut with
  | name hname => exact hword (Item.wins_name hname rest).longest.mem
  | number hdigit => exact hword (Item.wins_number hdigit rest).longest.mem
  | string hquote hclosed => exact hword (Item.wins_string hquote hclosed).longest.mem
  | punctuator hother hkind => exact hword (Item.wins_punctuator hother hkind).longest.mem
  | openString => exact hunknown (hmatch.unknown_iff.mp rfl)
  | unknown => exact hunknown (hmatch.unknown_iff.mp rfl)

end Lexeme

/-! ### Marks and lines -/

/-- The line on which a token starts, as it is found in a table of line starts. -/
def Token.line (starts : LineStarts) (source : List Char) (t : Token) : Nat :=
  ((starts.position? source t.span.start).map (·.line)).getD 0

/-- Each of the tokens is marked just in case it starts on a later line than the one before it; the first one
is compared with a line. -/
def Token.MarkLines (starts : LineStarts) (source : List Char) (line : Nat) : List Token → Prop
  | [] => True
  | t :: ts => (t.afterLineBreak = true ↔ line < t.line starts source) ∧
    MarkLines starts source (t.line starts source) ts

theorem Token.MarkLines.of_append {starts : LineStarts} {source : List Char} {line : Nat}
    {before after : List Token} {t : Token} (h : MarkLines starts source line (before ++ t :: after)) :
    t.afterLineBreak = true ↔
      (before.getLast?.map (Token.line starts source)).getD line < t.line starts source := by
  induction before generalizing line with
  | nil => exact h.1
  | cons t' before ih =>
    rw [ih h.2]
    cases before <;> rfl

namespace TokenStream

/-- Every token starts at a position, and it is marked just in case it starts on a later line than the token
before it, or, as the first one, not on the first line. -/
def MarksLines (stream : TokenStream) (starts : LineStarts) (source : List Char) : Prop :=
  ∀ before t after, stream.all = before ++ t :: after →
    (∃ position, starts.position? source t.span.start = some position) ∧
      (t.afterLineBreak = true ↔
        (before.getLast?.map (Token.line starts source)).getD 1 < t.line starts source)

variable {cs before : List Char} {line : Nat} {lineBreak : Bool} {ls : List Lexeme}
  {recover : Lexeme.Recovery}

/-- The line behind a part of a text. -/
theorem line_eq (h : byteLength cs ≤ Span.maxOffset) {after : List Char} (hcs : cs = before ++ after)
    {t : Token} (ht : t.span.start = byteLength before) :
    t.line (.ofChars cs) cs = min (1 + before.count '\n') Span.maxOffset := by
  subst hcs
  rw [Token.line, ht, LineStarts.position?_ofChars h, LineIndex.position_between]
  rfl

/-- As long as the text goes on, the line has a number. -/
theorem line_eq_of_ne_nil (h : byteLength cs ≤ Span.maxOffset) {after : List Char}
    (hcs : cs = before ++ after) (hafter : after ≠ []) {t : Token} (ht : t.span.start = byteLength before) :
    t.line (.ofChars cs) cs = 1 + before.count '\n' := by
  rcases count_lt_or_isAllLineFeeds (hcs ▸ h) with hlt | ⟨hnil, -⟩
  · rw [line_eq h hcs ht, Nat.min_eq_left (by omega)]
  · exact absurd hnil hafter

/-- At the end of a text the line may be one that has no number. Nothing but line feeds stands before it then, so
it is compared with the first line. -/
theorem lt_line_end_iff (h : byteLength cs ≤ Span.maxOffset) (hfits : IsAllLineFeeds cs → line = 1) {t : Token}
    (ht : t.span.start = byteLength cs) :
    line < t.line (.ofChars cs) cs ↔ line < 1 + cs.count '\n' := by
  rw [line_eq h (List.append_nil cs).symm ht]
  rcases count_lt_or_isAllLineFeeds (a := cs) (b := []) (by rwa [List.append_nil]) with hlt | ⟨-, hall⟩
  · omega
  · have hone := hfits hall
    have hcount : cs.count '\n' = Span.maxOffset := by
      rw [IsAllLineFeeds] at hall
      rw [hall, List.count_replicate_self]
    have hlarge : 1 < Span.maxOffset := by decide
    omega

/-- The tokens of the pieces behind `before` mark lines when the mark so far says whether the line has changed
since the token before. Only a text without tokens can have more lines than there are numbers for. -/
theorem markLines_ofLexemes (hrecover : recover.IsViable) (h : byteLength cs ≤ Span.maxOffset)
    (hls : ∀ l ∈ ls, ∃ c rest, l = Lexeme.scan c rest recover)
    (hcs : cs = before ++ ls.flatMap (·.chars)) (hle : line ≤ 1 + before.count '\n')
    (hmark : lineBreak = true ↔ line < 1 + before.count '\n') (hfits : IsAllLineFeeds cs → line = 1) :
    Token.MarkLines (.ofChars cs) cs line (ofLexemes (byteLength before) lineBreak ls).all := by
  induction ls generalizing before line lineBreak with
  | nil =>
    rw [List.flatMap_nil, List.append_nil] at hcs
    subst hcs
    exact ⟨hmark.trans (lt_line_end_iff h hfits rfl).symm, trivial⟩
  | cons l ls ih =>
    have hls' : ∀ l ∈ ls, ∃ c rest, l = Lexeme.scan c rest recover :=
      fun l hl => hls l (List.mem_cons_of_mem _ hl)
    rw [List.flatMap_cons, ← List.append_assoc] at hcs
    have hcount : (before ++ l.chars).count '\n' = before.count '\n' + l.chars.count '\n' := List.count_append
    -- a piece that is no token is added to what stands since the last token
    have hskip : Token.MarkLines (.ofChars cs) cs line (ofLexemes (byteLength before + byteLength l.chars)
        (lineBreak || l.chars.contains '\n') ls).all := by
      rw [← byteLength_append]
      refine ih hls' hcs (by omega) ?_ hfits
      rw [Bool.or_eq_true, hmark, List.contains_iff_mem, ← List.count_pos_iff, hcount]
      omega
    rw [ofLexemes]
    split
    · exact hskip
    · exact hskip
    · exact hskip
    · exact hskip
    · rename_i kind hkind
      obtain ⟨c, rest, rfl⟩ := hls l List.mem_cons_self
      have hnotMem := Lexeme.lineFeed_notMem_scan hrecover hkind
      have hnone := List.count_eq_zero.mpr hnotMem
      have hother : ¬IsAllLineFeeds cs := fun hall => by
        have hmem : c ∈ cs := by
          rw [hcs]
          simp [Lexeme.scan]
        exact hnotMem (hall.eq_of_mem hmem ▸ List.mem_cons_self)
      have hline : ∀ lineBreak text, Token.line (.ofChars cs) cs
          ⟨kind, ⟨byteLength before, byteLength before + byteLength (Lexeme.scan c rest recover).chars⟩,
            lineBreak, text⟩ = 1 + before.count '\n' := fun lineBreak text =>
        line_eq_of_ne_nil h (hcs.trans (List.append_assoc ..)) (by simp [Lexeme.scan]) rfl
      refine ⟨?_, ?_⟩
      · rw [hline]
        exact hmark
      · rw [hline, ← byteLength_append]
        exact ih hls' hcs (by omega) (iff_of_false Bool.false_ne_true (by omega)) fun hall => absurd hall hother

/-- **The mark of a line break agrees with the line index** for every token, whatever stands between it and the
token before it. -/
theorem marksLines_ofChars (hrecover : recover.IsViable) (h : byteLength cs ≤ Span.maxOffset) :
    (ofChars cs recover).MarksLines (.ofChars cs) cs := by
  intro before t after heq
  have hmarks : Token.MarkLines (.ofChars cs) cs 1 (ofLexemes (byteLength []) false (lexemes cs recover)).all :=
    markLines_ofLexemes hrecover h (fun _ hl => Lexeme.exists_scan_of_mem hl) (flatMap_chars_lexemes cs).symm
      (by simp) (by simp) fun _ => rfl
  rw [byteLength_nil, ← ofChars, heq] at hmarks
  exact ⟨⟨_, LineStarts.position?_ofChars h _⟩, hmarks.of_append⟩

/-- A string that is not closed in front of a line feed, and a comment that goes on behind another one. -/
theorem marksLines_ofChars_open_string :
    Lexeme.Recovery.standard.IsViable ∧ byteLength "'a\nb /*\n*/ c".toList ≤ Span.maxOffset ∧
      (ofChars "'a\nb /*\n*/ c".toList .standard).MarksLines (.ofChars "'a\nb /*\n*/ c".toList)
        "'a\nb /*\n*/ c".toList ∧
      (ofChars "'a\nb /*\n*/ c".toList .standard).all.map (fun t => (t.kind, t.span.start, t.afterLineBreak)) =
        [(.unknown, 0, false), (.identifier, 3, true), (.identifier, 11, true), (.endOfFile, 12, false)] :=
  ⟨Lexeme.Recovery.isViable_standard, by decide,
    marksLines_ofChars Lexeme.Recovery.isViable_standard (by decide), by decide⟩

end TokenStream

end ScriptAnalysis

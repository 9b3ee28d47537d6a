import ScriptAnalysis.Proofs.Token.Cover
import ScriptAnalysis.Proofs.Token.Patterns
import ScriptAnalysis.Proofs.Token.Spelling

/-!
# The longest match

Every token and every comment is what the longest match of a set of rules says: a rule is a language
(`Rule.pattern`) with what its texts are read as, the rules know nothing of one another, and `classify` takes
what no rule could take more of. A text that begins with no rule's words begins with an unknown token. Only a
block comment does not end with its rule, which is no more than the opening delimiter.
-/

namespace ScriptAnalysis

open Text

namespace Lexeme

/-! ### Rules -/

/-- What a piece of text that is not layout is read as. -/
inductive Item where
  /-- A token. -/
  | token (kind : TokenKind)
  /-- A comment. -/
  | comment (kind : CommentKind)

/-- The rules by which a text is cut. -/
inductive Rule where
  /-- Two slashes and the rest of the line. -/
  | lineComment
  /-- What opens a block comment. -/
  | blockComment
  /-- The one spelling of a kind, if it has one. -/
  | fixed (kind : TokenKind)
  /-- A number in base sixteen. -/
  | hexNumber
  /-- A number in base ten. -/
  | decimalNumber
  /-- A string between double quotes. -/
  | doubleQuoted
  /-- A string between single quotes. -/
  | singleQuoted
  /-- A name. -/
  | name

/-- What a piece of the class is read as. -/
def item? : LexemeClass → Option Item
  | .layout => none
  | .lineComment => some (.comment .line)
  | .blockComment _ => some (.comment .block)
  | .token kind => some (.token kind)

namespace Rule

/-- The texts of a rule. -/
def pattern : Rule → Language Char
  | lineComment => Pattern.lineComment
  | blockComment => {['/', '*']}
  | fixed kind => {w | kind.spelling? = some (String.ofList w)}
  | hexNumber => Pattern.hexNumber
  | decimalNumber => Pattern.decimalNumber
  | doubleQuoted => Pattern.string '"'
  | singleQuoted => Pattern.string '\''
  | name => Pattern.name

/-- What the texts of a rule are read as. -/
def item : Rule → Item
  | lineComment => .comment .line
  | blockComment => .comment .block
  | fixed kind => .token kind
  | hexNumber | decimalNumber => .token .numericLiteral
  | doubleQuoted | singleQuoted => .token .stringLiteral
  | name => .token .identifier

/-- The texts of all rules that are not empty. -/
def any : Language Char := {w | w ≠ [] ∧ ∃ r : Rule, w ∈ r.pattern}

end Rule

/-- A block comment whose opening delimiter stands before `cs` runs through the first closing one in it, or to
the end of `cs` if there is none. -/
def RunsToClose (cs body : List Char) : Prop :=
  (∃ before, body = before ++ ['*', '/'] ∧ body <+: cs ∧ ¬ ['*', '/'] <:+: before ++ ['*']) ∨
    body = cs ∧ ¬ ['*', '/'] <:+: cs

/-- What an item takes of a text whose longest match is `w`. -/
def Item.Takes (cs w extent : List Char) : Item → Prop
  | .comment .block =>
    ∃ rest body, cs = '/' :: '*' :: rest ∧ extent = '/' :: '*' :: body ∧ RunsToClose rest body
  | _ => extent = w

/-- The item is the one of the longest match at the head of the text. -/
structure Item.Wins (cs : List Char) (item : Item) (w : List Char) : Prop where
  longest : Pattern.IsLongest Rule.any cs w
  /-- One of the rules with the match says what is read. -/
  rule : ∃ r : Rule, w ∈ r.pattern ∧ r.item = item
  /-- A kind that is spelled so comes before all other rules. -/
  fixed : ∀ kind, w ∈ (Rule.fixed kind).pattern → item = .token kind

/-- The item and the characters that it takes are the longest match at the head of the text. -/
structure Item.IsLongestMatch (cs : List Char) (item : Item) (extent : List Char) : Prop where
  /-- What begins with no rule's words is unknown. -/
  unknown_iff : item = .token .unknown ↔ Pattern.Misses Rule.any cs
  /-- Otherwise there is a longest match, and the item is its. -/
  wins : ¬ Pattern.Misses Rule.any cs → ∃ w, item.Wins cs w ∧ item.Takes cs w extent

/-! ### Which rules a text can begin with -/

namespace Rule

variable {w v : List Char} {kind : TokenKind} {c : Char} {cs : List Char}

theorem mem_fixed_iff : w ∈ (fixed kind).pattern ↔
    w = kind.chars ∧ (kind ∈ TokenKind.reservedWords ∨ kind ∈ TokenKind.punctuators) := by
  have hspelled : w ∈ (fixed kind).pattern ↔ kind.spelling? = some (String.ofList w) := Iff.rfl
  have hkinds := TokenKind.isSome_spelling?_iff kind
  rw [TokenKind.isReservedWord, TokenKind.isPunctuator, List.contains_iff_mem, List.contains_iff_mem] at hkinds
  rw [hspelled, ← hkinds, TokenKind.chars]
  cases kind.spelling? with
  | none => simp
  | some text =>
    simp only [Option.some.injEq, Option.getD_some, Option.isSome_some, and_true]
    exact ⟨fun h => by rw [h, String.toList_ofList], fun h => by rw [h, String.ofList_toList]⟩

/-- Punctuators begin with no letter, no digit and no quote. -/
theorem head_of_mem_punctuators (hkind : kind ∈ TokenKind.punctuators) (h : kind.chars = c :: w) :
    isNameStart c = false ∧ c.isDigit = false ∧ ¬ (c = '"' ∨ c = '\'') := by
  have hall : ∀ kind ∈ TokenKind.punctuators, kind.chars.head?.all (fun c =>
      !isNameStart c && !c.isDigit && !(c == '"' || c == '\'')) = true := by decide
  have hc := hall kind hkind
  rw [h] at hc
  simpa [and_assoc] using hc

theorem mem_name_of_mem_reservedWords (hkind : kind ∈ TokenKind.reservedWords) : kind.chars ∈ Pattern.name := by
  obtain ⟨⟨c, cs, hchars, hstart, hpart⟩, -⟩ := Word.isName_spelling hkind
  rw [TokenKind.chars, hchars, Pattern.name, Pattern.namePart_eq, Pattern.nameStart_eq]
  exact Pattern.cons_mem_oneOf_mul.mpr
    ⟨hstart, Pattern.mem_star_oneOf.mpr fun c hc => List.all_eq_true.mp hpart c hc⟩

/-- The spellings of the punctuators. -/
def punctuation : Language Char := {w | ∃ kind ∈ TokenKind.punctuators, w = kind.chars}

/-- The words that a text can begin with whose first character is `c`. -/
def anyFrom (c : Char) : Language Char :=
  if isNameStart c then Pattern.name
  else if c.isDigit then Pattern.hexNumber + Pattern.decimalNumber
  else if c = '"' ∨ c = '\'' then Pattern.string c
  else punctuation + (Pattern.lineComment + {['/', '*']})

theorem anyFrom_of_isNameStart (hc : isNameStart c = true) : anyFrom c = Pattern.name := if_pos hc

theorem anyFrom_of_isDigit (hc : c.isDigit = true) :
    anyFrom c = Pattern.hexNumber + Pattern.decimalNumber := by
  rw [anyFrom, Word.isNameStart_of_isDigit hc, if_neg Bool.false_ne_true, if_pos hc]

theorem anyFrom_of_quote (hc : c = '"' ∨ c = '\'') : anyFrom c = Pattern.string c := by
  rcases hc with rfl | rfl <;> rfl

theorem anyFrom_of_not (hname : ¬ isNameStart c = true) (hdigit : ¬ c.isDigit = true)
    (hquote : ¬ (c = '"' ∨ c = '\'')) :
    anyFrom c = punctuation + (Pattern.lineComment + {['/', '*']}) := by
  rw [anyFrom, if_neg hname, if_neg hdigit, if_neg hquote]

theorem anyFrom_of_isOther (h : IsOther c cs) :
    anyFrom c = punctuation + (Pattern.lineComment + {['/', '*']}) :=
  anyFrom_of_not h.not_name h.not_digit h.not_quote

theorem head_of_mem_name (h : c :: w ∈ Pattern.name) : isNameStart c = true := by
  rw [Pattern.name, Pattern.nameStart_eq] at h
  exact (Pattern.cons_mem_oneOf_mul.mp h).1

theorem head_of_mem_decimalNumber (h : c :: w ∈ Pattern.decimalNumber) : c.isDigit = true := by
  rw [Pattern.decimalNumber, Pattern.digit_eq, Pattern.several, mul_assoc, mul_assoc] at h
  exact (Pattern.cons_mem_oneOf_mul.mp h).1

/-- The first character of a word decides which rules it can be of. -/
theorem cons_mem_anyFrom (h : c :: w ∈ any) : c :: w ∈ anyFrom c := by
  obtain ⟨-, r, hr⟩ := h
  cases r with
  | lineComment =>
    obtain ⟨rfl, -⟩ := Pattern.cons_mem_oneOf_mul.mp hr
    rw [anyFrom_of_not (by decide) (by decide) (by decide)]
    exact .inr (.inl hr)
  | blockComment =>
    obtain ⟨rfl, -⟩ := List.cons.inj (show c :: w = ['/', '*'] from hr)
    rw [anyFrom_of_not (by decide) (by decide) (by decide)]
    exact .inr (.inr hr)
  | fixed kind =>
    obtain ⟨hchars, hkind | hkind⟩ := mem_fixed_iff.mp hr
    · have hname := hchars ▸ mem_name_of_mem_reservedWords hkind
      rwa [anyFrom_of_isNameStart (head_of_mem_name hname)]
    · obtain ⟨hname, hdigit, hquote⟩ := head_of_mem_punctuators hkind hchars.symm
      rw [anyFrom_of_not (Bool.eq_false_iff.mp hname) (Bool.eq_false_iff.mp hdigit) hquote]
      exact .inl ⟨kind, hkind, hchars⟩
  | hexNumber =>
    obtain ⟨rfl, -⟩ := Pattern.cons_mem_oneOf_mul.mp hr
    rw [anyFrom_of_isDigit (by decide)]
    exact .inl hr
  | decimalNumber =>
    rw [anyFrom_of_isDigit (head_of_mem_decimalNumber hr)]
    exact .inr hr
  | doubleQuoted =>
    obtain ⟨rfl, -⟩ := Pattern.cons_mem_oneOf_mul.mp hr
    rw [anyFrom_of_quote (.inl rfl)]
    exact hr
  | singleQuoted =>
    obtain ⟨rfl, -⟩ := Pattern.cons_mem_oneOf_mul.mp hr
    rw [anyFrom_of_quote (.inr rfl)]
    exact hr
  | name => rwa [anyFrom_of_isNameStart (head_of_mem_name hr)]

theorem anyFrom_slash : anyFrom '/' = punctuation + (Pattern.lineComment + {['/', '*']}) :=
  anyFrom_of_not (by decide) (by decide) (by decide)

/-- A single slash is the only punctuator that begins with one. -/
theorem eq_slash_of_mem_punctuation (hv : v ∈ punctuation) (hpre : v <+: '/' :: cs) : v = ['/'] := by
  have hall : ∀ kind ∈ TokenKind.punctuators, kind.chars.head? = some '/' → kind.chars = ['/'] := by decide
  have hne : ∀ kind ∈ TokenKind.punctuators, kind.chars ≠ [] := by decide
  obtain ⟨kind, hkind, rfl⟩ := hv
  obtain ⟨d, t, hchars⟩ := List.exists_cons_of_ne_nil (hne kind hkind)
  rw [hchars, List.cons_prefix_cons] at hpre
  exact hall kind hkind (by rw [hchars, hpre.1]; rfl)

theorem slash_notMem_fixed (kind : TokenKind) : '/' :: c :: w ∉ (fixed kind).pattern := by
  intro hmem
  obtain ⟨hchars, hkind | hkind⟩ := mem_fixed_iff.mp hmem
  · exact absurd (head_of_mem_name (hchars ▸ mem_name_of_mem_reservedWords hkind)) (by decide)
  · have hslash := eq_slash_of_mem_punctuation ⟨kind, hkind, hchars⟩ List.prefix_rfl
    cases hslash

theorem mem_anyFrom (h : v ∈ any) (hpre : v <+: c :: cs) : v ∈ anyFrom c := by
  obtain ⟨d, w, rfl⟩ := List.exists_cons_of_ne_nil h.1
  exact (List.cons_prefix_cons.mp hpre).1 ▸ cons_mem_anyFrom h

theorem misses_any (h : Pattern.Misses (anyFrom c) (c :: cs)) : Pattern.Misses any (c :: cs) :=
  fun v hv hpre => h v (mem_anyFrom hv hpre) hpre

theorem isLongest_any (h : Pattern.IsLongest (anyFrom c) (c :: cs) (c :: w)) {r : Rule}
    (hr : c :: w ∈ r.pattern) : Pattern.IsLongest any (c :: cs) (c :: w) :=
  ⟨⟨List.cons_ne_nil c w, r, hr⟩, h.isPrefix, fun v hv hpre => h.longest v (mem_anyFrom hv hpre) hpre⟩

end Rule

/-! ### One piece -/

namespace Item

variable {c : Char} {cs w extent : List Char} {item : Item}

/-- No rule reads its texts as unknown. -/
theorem Wins.ne_unknown (h : item.Wins cs w) : item ≠ .token .unknown := by
  rintro rfl
  obtain ⟨r, hr, hitem⟩ := h.rule
  cases r with
  | fixed kind =>
    cases hitem
    exact absurd (Rule.mem_fixed_iff.mp hr).2 (by decide)
  | _ => cases hitem

theorem Wins.isLongestMatch (h : item.Wins cs w) (htakes : item.Takes cs w extent) :
    item.IsLongestMatch cs extent :=
  ⟨⟨fun hitem => absurd hitem h.ne_unknown, fun hmiss => absurd h.longest.isPrefix (hmiss w h.longest.mem)⟩,
    fun _ => ⟨w, h, htakes⟩⟩

theorem isLongestMatch_unknown (h : Pattern.Misses Rule.any cs) :
    (Item.token .unknown).IsLongestMatch cs extent :=
  ⟨⟨fun _ => h, fun _ => rfl⟩, fun hnot => absurd h hnot⟩

theorem wins_name (hc : isNameStart c = true) (cs : List Char) :
    (Item.token ((TokenKind.reservedWord? (c :: cs.takeWhile isNamePart)).getD .identifier)).Wins (c :: cs)
      (c :: cs.takeWhile isNamePart) := by
  have hlongest := Pattern.isLongest_name hc cs
  have hrule : c :: cs.takeWhile isNamePart ∈ Rule.name.pattern := hlongest.mem
  refine ⟨Rule.isLongest_any (by rwa [Rule.anyFrom_of_isNameStart hc]) hrule, ?_, fun kind hkind => ?_⟩
  · cases hword : TokenKind.reservedWord? (c :: cs.takeWhile isNamePart) with
    | none => exact ⟨.name, hrule, rfl⟩
    | some kind =>
      have hchars : kind.chars = c :: cs.takeWhile isNamePart := by simpa using List.find?_some hword
      exact ⟨.fixed kind, Rule.mem_fixed_iff.mpr ⟨hchars.symm, .inl (List.mem_of_find?_eq_some hword)⟩, rfl⟩
  · obtain ⟨hchars, hkind | hkind⟩ := Rule.mem_fixed_iff.mp hkind
    · rw [hchars]
      exact congrArg (fun word : Word => Item.token word.kind) (Word.isName_spelling hkind).2
    · exact absurd hc (Bool.eq_false_iff.mp (Rule.head_of_mem_punctuators hkind hchars.symm).1)

/-- What begins like a number or a string is not spelled like a kind. -/
theorem notMem_fixed (hname : ¬ isNameStart c = true) (h : c.isDigit = true ∨ c = '"' ∨ c = '\'')
    (kind : TokenKind) : c :: w ∉ (Rule.fixed kind).pattern := by
  intro hmem
  obtain ⟨hchars, hkind | hkind⟩ := Rule.mem_fixed_iff.mp hmem
  · exact hname (Rule.head_of_mem_name (hchars ▸ Rule.mem_name_of_mem_reservedWords hkind))
  · obtain ⟨-, hdigit, hquote⟩ := Rule.head_of_mem_punctuators hkind hchars.symm
    exact h.elim (Bool.eq_false_iff.mp hdigit) hquote

theorem wins_number (hc : c.isDigit = true) (cs : List Char) :
    (Item.token .numericLiteral).Wins (c :: cs) (c :: (number (c :: cs)).tail) := by
  have hlongest := Pattern.isLongest_number hc cs
  rw [Pattern.number_cons hc cs] at hlongest
  have hrule : ∃ r : Rule, c :: (number (c :: cs)).tail ∈ r.pattern ∧ r.item = .token .numericLiteral :=
    hlongest.mem.elim (fun h => ⟨.hexNumber, h, rfl⟩) fun h => ⟨.decimalNumber, h, rfl⟩
  obtain ⟨r, hr, -⟩ := id hrule
  refine ⟨Rule.isLongest_any (by rwa [Rule.anyFrom_of_isDigit hc]) hr, hrule, fun kind hkind => ?_⟩
  exact absurd hkind (notMem_fixed (Bool.eq_false_iff.mp (Word.isNameStart_of_isDigit hc)) (.inl hc) kind)

theorem wins_string (hc : c = '"' ∨ c = '\'') (h : (stringBody c cs).2 = true) :
    (Item.token .stringLiteral).Wins (c :: cs) (c :: (stringBody c cs).1) := by
  have hlongest := Pattern.isLongest_string (by rcases hc with rfl | rfl <;> decide) h
  have hrule : ∃ r : Rule, c :: (stringBody c cs).1 ∈ r.pattern ∧ r.item = .token .stringLiteral := by
    rcases hc with rfl | rfl
    · exact ⟨.doubleQuoted, hlongest.mem, rfl⟩
    · exact ⟨.singleQuoted, hlongest.mem, rfl⟩
  obtain ⟨r, hr, -⟩ := id hrule
  refine ⟨Rule.isLongest_any (by rwa [Rule.anyFrom_of_quote hc]) hr, hrule, fun kind hkind => ?_⟩
  refine absurd hkind (notMem_fixed ?_ (.inr hc) kind)
  rcases hc with rfl | rfl <;> decide

theorem wins_lineComment (cs : List Char) :
    (Item.comment .line).Wins ('/' :: '/' :: cs) ('/' :: '/' :: cs.takeWhile (· ≠ '\n')) := by
  have hlongest := Pattern.isLongest_lineComment cs
  have hrule : '/' :: '/' :: cs.takeWhile (· ≠ '\n') ∈ Rule.lineComment.pattern := hlongest.mem
  refine ⟨Rule.isLongest_any ?_ hrule, ⟨_, hrule, rfl⟩,
    fun kind hkind => absurd hkind (Rule.slash_notMem_fixed kind)⟩
  rw [Rule.anyFrom_slash, add_comm]
  refine (hlongest.add_of_misses (Pattern.misses_singleton (by simp))).add fun v hv hpre => ?_
  rw [Rule.eq_slash_of_mem_punctuation hv hpre]
  exact Nat.succ_le_succ (Nat.zero_le _)

theorem wins_blockComment (cs : List Char) : (Item.comment .block).Wins ('/' :: '*' :: cs) ['/', '*'] := by
  have hlongest : Pattern.IsLongest {['/', '*']} ('/' :: '*' :: cs) ['/', '*'] :=
    Pattern.isLongest_singleton (by simp)
  have hrule : ['/', '*'] ∈ Rule.blockComment.pattern := hlongest.mem
  refine ⟨Rule.isLongest_any ?_ hrule, ⟨_, hrule, rfl⟩,
    fun kind hkind => absurd hkind (Rule.slash_notMem_fixed kind)⟩
  rw [Rule.anyFrom_slash, add_comm, add_comm Pattern.lineComment]
  have hline : Pattern.Misses Pattern.lineComment ('/' :: '*' :: cs) :=
    Pattern.misses_cons fun _ => Pattern.misses_cons fun h => absurd h (by decide)
  refine (hlongest.add_of_misses hline).add fun v hv hpre => ?_
  rw [Rule.eq_slash_of_mem_punctuation hv hpre]
  exact Nat.succ_le_succ (Nat.zero_le _)

theorem misses_comments (h : IsOther c cs) :
    Pattern.Misses (Pattern.lineComment + {['/', '*']}) (c :: cs) := by
  rintro v (hv | rfl) ⟨t, ht⟩
  · obtain ⟨_, u, rfl, rfl, hu⟩ := Pattern.mem_oneOf_mul.mp hv
    obtain ⟨_, u, rfl, rfl, -⟩ := Pattern.mem_oneOf_mul.mp hu
    exact h.not_line _ ht.symm
  · exact h.not_block _ ht.symm

/-- The punctuator that is found is the longest that fits. -/
theorem isLongest_punctuator {kind : TokenKind} (h : TokenKind.punctuator? cs = some kind) :
    Pattern.IsLongest Rule.punctuation cs kind.chars := by
  refine ⟨⟨kind, List.mem_of_find?_eq_some h, rfl⟩, isPrefix_punctuator? h, ?_⟩
  have hsorted : TokenKind.punctuators.Pairwise fun a b => b.chars.length ≤ a.chars.length := by decide
  obtain ⟨-, before, after, heq, hbefore⟩ := List.find?_eq_some_iff_append.mp h
  rw [heq, List.pairwise_append, List.pairwise_cons] at hsorted
  rintro _ ⟨other, hmem, rfl⟩ hpre
  rw [heq] at hmem
  rcases List.mem_append.mp hmem with hmem | hmem
  · have hnot := hbefore other hmem
    rw [List.isPrefixOf_iff_prefix.mpr hpre] at hnot
    exact absurd hnot (by decide)
  · rcases List.mem_cons.mp hmem with rfl | hmem
    · exact Nat.le_refl _
    · exact hsorted.2.1.1 other hmem

theorem misses_punctuation (h : TokenKind.punctuator? cs = none) : Pattern.Misses Rule.punctuation cs := by
  rintro _ ⟨kind, hkind, rfl⟩ hpre
  exact List.find?_eq_none.mp h kind hkind (List.isPrefixOf_iff_prefix.mpr hpre)

theorem wins_punctuator {kind : TokenKind} (hother : IsOther c cs)
    (h : TokenKind.punctuator? (c :: cs) = some kind) :
    (Item.token kind).Wins (c :: cs) (c :: kind.chars.tail) := by
  have hlongest := isLongest_punctuator h
  have hkind : kind ∈ TokenKind.punctuators := List.mem_of_find?_eq_some h
  have hchars : kind.chars = c :: kind.chars.tail := by
    refine ((TokenKind.canBe_of_punctuator? h).2 ?_).symm
    exact (TokenKind.isSome_spelling?_iff kind).mpr (.inr (List.contains_iff_mem.mpr hkind))
  have hrule : c :: kind.chars.tail ∈ (Rule.fixed kind).pattern :=
    Rule.mem_fixed_iff.mpr ⟨hchars.symm, .inr hkind⟩
  rw [hchars] at hlongest
  refine ⟨Rule.isLongest_any ?_ hrule, ⟨_, hrule, rfl⟩, fun other hmem => ?_⟩
  · rw [Rule.anyFrom_of_isOther hother]
    exact hlongest.add_of_misses (misses_comments hother)
  · obtain ⟨hsame, hword | hmark⟩ := Rule.mem_fixed_iff.mp hmem
    · exact absurd (Rule.head_of_mem_name (hsame ▸ Rule.mem_name_of_mem_reservedWords hword)) hother.not_name
    · have hnodup : (TokenKind.punctuators.map TokenKind.chars).Nodup := by decide
      rw [List.inj_on_of_nodup_map hnodup hkind hmark (hchars.trans hsame)]

theorem runsToClose_cons {body : List Char} (h : RunsToClose cs body) (hopen : ¬ ['*', '/'] <+: c :: cs) :
    RunsToClose (c :: cs) (c :: body) := by
  have hinfix : ∀ {l : List Char}, l <+: cs → ¬ ['*', '/'] <:+: l → ¬ ['*', '/'] <:+: c :: l := by
    intro l hpre hl h
    rcases List.infix_cons_iff.mp h with h | h
    · exact hopen (h.trans (List.cons_prefix_cons.mpr ⟨rfl, hpre⟩))
    · exact hl h
  rcases h with ⟨before, rfl, hpre, hbefore⟩ | ⟨rfl, hnone⟩
  · have hpre' : before ++ ['*'] <+: cs := by
      refine List.IsPrefix.trans ⟨['/'], ?_⟩ hpre
      rw [List.append_assoc]
      rfl
    exact .inl ⟨c :: before, rfl, List.cons_prefix_cons.mpr ⟨rfl, hpre⟩, hinfix hpre' hbefore⟩
  · exact .inr ⟨rfl, hinfix List.prefix_rfl hnone⟩

/-- A block comment runs through the first closing delimiter. -/
theorem runsToClose_blockBody (cs : List Char) : RunsToClose cs (blockBody cs).1 := by
  fun_induction blockBody cs with
  | case1 => exact .inr ⟨rfl, by simp⟩
  | case2 rest => exact .inl ⟨[], rfl, ⟨rest, rfl⟩, by decide⟩
  | case3 c cs hopen body ih =>
    refine runsToClose_cons ih ?_
    rintro ⟨rest, heq⟩
    obtain ⟨rfl, rfl⟩ := List.cons.inj heq
    exact hopen rest rfl rfl

/-- **The piece at the head of a text is the longest match there**, unless it is layout. -/
theorem isLongestMatch_cuts {recover : Recovery} {cls : LexemeClass} {tail : List Char} {item : Item}
    (h : Cuts recover c cs cls tail) (hitem : item? cls = some item) :
    item.IsLongestMatch (c :: cs) (c :: tail) := by
  cases h with
  | layout => cases hitem
  | name hname =>
    cases hitem
    exact (wins_name hname cs).isLongestMatch rfl
  | number hdigit =>
    cases hitem
    exact (wins_number hdigit cs).isLongestMatch rfl
  | string hquote hclosed =>
    cases hitem
    exact (wins_string hquote hclosed).isLongestMatch rfl
  | openString hquote hopen =>
    cases hitem
    refine isLongestMatch_unknown (Rule.misses_any ?_)
    rw [Rule.anyFrom_of_quote hquote]
    exact Pattern.misses_string (by rcases hquote with rfl | rfl <;> decide) hopen
  | lineComment hslash =>
    subst hslash
    cases hitem
    exact (wins_lineComment _).isLongestMatch rfl
  | blockComment hslash =>
    subst hslash
    cases hitem
    exact (wins_blockComment _).isLongestMatch ⟨_, _, rfl, rfl, runsToClose_blockBody _⟩
  | punctuator hother hkind =>
    cases hitem
    exact (wins_punctuator hother hkind).isLongestMatch rfl
  | unknown hother hnone =>
    cases hitem
    refine isLongestMatch_unknown (Rule.misses_any ?_)
    rw [Rule.anyFrom_of_isOther hother]
    exact (misses_punctuation hnone).add (misses_comments hother)

end Item

/-! ### The pieces of a text -/

/-- Behind any piece the pieces are those of the text that is left. -/
theorem lexemes_of_append {cs : List Char} {pre post : List Lexeme} (h : lexemes cs = pre ++ post) :
    post = lexemes (post.flatMap (·.chars)) := by
  induction pre generalizing cs with
  | nil => rw [List.nil_append] at h; rw [← h, flatMap_chars_lexemes]
  | cons l pre ih =>
    cases cs with
    | nil => cases h
    | cons c cs =>
      rw [lexemes_cons] at h
      exact ih (List.cons.inj h).2

/-- A piece is read at the head of its characters and those of the pieces behind it. -/
theorem exists_scan_of_append {cs : List Char} {pre post : List Lexeme} {l : Lexeme}
    (h : lexemes cs = pre ++ l :: post) :
    ∃ c rest, l = scan c rest ∧ l.chars ++ post.flatMap (·.chars) = c :: rest := by
  have hpieces := lexemes_of_append h
  rw [List.flatMap_cons] at hpieces
  cases hchars : l.chars ++ post.flatMap (·.chars) with
  | nil =>
    rw [hchars] at hpieces
    cases hpieces
  | cons c rest =>
    rw [hchars, lexemes_cons] at hpieces
    exact ⟨c, rest, (List.cons.inj hpieces).1, rfl⟩

/-- Among the pieces, the first of them at the offset, is one that is read as the item and stands there. -/
def Holds (offset : Nat) (ls : List Lexeme) (x : Item × Span) : Prop :=
  ∃ pre l post, ls = pre ++ l :: post ∧ item? l.cls = some x.1 ∧
    x.2 = ⟨offset + byteLength (pre.flatMap (·.chars)),
      offset + byteLength (pre.flatMap (·.chars)) + byteLength l.chars⟩

variable {offset : Nat} {l : Lexeme} {ls : List Lexeme}

theorem holds_head {item : Item} (h : item? l.cls = some item) :
    Holds offset (l :: ls) (item, ⟨offset, offset + byteLength l.chars⟩) :=
  ⟨[], l, ls, rfl, h, rfl⟩

theorem Holds.cons {x : Item × Span} (h : Holds (offset + byteLength l.chars) ls x) :
    Holds offset (l :: ls) x := by
  obtain ⟨pre, l', post, rfl, hitem, hspan⟩ := h
  refine ⟨l :: pre, l', post, rfl, hitem, ?_⟩
  rw [hspan, List.flatMap_cons, byteLength_append, Nat.add_assoc]

end Lexeme

namespace TokenStream

/-- The tokens before the end of the text, and the comments, each with its place. -/
def items (stream : TokenStream) : List (Lexeme.Item × Span) :=
  stream.tokens.map (fun t => (.token t.kind, t.span)) ++ stream.comments.map fun c => (.comment c.kind, c.span)

theorem mem_items_consToken {stream : TokenStream} {t : Token} {x : Lexeme.Item × Span} :
    x ∈ (stream.consToken t).items ↔ x = (.token t.kind, t.span) ∨ x ∈ stream.items :=
  List.mem_cons

theorem mem_items_consComment {stream : TokenStream} {c : Comment} {x : Lexeme.Item × Span} :
    x ∈ (stream.consComment c).items ↔ x = (.comment c.kind, c.span) ∨ x ∈ stream.items := by
  simp only [items, consComment, List.map_cons, List.mem_append, List.mem_cons]
  exact or_left_comm

/-- Every token and every comment is a piece that is not layout, where it stands. -/
theorem holds_of_mem_items {x : Lexeme.Item × Span} {offset : Nat} {lineBreak : Bool} {ls : List Lexeme}
    (hx : x ∈ (ofLexemes offset lineBreak ls).items) : Lexeme.Holds offset ls x := by
  induction ls generalizing offset lineBreak with
  | nil => cases hx
  | cons l ls ih =>
    have hlater : ∀ {lineBreak}, x ∈ (ofLexemes (offset + byteLength l.chars) lineBreak ls).items →
        Lexeme.Holds offset (l :: ls) x := fun hx => (ih hx).cons
    have hhere : ∀ {item}, Lexeme.item? l.cls = some item →
        x = (item, ⟨offset, offset + byteLength l.chars⟩) → Lexeme.Holds offset (l :: ls) x :=
      fun hitem hx => hx ▸ Lexeme.holds_head hitem
    rw [ofLexemes] at hx
    split at hx
    · exact hlater hx
    · rename_i hcls
      exact (mem_items_consComment.mp hx).elim (hhere (by rw [hcls]; rfl)) hlater
    · rename_i hcls
      exact (mem_items_consComment.mp hx).elim (hhere (by rw [hcls]; rfl)) hlater
    · rename_i hcls
      exact (mem_items_consComment.mp hx).elim (hhere (by rw [hcls]; rfl)) hlater
    · rename_i hcls
      exact (mem_items_consToken.mp hx).elim (hhere (by rw [hcls]; rfl)) hlater

/-- The tokens and comments of the text are the longest matches where they stand. -/
structure MatchesLongest (stream : TokenStream) (cs : List Char) : Prop where
  /-- A token or comment takes the characters between its offsets, as the longest match there. -/
  items : ∀ item span, (item, span) ∈ stream.items → ∃ before extent after, cs = before ++ (extent ++ after) ∧
    span = ⟨byteLength before, byteLength before + byteLength extent⟩ ∧
      item.IsLongestMatch (extent ++ after) extent
  /-- The end of the text is the one token that is read where nothing is left. -/
  ending : ∃ last, stream.all = stream.tokens ++ [last] ∧ last.kind = .endOfFile ∧
    last.span = .point (byteLength cs)

/-- **A text is cut at its longest matches**: where a token or comment begins, no rule has a longer word, and
where no rule has a word an unknown token begins. -/
theorem matchesLongest_ofChars (cs : List Char) : (ofChars cs).MatchesLongest cs := by
  refine ⟨fun item span hmem => ?_, _, rfl, kind_ending_ofChars cs, span_ending_ofChars cs⟩
  obtain ⟨pre, l, post, hls, hitem, hspan⟩ := holds_of_mem_items hmem
  obtain ⟨c, rest, rfl, hchars⟩ := Lexeme.exists_scan_of_append hls
  rw [Nat.zero_add] at hspan
  refine ⟨pre.flatMap (·.chars), (Lexeme.scan c rest).chars, post.flatMap (·.chars), ?_, hspan, ?_⟩
  · rw [← flatMap_chars_lexemes cs, hls, List.flatMap_append, List.flatMap_cons]
  · rw [hchars]
    exact Lexeme.Item.isLongestMatch_cuts (Lexeme.cuts_classify c rest) hitem

end TokenStream

end ScriptAnalysis

import Mathlib.Logic.Basic
import ScriptAnalysis.Proofs.Token.LongestMatch

/-!
# Where comments begin and end

A line comment is two slashes and the rest of their line. A block comment runs from its opening delimiter
through the first closing one behind it; if there is none it is open and takes everything that is left, so it
is the last piece of the text and the one error that reading tokens can find. What `Comment.body` leaves of
the characters of a comment is what stands between the delimiters that are there
(`TokenStream.delimits_ofChars`), also where delimiters seem to overlap.
-/

namespace ScriptAnalysis

open Text

/-! ### Delimiters -/

namespace Comment

variable {p cs : List Char}

theorem withoutStart_append (p cs : List Char) : withoutStart p (p ++ cs) = cs := by
  rw [withoutStart, if_pos (List.isPrefixOf_iff_prefix.mpr (List.prefix_append p cs)), List.drop_left]

theorem withoutEnd_append (p cs : List Char) : withoutEnd p (cs ++ p) = cs := by
  rw [withoutEnd, if_pos (List.isSuffixOf_iff_suffix.mpr (List.suffix_append cs p)), List.length_append,
    Nat.add_sub_cancel, List.take_left]

theorem withoutEnd_of_not_suffix (h : ¬ p <:+ cs) : withoutEnd p cs = cs := by
  rw [withoutEnd, if_neg fun hp => h (List.isSuffixOf_iff_suffix.mp hp)]

end Comment

namespace Lexeme

variable {c : Char} {cs rest tail : List Char}

/-- A block comment is closed just in case its characters end with the closing delimiter. -/
theorem closed_iff_suffix (cs : List Char) : (blockBody cs).2 = true ↔ ['*', '/'] <:+ (blockBody cs).1 := by
  fun_induction blockBody cs with
  | case1 => simp
  | case2 => simp
  | case3 c cs hopen body ih =>
    refine ih.trans ⟨fun h => h.trans (List.suffix_cons ..), fun h => ?_⟩
    rcases List.suffix_cons_iff.mp h with heq | h
    -- a delimiter that begins with `c` would have been seen there
    · obtain ⟨rfl, hslash⟩ := List.cons.inj heq
      obtain ⟨rest, hrest⟩ := isPrefix_blockBody cs
      exact absurd hrest.symm (hslash ▸ hopen rest rfl)
    · exact h

/-- A closed block comment runs through the first closing delimiter. -/
theorem blockBody_closed (h : (blockBody cs).2 = true) :
    ∃ body, (blockBody cs).1 = body ++ ['*', '/'] ∧ ¬ ['*', '/'] <:+: body ++ ['*'] := by
  rcases Item.runsToClose_blockBody cs with ⟨body, heq, -, hfirst⟩ | ⟨heq, hnone⟩
  · exact ⟨body, heq, hfirst⟩
  · have hsuffix := (closed_iff_suffix cs).mp h
    rw [heq] at hsuffix
    exact absurd hsuffix.isInfix hnone

/-- An open block comment takes the whole text, which has no closing delimiter. -/
theorem blockBody_open (h : (blockBody cs).2 = false) : (blockBody cs).1 = cs ∧ ¬ ['*', '/'] <:+: cs := by
  rcases Item.runsToClose_blockBody cs with ⟨body, heq, -, -⟩ | hrest
  · have hclosed := (closed_iff_suffix cs).mpr (heq ▸ List.suffix_append body ['*', '/'])
    exact absurd (h.symm.trans hclosed) Bool.false_ne_true
  · exact hrest

/-! ### The pieces that are comments -/

/-- The characters of a line comment, and what follows it. -/
theorem lineComment_scan (h : (scan c rest).cls = .lineComment) (hrest : (scan c rest).chars ++ tail = c :: rest) :
    ∃ body, (scan c rest).chars = '/' :: '/' :: body ∧ '\n' ∉ body ∧ (tail = [] ∨ ∃ after, tail = '\n' :: after) := by
  have hcut : Cuts .standard c rest _ _ := cuts_classify c rest
  have hchars : (scan c rest).chars = c :: (classify c rest).2 := rfl
  rw [hchars] at hrest ⊢
  rw [show (classify c rest).1 = .lineComment from h] at hcut
  generalize (classify c rest).2 = taken at hcut hrest
  cases hcut with
  | lineComment hslash =>
    rename_i rest
    subst hslash
    refine ⟨_, rfl, fun hmem => by simpa using List.mem_takeWhile_imp hmem, ?_⟩
    rw [List.cons_append, List.cons_append, List.cons.injEq, List.cons.injEq] at hrest
    obtain ⟨-, -, hsplit⟩ := hrest
    obtain rfl : tail = rest.dropWhile (· ≠ '\n') :=
      List.append_cancel_left (hsplit.trans List.takeWhile_append_dropWhile.symm)
    cases hdrop : rest.dropWhile (· ≠ '\n') with
    | nil => exact .inl rfl
    | cons d after =>
      have hd := List.head_dropWhile_not (· ≠ '\n') (l := rest) (by rw [hdrop]; exact List.cons_ne_nil _ _)
      simp only [hdrop, List.head_cons] at hd
      exact .inr ⟨after, by simpa using hd⟩

theorem blockComment_scan {closed : Bool} (h : (scan c rest).cls = .blockComment closed) :
    ∃ inside, c :: rest = '/' :: '*' :: inside ∧ (scan c rest).chars = '/' :: '*' :: (blockBody inside).1 ∧
      (blockBody inside).2 = closed := by
  have hcut : Cuts .standard c rest _ _ := cuts_classify c rest
  have hchars : (scan c rest).chars = c :: (classify c rest).2 := rfl
  rw [hchars]
  rw [show (classify c rest).1 = .blockComment closed from h] at hcut
  generalize (classify c rest).2 = taken at hcut
  cases hcut with
  | blockComment hslash => exact ⟨_, by rw [hslash], by rw [hslash], rfl⟩

/-- An open block comment is the last piece. -/
theorem nil_after_open {pre post : List Lexeme} {l : Lexeme} (h : lexemes cs = pre ++ l :: post)
    (hopen : l.cls = .blockComment false) : post = [] := by
  obtain ⟨c, rest, rfl, hrest⟩ := exists_scan_of_append h
  obtain ⟨inside, hcs, hchars, hbody⟩ := blockComment_scan hopen
  rw [hcs, hchars, (blockBody_open hbody).1] at hrest
  have hnil : post.flatMap (·.chars) = [] := List.self_eq_append_right.mp hrest.symm
  rw [← List.singleton_append, ← List.append_assoc] at h
  have hpost := lexemes_of_append h
  rwa [hnil] at hpost

end Lexeme

/-! ### Comments of a text -/

namespace Comment

/-- The comment covers `part`, and `after` stands behind it. -/
def Covers (c : Comment) (cs part after : List Char) : Prop :=
  ∃ before, cs = before ++ part ++ after ∧ c.span = ⟨byteLength before, byteLength before + byteLength part⟩

/-- The comment runs from two slashes to the next line feed or to the end of the text. -/
structure IsLine (c : Comment) (cs : List Char) : Prop where
  covers : ∃ after, c.Covers cs ('/' :: '/' :: c.body cs) after ∧ (after = [] ∨ ∃ rest, after = '\n' :: rest)
  inside : '\n' ∉ c.body cs

/-- The comment runs through the first closing delimiter behind its opening one: none begins before the one at
its end. -/
structure IsClosed (c : Comment) (cs : List Char) : Prop where
  covers : ∃ after, c.Covers cs ('/' :: '*' :: (c.body cs ++ ['*', '/'])) after
  inside : ¬ ['*', '/'] <:+: c.body cs ++ ['*']

/-- The comment runs to the end of the text, and no closing delimiter stands behind its opening one. -/
structure IsOpen (c : Comment) (cs : List Char) : Prop where
  covers : c.Covers cs ('/' :: '*' :: c.body cs) []
  inside : ¬ ['*', '/'] <:+: c.body cs

variable {c : Comment} {cs part part' after after' : List Char}

theorem Covers.slice_eq (h : c.Covers cs part after) : slice cs c.span.start c.span.stop = some part := by
  obtain ⟨before, rfl, hspan⟩ := h
  rw [hspan]
  exact slice_append_append before part after

theorem Covers.part_unique (h : c.Covers cs part after) (h' : c.Covers cs part' after') : part = part' :=
  Option.some.inj (h.slice_eq.symm.trans h'.slice_eq)

theorem Covers.body_line (h : c.Covers cs ('/' :: '/' :: part) after) (hkind : c.kind = .line) :
    c.body cs = part := by
  rw [body, h.slice_eq, hkind]
  exact withoutStart_append ['/', '/'] part

theorem Covers.body_closed (h : c.Covers cs ('/' :: '*' :: (part ++ ['*', '/'])) after) (hkind : c.kind = .block) :
    c.body cs = part := by
  rw [body, h.slice_eq, hkind]
  exact (congrArg (withoutEnd _) (withoutStart_append ['/', '*'] _)).trans (withoutEnd_append ['*', '/'] part)

theorem Covers.body_open (h : c.Covers cs ('/' :: '*' :: part) after) (hkind : c.kind = .block)
    (hnone : ¬ ['*', '/'] <:+: part) : c.body cs = part := by
  rw [body, h.slice_eq, hkind]
  exact (congrArg (withoutEnd _) (withoutStart_append ['/', '*'] _)).trans
    (withoutEnd_of_not_suffix fun hsuffix => hnone hsuffix.isInfix)

/-- A closed comment has four bytes or more and ends with the closing delimiter, an open one has not both. The
delimiters of a closed comment do not overlap, as they would in a slash, a star and a slash. -/
theorem IsOpen.short_or_not_suffix (h : c.IsOpen cs) (hpart : c.Covers cs part after) :
    byteLength part < 4 ∨ ¬ ['*', '/'] <:+ part := by
  obtain rfl := hpart.part_unique h.covers
  rw [or_iff_not_imp_right, not_not]
  intro hsuffix
  match hbody : c.body cs, hsuffix, h.inside with
  | [], _, _ => decide
  | [d], ⟨init, hinit⟩, _ =>
    have hd := congrArg List.getLast? hinit
    simp only [List.getLast?_append, List.getLast?_cons_cons, List.getLast?_singleton, Option.some_or,
      Option.some.injEq] at hd
    rw [← hd]
    decide
  | d :: e :: body, hsuffix, hnone =>
    refine absurd (List.IsSuffix.isInfix ?_) hnone
    exact List.suffix_of_suffix_length_le hsuffix (List.suffix_append ['/', '*'] _) (by simp)

theorem IsClosed.long_and_suffix (h : c.IsClosed cs) (hpart : c.Covers cs part after) :
    ¬ (byteLength part < 4 ∨ ¬ ['*', '/'] <:+ part) := by
  obtain ⟨after', hcovers⟩ := h.covers
  obtain rfl := hpart.part_unique hcovers
  rintro (hshort | hsuffix)
  · have hlength : byteLength ('/' :: '*' :: (c.body cs ++ ['*', '/'])) = 4 + byteLength (c.body cs) := by
      rw [← List.cons_append, ← List.cons_append, byteLength_append, Nat.add_comm]
      show 2 + (1 + (1 + byteLength (c.body cs))) = _
      omega
    omega
  · exact hsuffix (List.suffix_append ('/' :: '*' :: c.body cs) ['*', '/'])

/-- The comment is a piece of the text, and these are the pieces before and behind it. -/
structure IsPiece (c : Comment) (cs : List Char) (pre : List Lexeme) (l : Lexeme) (post : List Lexeme) : Prop where
  pieces : lexemes cs = pre ++ l :: post
  item : Lexeme.item? l.cls = some (.comment c.kind)
  span : c.span = ⟨byteLength (pre.flatMap (·.chars)), byteLength (pre.flatMap (·.chars)) + byteLength l.chars⟩

namespace IsPiece

variable {pre post : List Lexeme} {l : Lexeme}

theorem covers (h : c.IsPiece cs pre l post) : c.Covers cs l.chars (post.flatMap (·.chars)) :=
  ⟨pre.flatMap (·.chars), by
    rw [← flatMap_chars_lexemes cs, h.pieces, List.flatMap_append, List.flatMap_cons, List.append_assoc], h.span⟩

theorem isLine (h : c.IsPiece cs pre l post) (hkind : c.kind = .line) : c.IsLine cs := by
  have hcovers := h.covers
  have hitem := h.item
  obtain ⟨d, rest, rfl, hrest⟩ := Lexeme.exists_scan_of_append h.pieces
  have hcls : (Lexeme.scan d rest).cls = .lineComment := by
    rw [hkind] at hitem
    cases hscan : (Lexeme.scan d rest).cls with
    | lineComment => rfl
    | layout | blockComment | token => rw [hscan] at hitem; cases hitem
  obtain ⟨body, hchars, hnone, hafter⟩ := Lexeme.lineComment_scan hcls hrest
  rw [hchars] at hcovers
  have hbody := hcovers.body_line hkind
  exact ⟨⟨_, by rwa [hbody], hafter⟩, by rwa [hbody]⟩

theorem kind_eq_block {closed : Bool} (h : c.IsPiece cs pre l post) (hcls : l.cls = .blockComment closed) :
    c.kind = .block := by
  have hitem := h.item
  rw [hcls] at hitem
  cases hkind : c.kind
  · rw [hkind] at hitem
    cases hitem
  · rfl

theorem isClosed (h : c.IsPiece cs pre l post) (hcls : l.cls = .blockComment true) : c.IsClosed cs := by
  have hkind := h.kind_eq_block hcls
  have hcovers := h.covers
  obtain ⟨d, rest, rfl, -⟩ := Lexeme.exists_scan_of_append h.pieces
  obtain ⟨inside, -, hchars, hclosed⟩ := Lexeme.blockComment_scan hcls
  obtain ⟨body, hinside, hfirst⟩ := Lexeme.blockBody_closed hclosed
  rw [hchars, hinside] at hcovers
  have hbody := hcovers.body_closed hkind
  exact ⟨⟨_, by rwa [hbody]⟩, by rwa [hbody]⟩

theorem isOpen (h : c.IsPiece cs pre l post) (hcls : l.cls = .blockComment false) : c.IsOpen cs := by
  have hkind := h.kind_eq_block hcls
  have hcovers := h.covers
  rw [Lexeme.nil_after_open h.pieces hcls] at hcovers
  obtain ⟨d, rest, rfl, -⟩ := Lexeme.exists_scan_of_append h.pieces
  obtain ⟨inside, -, hchars, hopen⟩ := Lexeme.blockComment_scan hcls
  obtain ⟨hinside, hnone⟩ := Lexeme.blockBody_open hopen
  rw [hchars, hinside] at hcovers
  have hbody := hcovers.body_open hkind hnone
  exact ⟨by rwa [hbody], by rwa [hbody]⟩

/-- A block comment is closed or open, as its piece is. -/
theorem closed_or_open (h : c.IsPiece cs pre l post) (hkind : c.kind = .block) :
    l.cls = .blockComment true ∨ l.cls = .blockComment false := by
  have hitem := h.item
  rw [hkind] at hitem
  cases hcls : l.cls with
  | blockComment closed => cases closed <;> simp
  | layout | lineComment | token => rw [hcls] at hitem; cases hitem

theorem cls_of_isOpen (h : c.IsPiece cs pre l post) (hkind : c.kind = .block) (hopen : c.IsOpen cs) :
    l.cls = .blockComment false :=
  (h.closed_or_open hkind).resolve_left fun hclosed =>
    (h.isClosed hclosed).long_and_suffix h.covers (hopen.short_or_not_suffix h.covers)

end IsPiece

end Comment

namespace TokenStream

variable {cs : List Char} {c : Comment} {pre post ls : List Lexeme} {l : Lexeme} {offset : Nat} {lineBreak : Bool}

theorem exists_isPiece (hc : c ∈ (ofChars cs).comments) : ∃ pre l post, c.IsPiece cs pre l post := by
  have hmem : (Lexeme.Item.comment c.kind, c.span) ∈ (ofChars cs).items :=
    List.mem_append_right _ (List.mem_map_of_mem hc)
  obtain ⟨pre, l, post, hls, hitem, hspan⟩ := holds_of_mem_items hmem
  rw [Nat.zero_add] at hspan
  exact ⟨pre, l, post, hls, hitem, hspan⟩

/-! ### The error of an open comment -/

theorem errors_ofLexemes (h : ∀ l ∈ ls, l.cls ≠ .blockComment false) : (ofLexemes offset lineBreak ls).errors = [] := by
  induction ls generalizing offset lineBreak with
  | nil => rfl
  | cons l ls ih =>
    have ih' : ∀ offset lineBreak, (ofLexemes offset lineBreak ls).errors = [] :=
      fun _ _ => ih fun l hl => h l (List.mem_cons_of_mem _ hl)
    rw [ofLexemes]
    split
    · exact ih' _ _
    · exact ih' _ _
    · exact ih' _ _
    · rename_i hopen
      exact absurd hopen (h l List.mem_cons_self)
    · exact ih' _ _

/-- An open comment behind the pieces is the last of the comments, and its error is the last of the errors. -/
structure EndsOpen (stream before : TokenStream) (span : Span) : Prop where
  tokens : stream.tokens = before.tokens
  comments : stream.comments = before.comments ++ [⟨.block, span⟩]
  errors : stream.errors = before.errors ++ [⟨.commentEndExpected, .point span.stop⟩]

theorem endsOpen_ofLexemes (hopen : l.cls = .blockComment false) (offset : Nat) (lineBreak : Bool) :
    (ofLexemes offset lineBreak (pre ++ [l])).EndsOpen (ofLexemes offset lineBreak pre)
      ⟨offset + byteLength (pre.flatMap (·.chars)),
        offset + byteLength (pre.flatMap (·.chars)) + byteLength l.chars⟩ := by
  induction pre generalizing offset lineBreak with
  | nil =>
    simp only [List.nil_append, ofLexemes, hopen]
    exact ⟨rfl, rfl, rfl⟩
  | cons l' pre ih =>
    rw [List.cons_append, List.flatMap_cons, byteLength_append, ← Nat.add_assoc, ofLexemes, ofLexemes]
    split
    · exact ih _ _
    · exact ⟨(ih _ _).tokens, congrArg (List.cons _) (ih _ _).comments, (ih _ _).errors⟩
    · exact ⟨(ih _ _).tokens, congrArg (List.cons _) (ih _ _).comments, (ih _ _).errors⟩
    · exact ⟨(ih _ _).tokens, congrArg (List.cons _) (ih _ _).comments, congrArg (List.cons _) (ih _ _).errors⟩
    · exact ⟨congrArg (List.cons _) (ih _ _).tokens, (ih _ _).comments, (ih _ _).errors⟩

theorem endsOpen_ofChars (h : c.IsPiece cs pre l post) (hopen : l.cls = .blockComment false) :
    (ofChars cs).EndsOpen (ofLexemes 0 false pre) c.span := by
  have hends : (ofLexemes 0 false (pre ++ [l])).EndsOpen (ofLexemes 0 false pre) _ := endsOpen_ofLexemes hopen 0 false
  rw [← Lexeme.nil_after_open h.pieces hopen, ← h.pieces, Nat.zero_add, ← h.span] at hends
  exact hends

theorem errors_before_open (h : c.IsPiece cs pre l post) : (ofLexemes 0 false pre).errors = [] := by
  refine errors_ofLexemes fun l' hl' hopen => ?_
  obtain ⟨a, b, rfl⟩ := List.append_of_mem hl'
  have hpieces := h.pieces
  rw [List.append_assoc, List.cons_append] at hpieces
  have hnil := Lexeme.nil_after_open hpieces hopen
  exact absurd hnil (by simp)

/-- The comments of the text are delimited, and what is said about them is. -/
structure Delimits (stream : TokenStream) (cs : List Char) : Prop where
  /-- A line comment is the rest of its line. -/
  line : ∀ c ∈ stream.comments, c.kind = .line → c.IsLine cs
  /-- A block comment is closed or open, and not both. -/
  block : ∀ c ∈ stream.comments, c.kind = .block → Xor (c.IsClosed cs) (c.IsOpen cs)
  /-- Which of the two can be told from its characters afterwards. -/
  told : ∀ c ∈ stream.comments, c.kind = .block → ∀ part after, c.Covers cs part after →
    (c.IsOpen cs ↔ byteLength part < 4 ∨ ¬ ['*', '/'] <:+ part)
  /-- Behind an open comment there is nothing but the end of the text. -/
  last : ∀ c ∈ stream.comments, c.kind = .block → c.IsOpen cs →
    (∃ earlier, stream.comments = earlier ++ [c]) ∧ ∀ t ∈ stream.tokens, t.span.stop ≤ c.span.start
  /-- An open comment is reported once, at the end of the text. -/
  reported : ∀ c ∈ stream.comments, c.kind = .block → c.IsOpen cs → ∃ e, stream.errors = [e] ∧
    e.cause.code = 1010 ∧ e.cause.message = "'*/' expected." ∧ e.span = .point (byteLength cs)
  /-- Nothing else is reported. -/
  silent : (∀ c ∈ stream.comments, c.kind = .block → ¬ c.IsOpen cs) → stream.errors = []

/-- **Comments are delimited exactly**, however their delimiters overlap. -/
theorem delimits_ofChars (cs : List Char) : (ofChars cs).Delimits cs where
  line c hc hkind := by
    obtain ⟨pre, l, post, hpiece⟩ := exists_isPiece hc
    exact hpiece.isLine hkind
  block c hc hkind := by
    obtain ⟨pre, l, post, hpiece⟩ := exists_isPiece hc
    rcases hpiece.closed_or_open hkind with hcls | hcls
    · exact .inl ⟨hpiece.isClosed hcls, fun hopen =>
        (hpiece.isClosed hcls).long_and_suffix hpiece.covers (hopen.short_or_not_suffix hpiece.covers)⟩
    · exact .inr ⟨hpiece.isOpen hcls, fun hclosed =>
        hclosed.long_and_suffix hpiece.covers ((hpiece.isOpen hcls).short_or_not_suffix hpiece.covers)⟩
  told c hc hkind part after hpart := by
    obtain ⟨pre, l, post, hpiece⟩ := exists_isPiece hc
    refine ⟨fun hopen => hopen.short_or_not_suffix hpart, fun htest => ?_⟩
    rcases hpiece.closed_or_open hkind with hcls | hcls
    · exact absurd htest ((hpiece.isClosed hcls).long_and_suffix hpart)
    · exact hpiece.isOpen hcls
  last c hc hkind hopen := by
    obtain ⟨pre, l, post, hpiece⟩ := exists_isPiece hc
    have hends := endsOpen_ofChars hpiece (hpiece.cls_of_isOpen hkind hopen)
    refine ⟨⟨_, by rw [hends.comments, ← hkind]⟩, fun t ht => ?_⟩
    rw [hends.tokens] at ht
    have hpairs := (pairwise_all_ofLexemes 0 false pre).2
    rw [all, List.pairwise_append] at hpairs
    have hle := hpairs.2.2 t ht _ List.mem_cons_self
    rw [span_ending_ofLexemes, Nat.zero_add] at hle
    rw [hpiece.span]
    exact hle
  reported c hc hkind hopen := by
    obtain ⟨pre, l, post, hpiece⟩ := exists_isPiece hc
    have hends := endsOpen_ofChars hpiece (hpiece.cls_of_isOpen hkind hopen)
    refine ⟨_, by rw [hends.errors, errors_before_open hpiece, List.nil_append], rfl, rfl, ?_⟩
    obtain ⟨before, hcs, hspan⟩ := hopen.covers
    rw [hspan, ← byteLength_append, ← List.append_nil (before ++ _), ← hcs]
  silent hnone := by
    refine errors_ofLexemes fun l hl hopen => ?_
    obtain ⟨pre, post, hpieces⟩ := List.append_of_mem hl
    have hpiece : Comment.IsPiece ⟨.block, ⟨byteLength (pre.flatMap (·.chars)), _⟩⟩ cs pre l post :=
      ⟨hpieces, by rw [hopen]; rfl, rfl⟩
    have hends := endsOpen_ofChars hpiece hopen
    exact hnone _ (by rw [hends.comments]; exact List.mem_append_right _ List.mem_cons_self) rfl (hpiece.isOpen hopen)

end TokenStream

end ScriptAnalysis

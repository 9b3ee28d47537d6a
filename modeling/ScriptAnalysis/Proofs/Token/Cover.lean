import ScriptAnalysis.Proofs.Token.Places
import ScriptAnalysis.Text.Span

/-!
# Nothing is lost between the tokens

The pieces of a text that are not layout stand one after the other in it (`Lexeme.places`); each of them is
the place of one token or one comment (`TokenStream.spread_ofLexemes`), and the characters between them are
layout. So tokens and comments account for every character of the text that is not layout, whatever the text
is (`TokenStream.accounts_ofChars`).
-/

namespace ScriptAnalysis

open Text

/-- No character of the text is cut at the offset. -/
def Text.IsBoundary (cs : List Char) (offset : Nat) : Prop :=
  ∃ before after, cs = before ++ after ∧ byteLength before = offset

/-- Of two beginnings of a text the longer one starts with the shorter one. -/
theorem Text.exists_middle {front back front' back' : List Char} (h : front ++ back = front' ++ back')
    (hle : byteLength front ≤ byteLength front') : ∃ middle, front' = front ++ middle := by
  rcases List.append_eq_append_iff.mp h with ⟨middle, hfront, -⟩ | ⟨middle, hfront, -⟩
  · exact ⟨middle, hfront⟩
  · rw [hfront, byteLength_append] at hle
    cases middle with
    | nil => exact ⟨[], by rw [hfront, List.append_nil, List.append_nil]⟩
    | cons c cs =>
      have hc := c.utf8Size_pos
      rw [byteLength_cons] at hle
      omega

namespace Lexeme

/-! ### The places of pieces -/

/-- Where the pieces that are not layout stand, in order, the first piece at the offset. -/
def places (offset : Nat) : List Lexeme → List Span
  | [] => []
  | l :: ls =>
    let stop := offset + byteLength l.chars
    match l.cls with
    | .layout => places stop ls
    | _ => ⟨offset, stop⟩ :: places stop ls

theorem places_layout {l : Lexeme} (h : l.cls = .layout) (offset : Nat) (ls : List Lexeme) :
    places offset (l :: ls) = places (offset + byteLength l.chars) ls := by
  rw [places, h]

theorem places_cons {l : Lexeme} (h : l.cls ≠ .layout) (offset : Nat) (ls : List Lexeme) :
    places offset (l :: ls) =
      ⟨offset, offset + byteLength l.chars⟩ :: places (offset + byteLength l.chars) ls := by
  rw [places]
  split
  · rename_i hlayout
    exact absurd hlayout h
  · rfl

/-- A place is the one of a piece that is not layout, behind the pieces before it. -/
theorem mem_places_iff {s : Span} (offset : Nat) (ls : List Lexeme) :
    s ∈ places offset ls ↔ ∃ pre l post, ls = pre ++ l :: post ∧ l.cls ≠ .layout ∧
      s.start = offset + byteLength (pre.flatMap (·.chars)) ∧ s.stop = s.start + byteLength l.chars := by
  induction ls generalizing offset with
  | nil => simp [places]
  | cons l ls ih =>
    have hcons : (∃ pre l' post, l :: ls = pre ++ l' :: post ∧ l'.cls ≠ .layout ∧
          s.start = offset + byteLength (pre.flatMap (·.chars)) ∧ s.stop = s.start + byteLength l'.chars) ↔
        (l.cls ≠ .layout ∧ s = ⟨offset, offset + byteLength l.chars⟩) ∨
          s ∈ places (offset + byteLength l.chars) ls := by
      rw [ih]
      constructor
      · rintro ⟨- | ⟨l₁, pre⟩, l', post, heq, hl', hstart, hstop⟩
        · obtain ⟨rfl, rfl⟩ := List.cons.inj heq
          rw [hstart] at hstop
          exact .inl ⟨hl', by cases s; cases hstart; cases hstop; rfl⟩
        · obtain ⟨rfl, rfl⟩ := List.cons.inj heq
          refine .inr ⟨pre, l', post, rfl, hl', ?_, hstop⟩
          rw [hstart, List.flatMap_cons, byteLength_append, Nat.add_assoc]
      · rintro (⟨hl, rfl⟩ | ⟨pre, l', post, rfl, hl', hstart, hstop⟩)
        · exact ⟨[], l, ls, rfl, hl, rfl, rfl⟩
        · refine ⟨l :: pre, l', post, rfl, hl', ?_, hstop⟩
          rw [hstart, List.flatMap_cons, byteLength_append, Nat.add_assoc]
    rw [hcons]
    cases hl : l.cls with
    | layout => simp [places_layout hl]
    | lineComment | blockComment | token => rw [places_cons (by simp [hl])]; simp

/-- Every place is behind the offset and starts where the ones before it have stopped or later. -/
theorem pairwise_places (offset : Nat) (ls : List Lexeme) :
    (∀ s ∈ places offset ls, offset ≤ s.start) ∧ (places offset ls).Pairwise (·.stop ≤ ·.start) := by
  induction ls generalizing offset with
  | nil => simp [places]
  | cons l ls ih =>
    obtain ⟨hle, hpairs⟩ := ih (offset + byteLength l.chars)
    have hle' : ∀ s ∈ places (offset + byteLength l.chars) ls, offset ≤ s.start :=
      fun s hs => Nat.le_trans (Nat.le_add_right ..) (hle s hs)
    rw [places]
    split
    · exact ⟨hle', hpairs⟩
    · exact ⟨List.forall_mem_cons.mpr ⟨Nat.le_refl _, hle'⟩, List.pairwise_cons.mpr ⟨hle, hpairs⟩⟩

/-! ### The characters of pieces -/

/-- A piece has at least one character. -/
theorem byteLength_scan_pos (c : Char) (rest : List Char) : 0 < byteLength (scan c rest).chars :=
  Nat.lt_of_lt_of_le c.utf8Size_pos (Nat.le_add_right ..)

theorem classify_of_isLayout {recover : Recovery} {c : Char} (h : isLayout c = true) (cs : List Char) :
    classify c cs recover = (.layout, cs.takeWhile isLayout) := by
  unfold classify
  rw [if_pos h]

/-- Only a layout character starts a piece that is layout. -/
theorem isLayout_of_classify {c : Char} {cs : List Char} (h : (classify c cs).1 = .layout) :
    isLayout c = true := by
  have hcut : Cuts .standard c cs _ _ := cuts_classify c cs
  rw [h] at hcut
  generalize (classify c cs).2 = tail at hcut
  cases hcut with
  | layout hc => exact hc

/-- A piece that is layout consists of layout characters. -/
theorem isLayout_of_mem_scan {c d : Char} {rest : List Char} (hcls : (scan c rest).cls = .layout)
    (hd : d ∈ (scan c rest).chars) : isLayout d = true := by
  have hc : isLayout c = true := isLayout_of_classify hcls
  have hchars : (scan c rest).chars = c :: rest.takeWhile isLayout := by
    rw [scan, classify_of_isLayout hc]
  rw [hchars] at hd
  rcases List.mem_cons.mp hd with rfl | hd
  · exact hc
  · exact List.all_eq_true.mp List.all_takeWhile d hd

/-- Every character of a text is one of a piece. -/
theorem exists_of_flatMap_eq {ls : List Lexeme} {before after : List Char} {c : Char}
    (h : ls.flatMap (·.chars) = before ++ c :: after) :
    ∃ pre l post head tail, ls = pre ++ l :: post ∧ l.chars = head ++ c :: tail ∧
      before = pre.flatMap (·.chars) ++ head := by
  induction ls generalizing before with
  | nil => simp at h
  | cons l ls ih =>
    rw [List.flatMap_cons, List.append_eq_append_iff] at h
    rcases h with ⟨as, rfl, hrest⟩ | ⟨bs, hchars, hrest⟩
    · obtain ⟨pre, l', post, head, tail, rfl, hl', rfl⟩ := ih hrest
      exact ⟨l :: pre, l', post, head, tail, rfl, hl', by rw [List.flatMap_cons, List.append_assoc]⟩
    · cases bs with
      | nil =>
        have hrest' : ls.flatMap (·.chars) = [] ++ c :: after := hrest.symm
        obtain ⟨pre, l', post, head, tail, rfl, hl', hhead⟩ := ih hrest'
        refine ⟨l :: pre, l', post, head, tail, rfl, hl', ?_⟩
        rw [List.flatMap_cons, List.append_assoc, ← hhead, hchars, List.append_nil, List.append_nil]
      | cons d bs =>
        obtain ⟨rfl, -⟩ := List.cons.inj hrest
        exact ⟨[], l, ls, before, bs, rfl, hchars, rfl⟩

end Lexeme

namespace TokenStream

/-- Where the tokens before the end of the text, and the comments, stand. -/
def spans (stream : TokenStream) : List Span := stream.tokens.map (·.span) ++ stream.comments.map (·.span)

/-- The places are those of the tokens and of the comments, each of the two in its order. -/
structure Spread (stream : TokenStream) (places : List Span) : Prop where
  perm : places.Perm stream.spans
  tokens : (stream.tokens.map (·.span)).Sublist places
  comments : (stream.comments.map (·.span)).Sublist places

namespace Spread

variable {stream : TokenStream} {places : List Span}

theorem consToken (h : stream.Spread places) (t : Token) : (stream.consToken t).Spread (t.span :: places) :=
  ⟨h.perm.cons _, h.tokens.cons_cons _, h.comments.cons _⟩

theorem consComment (h : stream.Spread places) (c : Comment) :
    (stream.consComment c).Spread (c.span :: places) :=
  ⟨(h.perm.cons _).trans List.perm_middle.symm, h.tokens.cons _, h.comments.cons_cons _⟩

theorem consError (h : stream.Spread places) (e : Syntax.Error) : (stream.consError e).Spread places :=
  ⟨h.perm, h.tokens, h.comments⟩

end Spread

theorem spread_ofLexemes (offset : Nat) (lineBreak : Bool) (ls : List Lexeme) :
    (ofLexemes offset lineBreak ls).Spread (Lexeme.places offset ls) := by
  induction ls generalizing offset lineBreak with
  | nil => exact ⟨List.Perm.refl _, List.Sublist.refl _, List.Sublist.refl _⟩
  | cons l ls ih =>
    rw [ofLexemes, Lexeme.places]
    cases l.cls with
    | layout => exact ih _ _
    | lineComment => exact (ih _ _).consComment _
    | blockComment closed =>
      cases closed with
      | true => exact (ih _ _).consComment _
      | false => exact ((ih _ _).consComment _).consError _
    | token kind => exact (ih _ _).consToken _

theorem span_ending_ofLexemes (offset : Nat) (lineBreak : Bool) (ls : List Lexeme) :
    (ofLexemes offset lineBreak ls).ending.span = .point (offset + byteLength (ls.flatMap (·.chars))) := by
  induction ls generalizing offset lineBreak with
  | nil => rfl
  | cons l ls ih =>
    rw [List.flatMap_cons, byteLength_append, ← Nat.add_assoc, ofLexemes]
    split <;> exact ih _ _

/-- The text ends behind all its characters. -/
theorem span_ending_ofChars (cs : List Char) : (ofChars cs).ending.span = .point (byteLength cs) := by
  have h := span_ending_ofLexemes 0 false (lexemes cs)
  rwa [flatMap_chars_lexemes, Nat.zero_add] at h

/-- The tokens and comments account for the text. -/
structure Accounts (stream : TokenStream) (cs : List Char) : Prop where
  /-- Tokens and comments cover at least one byte each. -/
  start_lt_stop : ∀ s ∈ stream.spans, s.start < s.stop
  /-- Ordered by where they start, they do not overlap. -/
  apart : ∃ ordered : List Span, ordered.Perm stream.spans ∧ ordered.Pairwise (·.stop ≤ ·.start)
  /-- They lie in the text. -/
  stop_le : ∀ s ∈ stream.spans, s.stop ≤ byteLength cs
  /-- They cut no character. -/
  boundaries : ∀ s ∈ stream.spans, IsBoundary cs s.start ∧ IsBoundary cs s.stop
  /-- The tokens are listed in order. -/
  tokens_ordered : stream.tokens.Pairwise (·.span.stop ≤ ·.span.start)
  /-- The comments are listed in order. -/
  comments_ordered : stream.comments.Pairwise (·.span.stop ≤ ·.span.start)
  /-- A character that lies in none of them is layout. -/
  between : ∀ before c after, cs = before ++ c :: after →
    (∀ s ∈ stream.spans, s.contains (byteLength before) = false) →
      c ∈ [' ', '\t', '\r', '\n', '\x0c', '\ufeff']
  /-- The list of all tokens closes with the end of the text, which is empty and stands there. -/
  ending : ∃ last, stream.all = stream.tokens ++ [last] ∧ last.kind = .endOfFile ∧
    last.span = ⟨byteLength cs, byteLength cs⟩
  /-- No other token is the end of the text. -/
  tokens_kind : ∀ t ∈ stream.tokens, t.kind ≠ .endOfFile
  /-- All offsets can be written down when the length of the text can. -/
  writable : byteLength cs ≤ Span.maxOffset →
    ∀ s ∈ stream.ending.span :: stream.spans, Span.ofRange s.start s.stop = .ok s

variable {cs : List Char} {s : Span}

theorem exists_scan_of_lexemes_eq {pre post : List Lexeme} {l : Lexeme} (h : lexemes cs = pre ++ l :: post) :
    ∃ c rest, l = Lexeme.scan c rest := by
  have hmem : l ∈ lexemes cs := by
    rw [h]
    exact List.mem_append_right _ List.mem_cons_self
  exact Lexeme.exists_scan_of_mem hmem

/-- A place of a text's pieces is that of a non-empty part of the text. -/
theorem exists_part_of_mem_spans (hs : s ∈ (ofChars cs).spans) :
    ∃ before part after, cs = before ++ part ++ after ∧ 0 < byteLength part ∧
      s = ⟨byteLength before, byteLength before + byteLength part⟩ := by
  have hplace := (spread_ofLexemes 0 false (lexemes cs)).perm.mem_iff.mpr hs
  obtain ⟨pre, l, post, hls, -, hstart, hstop⟩ := (Lexeme.mem_places_iff ..).mp hplace
  obtain ⟨c, rest, rfl⟩ := exists_scan_of_lexemes_eq hls
  refine ⟨pre.flatMap (·.chars), (Lexeme.scan c rest).chars, post.flatMap (·.chars), ?_,
    Lexeme.byteLength_scan_pos c rest, ?_⟩
  · rw [← flatMap_chars_lexemes cs, hls, List.flatMap_append, List.flatMap_cons, List.append_assoc]
  · rw [Nat.zero_add] at hstart
    rw [hstart] at hstop
    cases s
    cases hstart
    cases hstop
    rfl

/-- A character of the text that no token and no comment covers is layout. -/
theorem isLayout_of_uncovered {before after : List Char} {c : Char} (hcs : cs = before ++ c :: after)
    (hout : ∀ s ∈ (ofChars cs).spans, s.contains (byteLength before) = false) :
    Lexeme.isLayout c = true := by
  obtain ⟨pre, l, post, head, tail, hls, hchars, hbefore⟩ :=
    Lexeme.exists_of_flatMap_eq ((flatMap_chars_lexemes cs).trans hcs)
  obtain ⟨d, rest, rfl⟩ := exists_scan_of_lexemes_eq hls
  by_cases hcls : (Lexeme.scan d rest).cls = .layout
  · exact Lexeme.isLayout_of_mem_scan hcls (by rw [hchars]; simp)
  -- Otherwise the piece is a token or comment, and `c` lies in its place.
  · have hmem := (spread_ofLexemes 0 false (lexemes cs)).perm.mem_iff.mp
      ((Lexeme.mem_places_iff (s := ⟨byteLength (pre.flatMap (·.chars)),
          byteLength (pre.flatMap (·.chars)) + byteLength (Lexeme.scan d rest).chars⟩) 0 _).mpr
        ⟨pre, _, post, hls, hcls, (Nat.zero_add _).symm, rfl⟩)
    have hstart : byteLength (pre.flatMap (·.chars)) ≤ byteLength before := by
      rw [hbefore, byteLength_append]
      exact Nat.le_add_right ..
    have hstop : byteLength before < byteLength (pre.flatMap (·.chars)) +
        byteLength (Lexeme.scan d rest).chars := by
      have hpos := c.utf8Size_pos
      rw [hbefore, hchars, byteLength_append, byteLength_append, byteLength_cons]
      omega
    exact absurd ((hout _ hmem).symm.trans ((Span.contains_iff ..).mpr ⟨hstart, hstop⟩)) Bool.false_ne_true

/-- The six layout characters. -/
theorem mem_layout_of_isLayout {c : Char} (h : Lexeme.isLayout c = true) :
    c ∈ [' ', '\t', '\r', '\n', '\x0c', '\ufeff'] := by
  simpa [Lexeme.isLayout, or_assoc] using h

/-- **Reading a text as tokens and comments loses nothing**: they are non-empty, disjoint, inside the text
and cut no character, the characters outside them are layout, and the end of the text comes last. -/
theorem accounts_ofChars (cs : List Char) : (ofChars cs).Accounts cs := by
  have hspread := spread_ofLexemes 0 false (lexemes cs)
  have hpairs := (Lexeme.pairwise_places 0 (lexemes cs)).2
  have hending := span_ending_ofChars cs
  have hle : ∀ s ∈ (ofChars cs).spans, s.start < s.stop ∧ s.stop ≤ byteLength cs := by
    intro s hs
    obtain ⟨before, part, after, hcs, hpos, rfl⟩ := exists_part_of_mem_spans hs
    rw [hcs, byteLength_append, byteLength_append]
    exact ⟨Nat.lt_add_of_pos_right hpos, Nat.le_add_right ..⟩
  refine ⟨fun s hs => (hle s hs).1, ⟨_, hspread.perm, hpairs⟩, fun s hs => (hle s hs).2, ?boundaries,
    ?tokens, ?comments, ?between, ⟨_, rfl, kind_ending_ofChars cs, hending⟩,
    fun t ht => (coversIn_ofChars cs t ht).kind_ne, ?writable⟩
  case boundaries =>
    intro s hs
    obtain ⟨before, part, after, hcs, -, rfl⟩ := exists_part_of_mem_spans hs
    exact ⟨⟨before, part ++ after, by rw [hcs, List.append_assoc], rfl⟩,
      ⟨before ++ part, after, hcs, byteLength_append ..⟩⟩
  case tokens => exact List.pairwise_map.mp (hpairs.sublist hspread.tokens)
  case comments => exact List.pairwise_map.mp (hpairs.sublist hspread.comments)
  case between => exact fun _ _ _ hcs hout => mem_layout_of_isLayout (isLayout_of_uncovered hcs hout)
  case writable =>
    intro hmax s hs
    have hstop : s.start ≤ s.stop ∧ s.stop ≤ byteLength cs := by
      rcases List.mem_cons.mp hs with rfl | hs
      · rw [hending]
        exact ⟨Nat.le_refl _, Nat.le_refl _⟩
      · exact ⟨Nat.le_of_lt (hle s hs).1, (hle s hs).2⟩
    rw [Span.ofRange, if_neg (by omega), if_neg (by omega)]

end TokenStream

end ScriptAnalysis

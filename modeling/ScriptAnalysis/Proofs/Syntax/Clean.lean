import ScriptAnalysis.Proofs.Syntax.Parsed
import ScriptAnalysis.Proofs.Syntax.Rows

/-!
# Reading without errors

An error that is found is never taken back. So where reading ends without errors no step before has found one,
and every step has met the token it was looking for. `Clean source p R` says this of a reader `p`, and that
`R` relates the state before it, what it returns and the state behind it. The steps of a reader follow one
another by `Clean.bind`, where what is known of the earlier steps becomes what the later ones may assume.
-/

namespace ScriptAnalysis

open Text

namespace TokenStream

variable {source : List Char} {t : Token}

/-- A token of a text stands where its characters do. -/
theorem exists_split_of_mem_tokens (h : t ∈ (ofChars source).tokens) :
    ∃ before after, source = before ++ t.text.toList ++ after ∧ t.span.start = byteLength before ∧
      t.text ≠ "" := by
  have hcovers := coversIn_ofChars source t h
  have hspan : t.span ∈ (ofChars source).spans := List.mem_append_left _ (List.mem_map_of_mem h)
  obtain ⟨before, part, after, rfl, hpart, hplace⟩ := exists_part_of_mem_spans hspan
  have htext : t.text = String.ofList part := by
    rw [← hcovers.textIn, hplace, Span.textIn, slice_append_append]
    rfl
  refine ⟨before, after, ?_, congrArg Span.start hplace, ?_⟩
  · rw [htext, String.toList_ofList]
  · rintro hempty
    have hnil : part = [] := by simpa [hempty] using congrArg String.toList htext.symm
    rw [hnil] at hpart
    exact absurd hpart (Nat.lt_irrefl 0)

/-- A colon among the tokens is a colon of the text. -/
theorem colonBetween_of_mem_tokens {lo hi : Nat} (h : t ∈ (ofChars source).tokens) (hkind : t.kind = .colon)
    (hlo : lo ≤ t.span.start) (hhi : t.span.start < hi) : Syntax.ColonBetween source lo hi := by
  obtain ⟨before, after, hsource, hstart, -⟩ := exists_split_of_mem_tokens h
  have htext : t.text = ":" := (coversIn_ofChars source t h).spelled ":" (by rw [hkind]; rfl)
  refine ⟨before, after, ?_, hstart ▸ hlo, hstart ▸ hhi⟩
  rw [hsource, htext, List.append_assoc]
  rfl

end TokenStream

/-- What introduces a type is a colon of the text in front of it. -/
theorem Syntax.Introduced.colonBetween {source : List Char} {lo offset : Nat}
    (h : Syntax.Introduced source lo offset) : Syntax.ColonBetween source lo offset := by
  obtain ⟨before, colon, parens, first, after, htokens, hkind, hlo, -, rfl⟩ := h
  have hcolon : colon ∈ (TokenStream.ofChars source).tokens := by simp [htokens]
  have hstops := TokenStream.pairwise_all_ofChars source
  rw [TokenStream.all, htokens, List.append_assoc, List.cons_append] at hstops
  obtain ⟨hfirst, -⟩ := List.pairwise_cons.mp (List.pairwise_append.mp hstops).2.1
  have hle : colon.span.stop ≤ first.span.start := hfirst first (by simp)
  have hlt := (TokenStream.coversIn_ofChars source colon hcolon).lt
  exact TokenStream.colonBetween_of_mem_tokens hcolon hkind hlo (Nat.lt_of_lt_of_le hlt hle)

namespace Syntax.Parser

open Syntax.Node

variable {source : List Char} {s s' s'' : State} {γ δ : Type}

/-! ### Places in a text -/

/-- Where the next token starts. -/
def State.offset (s : State) : Nat := s.current.span.start

/-- The tokens that are left are tokens of the text in its order, and the last one taken stands before them. -/
structure State.Neat (source : List Char) (s : State) : Prop where
  isSuffix : s.rest <:+ (TokenStream.ofChars source).tokens
  ending : s.ending = (TokenStream.ofChars source).ending
  ordered : (s.rest ++ [s.ending]).Pairwise (·.span.stop ≤ ·.span.start)
  lastEnd : s.lastEnd ≤ s.offset

/-- Reading from one place has got to the other. -/
structure State.Reaches (s s' : State) : Prop where
  length_le : s'.rest.length ≤ s.rest.length
  lastEnd_le : s.lastEnd ≤ s'.lastEnd
  offset_le : s.offset ≤ s'.offset
  start_le : s.lastEnd ≤ s.offset
  stop_le : s'.lastEnd ≤ s'.offset
  offset_eq : s'.rest.length = s.rest.length → s'.offset = s.offset

/-- The next token has been taken. -/
structure State.Passes (source : List Char) (s s' : State) : Prop where
  isSuffix : s.rest <:+ (TokenStream.ofChars source).tokens
  rest : s.rest = s.current :: s'.rest
  lastEnd : s'.lastEnd = s.current.span.stop

namespace State

theorem Neat.tokens (h : s.Neat source) : ∀ t ∈ s.rest, t ∈ (TokenStream.ofChars source).tokens :=
  fun _ ht => h.isSuffix.subset ht

theorem Passes.token (h : s.Passes source s') : s.current ∈ (TokenStream.ofChars source).tokens :=
  h.isSuffix.subset (h.rest ▸ List.mem_cons_self)

theorem Neat.reaches_refl (h : s.Neat source) : s.Reaches s :=
  ⟨Nat.le_refl _, Nat.le_refl _, Nat.le_refl _, h.lastEnd, h.lastEnd, fun _ => rfl⟩

theorem Reaches.trans (h : s.Reaches s') (h' : s'.Reaches s'') : s.Reaches s'' where
  length_le := Nat.le_trans h'.length_le h.length_le
  lastEnd_le := Nat.le_trans h.lastEnd_le h'.lastEnd_le
  offset_le := Nat.le_trans h.offset_le h'.offset_le
  start_le := h.start_le
  stop_le := h'.stop_le
  offset_eq heq := by
    have hle := h.length_le
    have hle' := h'.length_le
    rw [h'.offset_eq (by omega), h.offset_eq (by omega)]

/-- What stands behind the next token was got by taking it. -/
theorem Reaches.length_lt (h : s.Reaches s') (hlt : s.offset < s'.lastEnd) :
    s'.rest.length < s.rest.length := by
  refine Nat.lt_of_le_of_ne h.length_le fun heq => ?_
  have hstop := h.stop_le
  have hoffset := h.offset_eq heq
  omega

theorem Passes.lt (h : s.Passes source s') : s.offset < s'.lastEnd :=
  h.lastEnd ▸ (TokenStream.coversIn_ofChars source _ h.token).lt

/-- A token that is taken becomes a node without children. -/
theorem Passes.stands_leaf {k : Kind (Ident Span) (Node Span)} (h : s.Passes source s')
    (hk : (Node.mk s.current.span k).children = []) (hname : k.identifierText? ≠ some "") :
    Stands source s.offset [Node.mk s.current.span k] s'.lastEnd := by
  have hlt := (TokenStream.coversIn_ofChars source _ h.token).lt
  refine stands_singleton (Nat.le_refl _) (Nat.le_of_eq h.lastEnd.symm) (tidy_mk_iff.mpr ⟨⟨hlt, ?_, hname⟩, ?_⟩)
  · exact Kind.arranged_of_children_eq_nil hk (Nat.le_of_lt hlt)
  · exact fun c hc => absurd (hk ▸ hc : c ∈ []) List.not_mem_nil

theorem Passes.text_ne (h : s.Passes source s') : s.current.text ≠ "" := by
  obtain ⟨-, -, -, -, htext⟩ := TokenStream.exists_split_of_mem_tokens h.token
  exact htext

/-- A name that is taken stands where the token did. -/
theorem Passes.stands (h : s.Passes source s') :
    Stands source s.offset [(Ident.mk s.current.span s.current.text).toNode] s'.lastEnd :=
  h.stands_leaf rfl fun heq => h.text_ne (Option.some.inj heq)

/-- The next token is the first of those that are left, unless the text ends. -/
theorem Neat.rest_eq (h : s.Neat source) (hkind : s.current.kind ≠ .endOfFile) :
    s.rest = s.current :: s.rest.tail := by
  obtain ⟨rest, ending, lastEnd, errors⟩ := s
  cases rest with
  | nil =>
    have hending : ending = (TokenStream.ofChars source).ending := h.ending
    exact absurd (hending ▸ TokenStream.kind_ending_ofChars source) hkind
  | cons t ts => rfl

theorem Neat.passes_advanced (h : s.Neat source) (hkind : s.current.kind ≠ .endOfFile) :
    s.Passes source s.advanced := by
  have hrest := h.rest_eq hkind
  refine ⟨h.isSuffix, ?_, ?_⟩
  · rw [advanced, hrest]
  · rw [advanced, hrest]

theorem Neat.advanced (h : s.Neat source) : s.advanced.Neat source ∧ s.Reaches s.advanced := by
  obtain ⟨rest, ending, lastEnd, errors⟩ := s
  cases rest with
  | nil => exact ⟨h, h.reaches_refl⟩
  | cons t ts =>
    obtain ⟨hbefore, hordered⟩ := List.pairwise_cons.mp h.ordered
    have hlt := (TokenStream.coversIn_ofChars source t (h.tokens t List.mem_cons_self)).lt
    have hlast : lastEnd ≤ t.span.start := h.lastEnd
    -- what comes next is a token that is left or the end of the text
    have hnext : t.span.stop ≤ (ts.getD 0 ending).span.start := by
      cases ts with
      | nil => exact hbefore ending List.mem_cons_self
      | cons u us => exact hbefore u List.mem_cons_self
    refine ⟨⟨(List.suffix_cons t ts).trans h.isSuffix, h.ending, hordered, hnext⟩, ?_⟩
    refine ⟨Nat.le_succ _, ?_, ?_, hlast, hnext, fun heq => absurd heq (Nat.ne_of_lt (Nat.lt_succ_self _))⟩
    · show lastEnd ≤ t.span.stop
      omega
    · show t.span.start ≤ (ts.getD 0 ending).span.start
      omega

end State

/-! ### Rules -/

/-- Where `p` ends without errors it has begun without errors, and from one place in a text it has got to
another one; `R` relates both and what is returned. -/
def Clean (source : List Char) (p : Parse γ) (R : State → γ → State → Prop) : Prop :=
  ∀ s : State, (p.run s).2.errors = [] → s.errors = [] ∧
    (s.Neat source → (p.run s).2.Neat source ∧ s.Reaches (p.run s).2 ∧ R s (p.run s).1 (p.run s).2)

variable {p q : Parse γ} {f : γ → Parse δ} {R Q : State → γ → State → Prop} {T : State → δ → State → Prop}

/-- What two lemmas say of one reader. -/
theorem Clean.and (hp : Clean source p R) (hq : Clean source p Q) :
    Clean source p fun s x s' => R s x s' ∧ Q s x s' := by
  intro s hclean
  obtain ⟨hbegin, hp⟩ := hp s hclean
  refine ⟨hbegin, fun hs => ?_⟩
  obtain ⟨hs', hreaches, hR⟩ := hp hs
  exact ⟨hs', hreaches, hR, ((hq s hclean).2 hs).2.2⟩

/-- A reader that changes nothing. -/
theorem clean_of_run_eq {g : State → γ} (h : ∀ s, p.run s = (g s, s)) (hR : ∀ s, R s (g s) s) :
    Clean source p R := by
  intro s hclean
  rw [h] at hclean ⊢
  exact ⟨hclean, fun hs => ⟨hs, hs.reaches_refl, hR s⟩⟩

namespace Clean

theorem pure {x : γ} (h : ∀ s, R s x s) : Clean source (Pure.pure x) R := clean_of_run_eq (fun _ => rfl) h

theorem imp (hp : Clean source p R) (h : ∀ s x s', s.Reaches s' → R s x s' → Q s x s') :
    Clean source p Q := by
  intro s hclean
  obtain ⟨hbegin, hp⟩ := hp s hclean
  refine ⟨hbegin, fun hs => ?_⟩
  obtain ⟨hs', hreaches, hR⟩ := hp hs
  exact ⟨hs', hreaches, h _ _ _ hreaches hR⟩

/-- The later reader may assume what the earlier one has done. -/
theorem bind (hp : Clean source p R)
    (hf : ∀ x, Clean source (f x) fun s' y s'' => ∀ s, s.Reaches s' → R s x s' → T s y s'') :
    Clean source (p >>= f) T := by
  intro s hclean
  obtain ⟨hmiddle, hf⟩ := hf (p.run s).1 (p.run s).2 hclean
  obtain ⟨hbegin, hp⟩ := hp s hmiddle
  refine ⟨hbegin, fun hs => ?_⟩
  obtain ⟨hs', hreaches, hR⟩ := hp hs
  obtain ⟨hs'', hreaches', hT⟩ := hf hs'
  exact ⟨hs'', hreaches.trans hreaches', hT s hreaches hR⟩

/-- Looking at the state. -/
theorem get_bind {f : State → Parse δ}
    (hf : ∀ s, Clean source (f s) fun s' y s'' => s' = s → T s' y s'') : Clean source (get >>= f) T := by
  intro s hclean
  obtain ⟨hbegin, hf⟩ := hf s s hclean
  refine ⟨hbegin, fun hs => ?_⟩
  obtain ⟨hs', hreaches, hT⟩ := hf hs
  exact ⟨hs', hreaches, hT rfl⟩

/-- Looking at the next token. -/
theorem current_bind {f : Token → Parse δ}
    (hf : ∀ t, Clean source (f t) fun s y s' => t = s.current → T s y s') :
    Clean source (current >>= f) T :=
  get_bind fun s => (hf s.current).imp fun _ _ _ _ hT heq => hT (heq ▸ rfl)

/-- Looking whether the next token is of a kind. -/
theorem isAt_bind {kind : TokenKind} {f : Bool → Parse δ}
    (hf : ∀ b, Clean source (f b) fun s y s' => b = (s.current.kind == kind) → T s y s') :
    Clean source (isAt kind >>= f) T :=
  get_bind fun s => (hf (s.current.kind == kind)).imp fun _ _ _ _ hT heq => hT (heq ▸ rfl)

/-- Counting the tokens. -/
theorem count_bind {f : Nat → Parse δ}
    (hf : ∀ n, Clean source (f n) fun s y s' => n = s.rest.length → T s y s') :
    Clean source (remaining >>= f) T :=
  get_bind fun s => (hf s.rest.length).imp fun _ _ _ _ hT heq => hT (heq ▸ rfl)

/-- Counting the tokens where their number does not matter. -/
theorem remaining_bind {f : Nat → Parse δ} (hf : ∀ n, Clean source (f n) T) :
    Clean source (remaining >>= f) T :=
  count_bind fun n => (hf n).imp fun _ _ _ _ hT _ => hT

theorem map {g : γ → δ} (hp : Clean source p R) (hg : ∀ s x s', s.Reaches s' → R s x s' → T s (g x) s') :
    Clean source (g <$> p) T := by
  intro s hclean
  obtain ⟨hbegin, hp⟩ := hp s hclean
  refine ⟨hbegin, fun hs => ?_⟩
  obtain ⟨hs', hreaches, hR⟩ := hp hs
  exact ⟨hs', hreaches, hg _ _ _ hreaches hR⟩

/-- One of two readers. -/
theorem ite {c : Prop} [Decidable c] (hp : c → Clean source p R) (hq : ¬c → Clean source q R) :
    Clean source (if c then p else q) R := by
  by_cases h : c
  · rw [if_pos h]
    exact hp h
  · rw [if_neg h]
    exact hq h

end Clean

/-! ### Steps -/

variable {kind : TokenKind} {cause : ErrorCause} {start : Nat} {k : Kind (Ident Span) (Node Span)}

/-- What comes behind the end of the text is not taken. -/
theorem clean_advance : Clean source advance fun s t s' =>
    t = s.current ∧ (s.current.kind ≠ .endOfFile → s.Passes source s') := by
  intro s hclean
  refine ⟨?_, fun hs => ⟨hs.advanced.1, hs.advanced.2, rfl, hs.passes_advanced⟩⟩
  obtain ⟨rest, ending, lastEnd, errors⟩ := s
  cases rest with
  | nil => exact hclean
  | cons t ts => exact hclean

/-- Whoever reports an error does not end without errors. -/
theorem clean_report {span : Span} : Clean source (report cause span) fun _ _ _ => False := by
  intro s hclean
  refine absurd (show (s.reported cause span).errors = [] from hclean) ?_
  obtain ⟨rest, ending, lastEnd, errors⟩ := s
  unfold State.reported
  cases errors with
  | nil => simp
  | cons e es =>
    by_cases h : e.span.start = span.start
    · simp [h]
    · simp [h]

theorem clean_reportHere : Clean source (reportHere cause) fun _ _ _ => False :=
  .current_bind fun _ => clean_report.imp fun _ _ _ _ h => h.elim

theorem clean_eat (hkind : kind ≠ .endOfFile) : Clean source (eat kind) fun s b s' =>
    b = true → s.current.kind = kind ∧ s.Passes source s' := by
  refine .isAt_bind fun b => .ite (fun hb => ?_) fun hb => .pure fun _ _ h => by cases h
  refine clean_advance.bind fun t => .pure ?_
  rintro s' s - ⟨-, hpasses⟩ hat -
  have hcurrent : s.current.kind = kind := beq_iff_eq.mp (hat.symm.trans hb)
  exact ⟨hcurrent, hpasses (hcurrent ▸ hkind)⟩

theorem clean_expect (hkind : kind ≠ .endOfFile) : Clean source (expect kind) fun s b s' =>
    b = true ∧ s.current.kind = kind ∧ s.Passes source s' := by
  refine (clean_eat hkind).bind fun b => .ite (fun hb => .pure ?_) fun _ => ?_
  · exact fun s' s _ h => ⟨rfl, h hb⟩
  · exact clean_reportHere.bind fun _ => .pure fun _ _ _ h => h.elim

theorem clean_semicolon : Clean source semicolon fun _ _ _ => True := by
  refine (clean_eat (by decide)).bind fun _ => .ite (fun _ => .pure fun _ _ _ _ => trivial) fun _ => ?_
  refine .get_bind fun _ => .ite (fun _ => .pure fun _ _ _ _ _ => trivial) fun _ => ?_
  exact clean_reportHere.imp fun _ _ _ _ h => h.elim

theorem clean_finish {R : State → Node Span → State → Prop}
    (h : ∀ s, R s (.mk ⟨start, max s.lastEnd start⟩ k) s) : Clean source (finish start k) R :=
  clean_of_run_eq (fun _ => rfl) h

theorem clean_missingName : Clean source missingName fun _ _ _ => True :=
  .current_bind fun _ => .pure fun _ _ => trivial

theorem clean_missingExpression : Clean source missingExpression fun _ _ _ => True :=
  clean_missingName.bind fun _ => .pure fun _ _ _ _ => trivial

theorem clean_declaredName : Clean source (declaredName cause) fun s i s' =>
    Stands source s.offset [i.toNode] s'.lastEnd := by
  refine .isAt_bind fun b => .ite (fun hb => ?_) fun _ => ?_
  · refine clean_advance.bind fun t => .pure ?_
    rintro s' s - ⟨rfl, hpasses⟩ hat
    have hcurrent : s.current.kind = .identifier := beq_iff_eq.mp (hat.symm.trans hb)
    exact (hpasses (by rw [hcurrent]; decide)).stands
  · refine clean_reportHere.bind fun _ => clean_missingName.imp fun _ _ _ _ _ _ _ h => h.elim

theorem clean_memberName : Clean source memberName fun s i s' =>
    Stands source s.offset [i.toNode] s'.lastEnd := by
  refine .current_bind fun t => .ite (fun hword => ?_) fun _ => ?_
  · refine clean_advance.bind fun _ => .pure ?_
    rintro s' s - ⟨-, hpasses⟩ rfl
    refine (hpasses fun hend => ?_).stands
    rw [hend] at hword
    exact absurd hword (by decide)
  · exact clean_reportHere.bind fun _ => clean_missingName.imp fun _ _ _ _ _ _ _ h => h.elim

end Syntax.Parser

end ScriptAnalysis

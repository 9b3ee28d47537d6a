import ScriptAnalysis.Proofs.Syntax.Reading

/-!
# Written types are read back

Brackets and unions are read by loops that go on where the first type ends. The two lemmas about a type are
proved together: what `typeWithin` reads, and what the loop over brackets goes on from. The words that are
left bound both the depth of parentheses and the rounds of the loops.
-/

namespace ScriptAnalysis

namespace Word

/-- The first list, and each further one behind the word between them. -/
theorem separated_cons (kind : TokenKind) (ws : List Word) (rest : List (List Word)) :
    separated kind (ws :: rest) = ws ++ rest.flatMap (ofKind kind :: ·) := by
  induction rest generalizing ws with
  | nil => simp [separated]
  | cons ws' rest ih => rw [separated, ih, List.flatMap_cons, List.cons_append]

variable {β : Type} (kind : TokenKind) (f : β → List Word)

theorem length_le_flatMap_cons (xs : List β) :
    xs.length ≤ (xs.flatMap fun x => ofKind kind :: f x).length := by
  induction xs with
  | nil => exact Nat.le_refl _
  | cons x xs ih =>
    simp only [List.flatMap_cons, List.length_append, List.length_cons]
    omega

theorem length_lt_flatMap_cons {x : β} {xs : List β} (h : x ∈ xs) :
    (f x).length < (xs.flatMap fun x => ofKind kind :: f x).length := by
  obtain ⟨before, after, rfl⟩ := List.append_of_mem h
  simp only [List.flatMap_append, List.flatMap_cons, List.length_append, List.length_cons]
  omega

end Word

namespace Syntax.Parser

open Word

variable {α : Type} {γ : Type} {Q : γ → Prop} {ws out : List Word}

/-- Something is read that is bare the same tree. -/
abbrev Copies (n : Node α) (a : Node Span) : Prop := a.bare = n.bare

/-! ### Loops -/

theorem reads_brackets_stop {start k : Nat} {a : Node Span} (h : first ws ≠ .leftBracket) :
    Reads (brackets start k a) ws (· = a) ws := by
  cases k with
  | zero => exact .pure rfl
  | succ k =>
    refine reads_isAt.bind ?_
    rintro _ rfl
    refine .get_bind fun s _ => ?_
    rw [if_neg (by simp [h])]
    exact .pure rfl

theorem reads_brackets_step {start k : Nat} {a : Node Span} {Q : Node Span → Prop}
    (h : ∀ b : Node Span, b.kind = .arrayType a → Reads (brackets start k b) ws Q out) :
    Reads (brackets start (k + 1) a) (ofKind .leftBracket :: ofKind .rightBracket :: ws) Q out := by
  refine reads_isAt.bind ?_
  rintro _ rfl
  refine .get_bind fun s hs => ?_
  have hsecond : (s.peek 1).kind = .rightBracket := hs.kind_peek_one
  rw [if_pos (by simp [hsecond])]
  exact reads_advance.bind fun _ _ => reads_advance.bind fun _ _ => reads_finish.bind h

theorem reads_moreMembers {member : NodeParse} (ts : List (Node α))
    (hmember : ∀ t ∈ ts, ∀ ws, first ws ≠ .leftBracket →
      Reads member (t.wordsAt 1 ++ ws) (Copies t) ws)
    (hbar : first ws ≠ .bar) (hbracket : first ws ≠ .leftBracket) {k : Nat}
    (hk : ts.length ≤ k) :
    Reads (moreMembers member k) (ts.flatMap (fun t => ofKind .bar :: t.wordsAt 1) ++ ws)
      (fun as => as.map Node.bare = ts.map Node.bare) ws := by
  induction ts generalizing k with
  | nil =>
    cases k with
    | zero => exact .pure rfl
    | succ k =>
      refine (reads_eat_of_ne hbar).bind ?_
      rintro _ rfl
      exact .pure rfl
  | cons t ts ih =>
    cases k with
    | zero => simp at hk
    | succ k =>
      rw [List.flatMap_cons, List.append_assoc, List.cons_append]
      refine reads_eat.bind ?_
      rintro _ rfl
      have hrest : first (ts.flatMap (fun t => ofKind .bar :: t.wordsAt 1) ++ ws) ≠ .leftBracket := by
        cases ts with
        | nil => exact hbracket
        | cons t' ts => simp
      refine (hmember t (List.mem_cons_self ..) _ hrest).bind fun a ha => ?_
      have hts := ih (k := k) (fun t' ht' => hmember t' (List.mem_cons_of_mem t ht'))
        (by simpa using hk)
      exact hts.bind fun as has => .pure (by simp [ha, has])

/-! ### Types -/

/-- The type is read back within parentheses as deep as it has words. -/
def ReadsType (t : Node α) : Prop :=
  ∀ (k : Nat) (ws : List Word), t.words.length ≤ k → first ws ≠ .bar → first ws ≠ .leftBracket →
    Reads (typeWithin k) (t.words ++ ws) (Copies t) ws

/-- Behind the type the loop over brackets goes on as if the type had just been read. -/
def ReadsElement (t : Node α) : Prop :=
  ∀ (k start : Nat) (ws out : List Word) (Q : Node Span → Prop), (t.wordsAt 1).length ≤ k + 1 →
    (∀ r a, ws.length ≤ r → Copies t a → Reads (brackets start r a) ws Q out) →
    Reads (do let first ← primaryType (typeWithin k); brackets start (← remaining) first)
      (t.wordsAt 1 ++ ws) Q out

variable {t : Node α}

theorem ReadsType.reads (h : ReadsType t) (hbar : first ws ≠ .bar) (hbracket : first ws ≠ .leftBracket) :
    Reads type (t.words ++ ws) (Copies t) ws := by
  refine reads_remaining.bind ?_
  rintro _ rfl
  exact h _ ws (by rw [List.length_append]; omega) hbar hbracket

theorem ReadsElement.array (h : ReadsElement t) {k : Nat} (hk : (t.wordsAt 1).length ≤ k + 1)
    (hws : first ws ≠ .leftBracket) :
    Reads (arrayType (typeWithin k)) (t.wordsAt 1 ++ ws) (Copies t) ws := by
  refine reads_current_any.bind fun _ _ => ?_
  refine h k _ ws ws _ hk fun r a _ ha => ?_
  exact (reads_brackets_stop hws).mono fun b hb => hb ▸ ha

/-- A type that is no union. -/
theorem ReadsElement.readsType (h : ReadsElement t) (hwords : t.wordsAt 1 = t.words)
    (hne : t.words ≠ []) : ReadsType t := by
  intro k ws hk hbar hbracket
  obtain ⟨k, rfl⟩ : ∃ m, k = m + 1 := ⟨k - 1, by have := List.length_pos_iff.2 hne; omega⟩
  have harray : Reads (arrayType (typeWithin k)) (t.wordsAt 1 ++ ws) (Copies t) ws :=
    h.array (hwords ▸ hk) hbracket
  rw [hwords] at harray
  refine reads_current_any.bind fun _ _ => harray.bind fun a ha => reads_remaining.bind fun r _ => ?_
  refine (reads_moreMembers ([] : List (Node α)) (by simp) hbar hbracket (Nat.zero_le r)).bind
    fun as has => ?_
  obtain rfl : as = [] := by simpa using has
  exact .pure ha

/-- A type in parentheses. -/
theorem ReadsType.readsElement (h : ReadsType t) (hwords : t.wordsAt 1 = inParens t.words) :
    ReadsElement t := by
  intro k start ws out Q hk hloop
  rw [hwords] at hk ⊢
  have hinner := h k (ofKind .rightParen :: ws) (by simp [inParens] at hk; omega) (by simp) (by simp)
  rw [inParens_append]
  have hprimary : Reads (primaryType (typeWithin k))
      (ofKind .leftParen :: (t.words ++ ofKind .rightParen :: ws)) (Copies t) ws := by
    refine reads_current.bind fun token htoken => ?_
    have hkind : token.kind = .leftParen := congrArg Word.kind htoken
    simp only [hkind]
    exact reads_advance.bind fun _ _ => hinner.bind fun a ha => reads_expect.bind fun _ _ => .pure ha
  refine hprimary.bind fun a ha => reads_remaining.bind ?_
  rintro _ rfl
  exact hloop _ a (Nat.le_refl _) ha

/-- A type that is one word. -/
theorem readsElement_word {w : Word} (hwords : t.wordsAt 1 = [w])
    (hread : ∀ k ws, Reads (primaryType (typeWithin k)) (w :: ws) (Copies t) ws) : ReadsElement t := by
  intro k start ws out Q _ hloop
  rw [hwords]
  refine (hread k ws).bind fun a ha => reads_remaining.bind ?_
  rintro _ rfl
  exact hloop _ a (Nat.le_refl _) ha

theorem reads_keywordType (keyword : KeywordType) (type : NodeParse) (l : α) :
    Reads (primaryType type) (ofName keyword.spelling :: ws) (Copies (.mk l (.keywordType keyword)))
      ws := by
  refine reads_current.bind fun token htoken => ?_
  have hkind : token.kind = (ofName keyword.spelling).kind := congrArg Word.kind htoken
  have htext : token.text = keyword.spelling := congrArg Word.text htoken
  have hbare : ∀ span, Copies (.mk l (.keywordType keyword)) (.mk span (.keywordType keyword)) :=
    fun span => by simp [Copies, Node.bare_mk, Kind.map]
  by_cases hnull : keyword = .null
  · subst hnull
    have : token.kind = .nullWord := hkind.trans (by decide)
    simp only [this]
    exact reads_advance.bind fun _ _ => .pure (hbare _)
  · have : token.kind = .identifier := by
      rw [hkind]
      revert hnull
      cases keyword <;> decide
    have hname : KeywordType.ofName? token.text = some keyword :=
      (KeywordType.ofName?_eq_some_iff _ _).2 htext
    simp only [this, hname]
    exact reads_advance.bind fun _ _ => .pure (hbare _)

theorem reads_typeReference {i : Ident α} (type : NodeParse) (l : α) (hi : IsIdentifier i.text)
    (hname : KeywordType.ofName? i.text = none) :
    Reads (primaryType type) (ofName i.text :: ws) (Copies (.mk l (.typeReference i))) ws := by
  refine reads_current.bind fun token htoken => ?_
  have hkind : token.kind = .identifier := (congrArg Word.kind htoken).trans (kind_ofName hi)
  have htext : token.text = i.text := congrArg Word.text htoken
  simp only [hkind, htext, hname]
  refine reads_advance.bind fun _ _ => .pure ?_
  simp [Copies, Node.bare_mk, Kind.map, Ident.bare]

/-- A list type goes on from its element. -/
theorem ReadsElement.arrayType {l : α} {e : Node α} (h : ReadsElement e) :
    ReadsElement (.mk l (.arrayType e)) := by
  intro k start ws out Q hk hloop
  have hwords : (Node.mk l (.arrayType e)).wordsAt 1 =
      e.wordsAt 1 ++ [ofKind .leftBracket, ofKind .rightBracket] := by
    rw [Node.wordsAt, Node.printed_mk]
    rfl
  rw [hwords] at hk ⊢
  rw [List.append_assoc]
  refine h k start _ out Q (by simp at hk; omega) fun r a hr ha => ?_
  obtain ⟨r, rfl⟩ : ∃ m, r = m + 1 := ⟨r - 1, by simp at hr; omega⟩
  refine reads_brackets_step fun b hb => hloop r b (by simp at hr; omega) ?_
  rw [Copies, ← Node.mk_label_kind b, hb, Node.bare_mk, Node.bare_mk]
  simp only [Kind.map, ha]

/-- The members of a union are read one after the other. -/
theorem readsType_unionType {l : α} {ts : List (Node α)} (hts : 2 ≤ ts.length)
    (h : ∀ t ∈ ts, ReadsElement t) : ReadsType (.mk l (.unionType ts)) := by
  intro k ws hk hbar hbracket
  obtain ⟨t, t', ts, rfl⟩ : ∃ t t' rest, ts = t :: t' :: rest := by
    match ts, hts with
    | t :: t' :: rest, _ => exact ⟨t, t', rest, rfl⟩
  have hwords : (Node.mk l (.unionType (t :: t' :: ts))).words =
      t.wordsAt 1 ++ (t' :: ts).flatMap fun t => ofKind .bar :: t.wordsAt 1 := by
    rw [Node.words, Node.printed_mk]
    show separated .bar _ = _
    simp only [List.map_cons, separated_cons, List.map_map, List.flatMap_cons, List.flatMap_map]
    rfl
  rw [hwords] at hk ⊢
  obtain ⟨k, rfl⟩ : ∃ m, k = m + 1 := ⟨k - 1, by simp at hk; omega⟩
  refine reads_current_any.bind fun _ _ => ?_
  rw [List.append_assoc]
  simp only [List.length_append] at hk
  refine ((h t (by simp)).array (by omega) (by simp)).bind fun a ha => ?_
  refine reads_remaining.bind ?_
  rintro _ rfl
  have hmember : ∀ u ∈ t' :: ts, ∀ ws, first ws ≠ .leftBracket →
      Reads (arrayType (typeWithin k)) (u.wordsAt 1 ++ ws) (Copies u) ws := by
    intro u hu ws hws
    have hlength := length_lt_flatMap_cons .bar (Node.wordsAt 1) hu
    exact (h u (List.mem_cons_of_mem t hu)).array (by omega) hws
  refine (reads_moreMembers (t' :: ts) hmember hbar hbracket ?_).bind fun as has => ?_
  · rw [List.length_append]
    exact (length_le_flatMap_cons .bar (Node.wordsAt 1) (t' :: ts)).trans (Nat.le_add_right _ _)
  obtain ⟨b, bs, rfl⟩ : ∃ b bs, as = b :: bs := by
    cases as with
    | nil => simp at has
    | cons b bs => exact ⟨b, bs, rfl⟩
  refine reads_finish.mono fun c hc => ?_
  rw [Copies, ← Node.mk_label_kind c, hc, Node.bare_mk, Node.bare_mk]
  simp only [Kind.map, List.map_cons] at has ⊢
  rw [ha, has]

/-- **Every written type is read back.** -/
theorem reads_type {role : Role} (h : t.Printable role) (hrole : role = .type) :
    ReadsType t ∧ ReadsElement t := by
  induction h with
  | @mk role l k fits ok parts ih =>
    have hprintable : (Node.mk l k).Printable role := .mk l fits ok parts
    have hne : (Node.mk l k).words ≠ [] := Node.words_ne_nil hprintable (by simp [hrole])
    subst hrole
    cases k <;> simp only [Kind.fits, Kind.isType, Bool.false_eq_true] at fits
    case keywordType keyword =>
      have helement : ReadsElement (.mk l (.keywordType keyword)) :=
        readsElement_word rfl fun _ _ => reads_keywordType keyword _ l
      exact ⟨helement.readsType rfl hne, helement⟩
    case typeReference i =>
      have helement : ReadsElement (.mk l (.typeReference i)) :=
        readsElement_word rfl fun _ _ => reads_typeReference _ l ok.1 ok.2
      exact ⟨helement.readsType rfl hne, helement⟩
    case arrayType e =>
      obtain ⟨-, he⟩ := ih (.type, e) (by simp [Kind.parts]) rfl
      have helement : ReadsElement (.mk l (.arrayType e)) := he.arrayType
      exact ⟨helement.readsType rfl hne, helement⟩
    case unionType ts =>
      have hread : ReadsType (.mk l (.unionType ts)) :=
        readsType_unionType ok fun t ht => (ih (.type, t) (by simpa [Kind.parts] using ht) rfl).2
      exact ⟨hread, hread.readsElement rfl⟩

end Syntax.Parser

end ScriptAnalysis

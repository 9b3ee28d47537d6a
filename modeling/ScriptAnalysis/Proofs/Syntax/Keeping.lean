import ScriptAnalysis.Proofs.Syntax.Atoms
import ScriptAnalysis.Proofs.Syntax.Parsed

/-!
# Readers that keep what they take

A reader takes tokens and returns nodes. `Takes s s' ms` says that the tokens taken between two states leave
the marks `ms` and that the bad characters among them are reported; `Keeps` says that the marks of what a
reader returns are those that the tokens it takes have left.

A token can be lost only where statements are listed: one that takes no token is followed by a step over the
next token. So it matters that a statement takes a token whenever there is one, and for this that it is not
nested too deep. `KeepsAt s c` therefore also says that a token is taken when `c` holds, and `Keeps` bounds
the tokens that are left when a nested reader is entered.
-/

namespace ScriptAnalysis.Syntax

/-! ### The marks of what has been read -/

/-- The marks of a name. -/
def Ident.marks (i : Ident Span) : List Mark := i.toNode.marks

namespace Node

/-- The marks of nodes that follow one another. -/
def listMarks (ns : List (Node Span)) : List Mark := (ns.map marks).flatten

/-- The marks of a node that may be missing. -/
def optionMarks (n? : Option (Node Span)) : List Mark := (n?.map marks).toList.flatten

@[simp] theorem listMarks_nil : listMarks [] = [] := rfl

@[simp] theorem listMarks_cons (n : Node Span) (ns : List (Node Span)) :
    listMarks (n :: ns) = n.marks ++ listMarks ns := rfl

@[simp] theorem optionMarks_none : optionMarks none = [] := rfl

@[simp] theorem optionMarks_some (n : Node Span) : optionMarks (some n) = n.marks := by
  simp [optionMarks]

theorem listMarks_toList_append (n? : Option (Node Span)) (ns : List (Node Span)) :
    listMarks (n?.toList ++ ns) = optionMarks n? ++ listMarks ns := by
  cases n? <;> simp

theorem marksBelow_of_isAtom {k : Kind (Ident Span) (Node Span)} (h : k.isAtom = true) :
    marksBelow k = [] := by
  cases k <;> first | rfl | exact absurd h Bool.false_ne_true

/-- A node that is neither an atom nor declares a name for a type has the marks of its parts. -/
theorem marks_eq_marksBelow {l : Span} {k : Kind (Ident Span) (Node Span)} (h : k.isAtom = false)
    (h' : k.isTypeAlias = false) : (mk l k).marks = marksBelow k := by
  rw [marks_mk, Kind.marksAt_of_not_isAtom h, h']
  rfl

/-- An atom that covers characters has one mark. -/
theorem marks_of_isAtom {l : Span} {k : Kind (Ident Span) (Node Span)} (h : k.isAtom = true)
    (hl : l.start < l.stop) :
    (mk l k).marks = [.atom l (k.map (fun _ => ()) fun _ => ())] := by
  have hempty : l.isEmpty = false := beq_false_of_ne (Nat.ne_of_lt hl)
  rw [marks_mk, marksBelow_of_isAtom h, Kind.marksAt_of_isAtom h, hempty]
  rfl

/-- An atom that stands where something is missing has no mark. -/
theorem marks_point {offset : Nat} {k : Kind (Ident Span) (Node Span)} (h : k.isAtom = true) :
    (mk (.point offset) k).marks = [] := by
  have hempty : (Span.point offset).isEmpty = true := beq_self_eq_true offset
  rw [marks_mk, marksBelow_of_isAtom h, Kind.marksAt_of_isAtom h, hempty]
  rfl

end Node

namespace Parser

open Syntax.Node

variable {source : List Char} {s s' s'' : State} {ms ms' pre : List Mark} {γ δ : Type}

/-! ### What has been taken between two states -/

/-- The tokens that are left cover characters of the text. -/
structure State.Ready (source : List Char) (s : State) : Prop where
  tokens : ∀ t ∈ s.rest, t.CoversIn source
  ending : s.ending.kind = .endOfFile

/-- The tokens taken between two states leave the marks, and the bad characters among them are reported. -/
structure Takes (s s' : State) (ms : List Mark) : Prop where
  taken : ∃ ts, s.rest = ts ++ s'.rest ∧ Marked ts ms ∧
    ∀ t ∈ ts, t.kind = .unknown → ∃ e ∈ s'.errors, e.span.start = t.span.start
  ending : s'.ending = s.ending
  errors : s.errors ⊆ s'.errors

namespace Takes

theorem refl (s : State) : Takes s s [] := ⟨⟨[], rfl, .nil, by simp⟩, rfl, fun _ h => h⟩

theorem trans (h : Takes s s' ms) (h' : Takes s' s'' ms') : Takes s s'' (ms ++ ms') := by
  obtain ⟨ts, hrest, hmarked, hunknown⟩ := h.taken
  obtain ⟨ts', hrest', hmarked', hunknown'⟩ := h'.taken
  refine ⟨⟨ts ++ ts', ?_, hmarked.append hmarked', ?_⟩, h'.ending.trans h.ending,
    fun e he => h'.errors (h.errors he)⟩
  · rw [hrest, hrest', List.append_assoc]
  · intro t ht hkind
    rcases List.mem_append.mp ht with ht | ht
    · obtain ⟨e, he, hstart⟩ := hunknown t ht hkind
      exact ⟨e, h'.errors he, hstart⟩
    · exact hunknown' t ht hkind

theorem length_le (h : Takes s s' ms) : s'.rest.length ≤ s.rest.length := by
  obtain ⟨ts, hrest, -⟩ := h.taken
  rw [hrest, List.length_append]
  exact Nat.le_add_left ..

theorem ready (h : Takes s s' ms) (hs : s.Ready source) : s'.Ready source := by
  obtain ⟨ts, hrest, -⟩ := h.taken
  exact ⟨fun t ht => hs.tokens t (hrest ▸ List.mem_append_right _ ht), h.ending ▸ hs.ending⟩

end Takes

/-! ### Readers that keep what they take -/

/-- Behind marks `pre` the reader takes tokens and returns something with these marks and theirs; it takes
a token if `c` holds. -/
def KeepsAt (s : State) (c : Prop) (pre : List Mark) (p : Parse γ) (m : γ → List Mark) : Prop :=
  ∃ ms, m (p.run s).1 = pre ++ ms ∧ Takes s (p.run s).2 ms ∧
    (c → (p.run s).2.rest.length < s.rest.length)

/-- With at most `n` tokens left the reader keeps what it takes. -/
def Keeps (source : List Char) (n : Nat) (pre : List Mark) (p : Parse γ) (m : γ → List Mark) : Prop :=
  ∀ s : State, s.Ready source → s.rest.length ≤ n → KeepsAt s False pre p m

variable {p q : Parse γ} {m : γ → List Mark} {m' : δ → List Mark} {f : γ → Parse δ} {c c' : Prop} {n : Nat}

namespace KeepsAt

theorem pure {x : γ} (h : m x = pre) : KeepsAt s False pre (Pure.pure x) m :=
  ⟨[], by rw [List.append_nil]; exact h, .refl s, False.elim⟩

theorem imp (h : KeepsAt s c pre p m) (hc : c' → c) : KeepsAt s c' pre p m := by
  obtain ⟨ms, hm, htakes, hlt⟩ := h
  exact ⟨ms, hm, htakes, fun h => hlt (hc h)⟩

theorem of_true (h : KeepsAt s True pre p m) : KeepsAt s c pre p m := h.imp fun _ => trivial

/-- The reader does the same behind other marks. -/
theorem frame (h : KeepsAt s c [] p m) : KeepsAt s c pre p fun x => pre ++ m x := by
  obtain ⟨ms, hm, htakes, hlt⟩ := h
  exact ⟨ms, congrArg (pre ++ ·) hm, htakes, hlt⟩

theorem frame_append (h : KeepsAt s c ms p m) : KeepsAt s c (pre ++ ms) p fun x => pre ++ m x := by
  obtain ⟨ms', hm, htakes, hlt⟩ := h
  exact ⟨ms', (congrArg (pre ++ ·) hm).trans (List.append_assoc ..).symm, htakes, hlt⟩

theorem bind_at (hp : KeepsAt s c pre p m)
    (hf : KeepsAt (p.run s).2 False (m (p.run s).1) (f (p.run s).1) m') : KeepsAt s c pre (p >>= f) m' := by
  obtain ⟨ms, hm, htakes, hlt⟩ := hp
  obtain ⟨ms', hm', htakes', -⟩ := hf
  refine ⟨ms ++ ms', ?_, htakes.trans htakes', fun hc => Nat.lt_of_le_of_lt htakes'.length_le (hlt hc)⟩
  rw [← List.append_assoc, ← hm]
  exact hm'

theorem bind (hs : s.Ready source) (hp : KeepsAt s c pre p m)
    (hf : ∀ x, Keeps source s.rest.length (m x) (f x) m') : KeepsAt s c pre (p >>= f) m' := by
  have htakes := hp
  obtain ⟨ms, -, htakes, -⟩ := htakes
  exact hp.bind_at (hf _ _ (htakes.ready hs) htakes.length_le)

/-- What comes behind a token has fewer tokens left. -/
theorem bind_lt (hs : s.Ready source) (hn : s.rest.length ≤ n) (hp : KeepsAt s True pre p m)
    (hf : ∀ x, ∀ k < n, Keeps source k (m x) (f x) m') : KeepsAt s c pre (p >>= f) m' := by
  have htakes := hp
  obtain ⟨ms, -, htakes, hlt⟩ := htakes
  exact hp.of_true.bind_at
    (hf _ _ (Nat.lt_of_lt_of_le (hlt trivial) hn) _ (htakes.ready hs) (Nat.le_refl _))

theorem map {g : γ → δ} (h : KeepsAt s c pre p m) (hg : ∀ x, m' (g x) = m x) :
    KeepsAt s c pre (g <$> p) m' := by
  obtain ⟨ms, hm, htakes, hlt⟩ := h
  exact ⟨ms, (hg _).trans hm, htakes, hlt⟩

theorem current_bind {f : Token → Parse δ} (h : KeepsAt s c pre (f s.current) m') :
    KeepsAt s c pre (current >>= f) m' := h

theorem get_bind {f : State → Parse δ} (h : KeepsAt s c pre (f s) m') : KeepsAt s c pre (get >>= f) m' := h

theorem remaining_bind {f : Nat → Parse δ} (h : KeepsAt s c pre (f s.rest.length) m') :
    KeepsAt s c pre (remaining >>= f) m' := h

/-- Looking at the next token. -/
theorem isAt_ite {kind : TokenKind} (hyes : s.current.kind = kind → KeepsAt s c pre p m)
    (hno : s.current.kind ≠ kind → KeepsAt s c pre q m) :
    KeepsAt s c pre (do if ← isAt kind then p else q) m := by
  show KeepsAt s c pre (if (s.current.kind == kind) = true then p else q) m
  by_cases h : s.current.kind = kind
  · rw [if_pos (beq_iff_eq.mpr h)]
    exact hyes h
  · rw [if_neg (mt beq_iff_eq.mp h)]
    exact hno h

end KeepsAt

theorem KeepsAt.ite {d : Prop} [Decidable d] (hp : d → KeepsAt s c pre p m)
    (hq : ¬d → KeepsAt s c pre q m) : KeepsAt s c pre (if d then p else q) m := by
  by_cases h : d
  · rw [if_pos h]
    exact hp h
  · rw [if_neg h]
    exact hq h

namespace Keeps

theorem pure {x : γ} (h : m x = pre) : Keeps source n pre (Pure.pure x) m := fun _ _ _ => .pure h

theorem of_le {k : Nat} (h : Keeps source n pre p m) (hk : k ≤ n) : Keeps source k pre p m :=
  fun s hs hn => h s hs (Nat.le_trans hn hk)

theorem frame (h : Keeps source n [] p m) : Keeps source n pre p fun x => pre ++ m x :=
  fun s hs hn => (h s hs hn).frame

theorem frame_append (h : Keeps source n ms p m) : Keeps source n (pre ++ ms) p fun x => pre ++ m x :=
  fun s hs hn => (h s hs hn).frame_append

theorem bind (hp : Keeps source n pre p m) (hf : ∀ x, Keeps source n (m x) (f x) m') :
    Keeps source n pre (p >>= f) m' :=
  fun s hs hn => (hp s hs hn).bind hs fun x => (hf x).of_le hn

theorem ite {c : Prop} [Decidable c] (hp : Keeps source n pre p m) (hq : Keeps source n pre q m) :
    Keeps source n pre (if c then p else q) m := by
  split
  · exact hp
  · exact hq

theorem get_bind {f : State → Parse δ} (h : ∀ s, Keeps source n pre (f s) m') :
    Keeps source n pre (get >>= f) m' :=
  fun s hs hn => h s s hs hn

theorem map {g : γ → δ} (h : Keeps source n pre p m) (hg : ∀ x, m' (g x) = m x) :
    Keeps source n pre (g <$> p) m' :=
  fun s hs hn => (h s hs hn).map hg

end Keeps

/-! ### Steps -/

variable {kind : TokenKind} {cause : ErrorCause} {close : TokenKind} {start : Nat}
  {k : Kind (Ident Span) (Node Span)}

/-- A reader that changes nothing keeps everything. -/
theorem keeps_of_run_eq (h : ∀ s, (p.run s).2 = s) : Keeps source n pre p fun _ => pre := by
  intro s _ _
  refine ⟨[], (List.append_nil _).symm, ?_, False.elim⟩
  rw [h s]
  exact .refl s

theorem keeps_current : Keeps source n pre current fun _ => pre := keeps_of_run_eq fun _ => rfl

theorem keeps_isAt : Keeps source n pre (isAt kind) fun _ => pre := keeps_of_run_eq fun _ => rfl

theorem keeps_remaining : Keeps source n pre remaining fun _ => pre := keeps_of_run_eq fun _ => rfl

theorem State.reported_eq (s : State) (cause : ErrorCause) (span : Span) :
    ∃ errors, s.reported cause span = { s with errors } ∧ s.errors ⊆ errors ∧
      ∃ e ∈ errors, e.span.start = span.start := by
  obtain ⟨rest, ending, lastEnd, errors⟩ := s
  cases errors with
  | nil => exact ⟨[⟨cause, span⟩], rfl, by simp, ⟨cause, span⟩, by simp, rfl⟩
  | cons e es =>
    simp only [State.reported]
    by_cases h : e.span.start = span.start
    · rw [if_pos h]
      exact ⟨e :: es, rfl, fun _ h => h, e, List.mem_cons_self, h⟩
    · rw [if_neg h]
      exact ⟨⟨cause, span⟩ :: e :: es, rfl, List.subset_cons_self .., ⟨cause, span⟩,
        List.mem_cons_self, rfl⟩

theorem keeps_report {span : Span} : Keeps source n pre (report cause span) fun _ => pre := by
  intro s _ _
  obtain ⟨errors, hreported, hsubset, -⟩ := s.reported_eq cause span
  refine ⟨[], (List.append_nil _).symm, ?_, False.elim⟩
  show Takes s (s.reported cause span) []
  rw [hreported]
  exact ⟨⟨[], rfl, .nil, by simp⟩, rfl, hsubset⟩

theorem keeps_reportHere : Keeps source n pre (reportHere cause) fun _ => pre :=
  keeps_current.bind fun _ => keeps_report

/-- The next token is the first of those that are left. -/
theorem State.Ready.rest_eq (hs : s.Ready source) (h : s.current.kind ≠ .endOfFile) :
    s.rest = s.current :: s.advanced.rest ∧ s.advanced.errors = s.errors := by
  obtain ⟨rest, ending, lastEnd, errors⟩ := s
  cases rest with
  | nil => exact absurd hs.ending h
  | cons t ts => exact ⟨rfl, rfl⟩

theorem State.Ready.current (hs : s.Ready source) (h : s.current.kind ≠ .endOfFile) :
    s.current.CoversIn source :=
  hs.tokens _ ((hs.rest_eq h).1 ▸ List.mem_cons_self)

/-- Only the end of the text is left once it is the next token. -/
theorem State.Ready.rest_eq_nil (hs : s.Ready source) (h : s.current.kind = .endOfFile) : s.rest = [] := by
  cases hrest : s.rest with
  | nil => rfl
  | cons t ts =>
    have ht : s.current = t := by rw [State.current, State.peek, hrest]; rfl
    exact absurd (ht ▸ h) (hs.tokens t (hrest ▸ List.mem_cons_self)).kind_ne

/-- Consuming a token that leaves the marks `ms`. -/
theorem keepsAt_advance (hs : s.Ready source) (h : s.current.kind ≠ .endOfFile)
    (hmarked : Marked [s.current] ms)
    (hunknown : s.current.kind = .unknown → ∃ e ∈ s.errors, e.span.start = s.current.span.start) :
    KeepsAt s True pre advance fun _ => pre ++ ms := by
  obtain ⟨hrest, herrors⟩ := hs.rest_eq h
  refine ⟨ms, rfl, ⟨⟨[s.current], hrest, hmarked, ?_⟩, s.ending_advanced, ?_⟩, fun _ => ?_⟩
  · intro t ht hkind
    obtain rfl := List.mem_singleton.mp ht
    obtain ⟨e, he, hstart⟩ := hunknown hkind
    exact ⟨e, herrors ▸ he, hstart⟩
  · exact fun e he => herrors ▸ he
  · show s.advanced.rest.length < s.rest.length
    rw [hrest]
    exact Nat.lt_succ_self _

/-- Consuming a token that leaves no mark; at the end of the text nothing is consumed. -/
theorem keepsAt_skip (hs : s.Ready source) (hatom : s.current.kind.isAtom = false)
    (hunknown : s.current.kind ≠ .unknown) :
    KeepsAt s (s.current.kind ≠ .endOfFile) pre advance fun _ => pre := by
  by_cases h : s.current.kind = .endOfFile
  · refine ⟨[], (List.append_nil _).symm, ?_, fun hne => absurd h hne⟩
    have hadvanced : s.advanced = s := by rw [State.advanced, hs.rest_eq_nil h]
    show Takes s s.advanced []
    rw [hadvanced]
    exact .refl s
  · have hadvance : KeepsAt s True pre advance fun _ => pre ++ [] :=
      keepsAt_advance hs h (.skip hatom .nil) fun h => absurd h hunknown
    rw [List.append_nil] at hadvance
    exact hadvance.of_true

/-- Whether a token of the kind leaves no mark and is no bad character. -/
def isFiller (kind : TokenKind) : Bool := !kind.isAtom && kind != .unknown && kind != .endOfFile

theorem keepsAt_filler (hs : s.Ready source) (h : isFiller s.current.kind = true) :
    KeepsAt s True pre advance fun _ => pre := by
  simp only [isFiller, Bool.and_eq_true, bne_iff_ne, Bool.not_eq_true'] at h
  exact (keepsAt_skip hs h.1.1 h.1.2).imp fun _ => h.2

theorem keepsAt_eat (hs : s.Ready source) (hfiller : isFiller kind = true) :
    KeepsAt s (s.current.kind = kind) pre (eat kind) fun _ => pre := by
  refine .isAt_ite (fun h => ?_) fun h => ?_
  · exact ((keepsAt_filler hs (h ▸ hfiller)).bind hs fun _ => .pure (m := fun _ => pre) rfl).of_true
  · exact (KeepsAt.pure (m := fun _ => pre) rfl).imp fun h' => h h'

theorem keeps_eat (hfiller : isFiller kind = true) : Keeps source n pre (eat kind) fun _ => pre :=
  fun _ hs _ => (keepsAt_eat hs hfiller).imp False.elim

theorem keepsAt_expect (hs : s.Ready source) (hfiller : isFiller kind = true) :
    KeepsAt s (s.current.kind = kind) pre (expect kind) fun _ => pre :=
  (keepsAt_eat hs hfiller).bind hs fun _ =>
    .ite (.pure rfl) (keeps_reportHere.bind fun _ => .pure rfl)

theorem keeps_expect (hfiller : isFiller kind = true) : Keeps source n pre (expect kind) fun _ => pre :=
  fun _ hs _ => (keepsAt_expect hs hfiller).imp False.elim

theorem keeps_semicolon : Keeps source n pre semicolon fun _ => pre :=
  (keeps_eat rfl).bind fun _ => .ite (.pure rfl) (.get_bind fun _ => .ite (.pure rfl) keeps_reportHere)

theorem keeps_finish (hatom : k.isAtom = false) (halias : k.isTypeAlias = false)
    (hpre : marksBelow k = pre) : Keeps source n pre (finish start k) marks := by
  intro s _ _
  refine ⟨[], ?_, .refl s, False.elim⟩
  rw [List.append_nil, ← hpre]
  exact marks_eq_marksBelow hatom halias

theorem keeps_missingName : Keeps source n pre missingName fun i => pre ++ i.marks :=
  keeps_current.bind fun _ => .pure (by rw [Ident.marks, Ident.toNode, marks_point rfl, List.append_nil])

theorem keeps_missingExpression : Keeps source n [] missingExpression marks :=
  keeps_missingName.bind fun _ => .pure rfl

/-- Consuming a name or a literal that an atom carries. -/
theorem keepsAt_atom (hs : s.Ready source) (hkind : s.current.kind.isAtom = true)
    (hatom : k.isAtom = true) (hcarries : k.Carries s.current.text) :
    KeepsAt s True pre advance fun _ => pre ++ (Node.mk s.current.span k).marks := by
  have hne : ∀ kind : TokenKind, kind.isAtom = false → s.current.kind ≠ kind := by
    rintro kind hkind' rfl
    exact absurd (hkind.symm.trans hkind') (by decide)
  rw [marks_of_isAtom hatom (hs.current (hne _ rfl)).lt]
  refine keepsAt_advance hs (hne _ rfl) (.atom hkind ?_ .nil) fun h => absurd h (hne _ rfl)
  exact (Kind.carries_map_iff _ _ k).mpr hcarries

/-- A name or a literal that is consumed becomes an atom. -/
theorem keepsAt_leaf (hs : s.Ready source) (hkind : s.current.kind.isAtom = true)
    (hatom : k.isAtom = true) (hcarries : k.Carries s.current.text) :
    KeepsAt s c [] (do let _ ← advance; pure (Node.mk s.current.span k)) marks :=
  .of_true ((keepsAt_atom hs hkind hatom hcarries).bind hs fun _ => .pure rfl)

theorem keepsAt_name (hs : s.Ready source) (hkind : s.current.kind = .identifier) :
    KeepsAt s True pre advance fun _ => pre ++ (Ident.mk s.current.span s.current.text).marks :=
  keepsAt_atom hs (hkind ▸ rfl) rfl rfl

theorem keepsAt_declaredName (hs : s.Ready source) :
    KeepsAt s (s.current.kind = .identifier) pre (declaredName cause) fun i => pre ++ i.marks := by
  refine .isAt_ite (fun h => ?_) fun h => ?_
  · exact .of_true ((keepsAt_name hs h).bind_at (.pure rfl))
  · exact ((keeps_reportHere.bind fun _ => keeps_missingName) s hs (Nat.le_refl _)).imp fun h' => h h'

theorem keeps_declaredName : Keeps source n pre (declaredName cause) fun i => pre ++ i.marks :=
  fun _ hs _ => (keepsAt_declaredName hs).imp False.elim

/-- What is read next to a report is read as without it. -/
theorem KeepsAt.report {span : Span} (h : KeepsAt (s.reported cause span) c pre p m) :
    KeepsAt s c pre (do report cause span; p) m := by
  obtain ⟨ms, hm, htakes, hlt⟩ := h
  obtain ⟨errors, hreported, hsubset, -⟩ := s.reported_eq cause span
  have hreport : Takes s (s.reported cause span) [] := by
    rw [hreported]
    exact ⟨⟨[], rfl, .nil, by simp⟩, rfl, hsubset⟩
  have hrest : (s.reported cause span).rest = s.rest := by rw [hreported]
  exact ⟨ms, hm, hreport.trans htakes, fun hc => hrest ▸ hlt hc⟩

theorem State.current_reported (s : State) (cause : ErrorCause) (span : Span) :
    (s.reported cause span).current = s.current := by
  obtain ⟨errors, hreported, -⟩ := s.reported_eq cause span
  rw [hreported]
  rfl

theorem State.rest_reported (s : State) (cause : ErrorCause) (span : Span) :
    (s.reported cause span).rest = s.rest := by
  obtain ⟨errors, hreported, -⟩ := s.reported_eq cause span
  rw [hreported]

theorem State.Ready.reported (hs : s.Ready source) (cause : ErrorCause) (span : Span) :
    (s.reported cause span).Ready source := by
  obtain ⟨errors, hreported, -⟩ := s.reported_eq cause span
  rw [hreported]
  exact ⟨hs.tokens, hs.ending⟩

/-- A token that is reported and then consumed. -/
theorem keepsAt_reportHere_advance (hs : s.Ready source) (hatom : s.current.kind.isAtom = false)
    (hq : Keeps source s.rest.length pre q m) :
    KeepsAt s (s.current.kind ≠ .endOfFile) pre (do reportHere cause; let _ ← advance; q) m := by
  show KeepsAt s _ pre (do report cause s.current.span; let _ ← advance; q) m
  obtain ⟨errors, hreported, -, e, he, hstart⟩ := s.reported_eq cause s.current.span
  have hs' := hs.reported cause s.current.span
  have hcurrent := s.current_reported cause s.current.span
  have hq' : ∀ _ : Token, Keeps source (s.reported cause s.current.span).rest.length pre q m :=
    fun _ => by rwa [s.rest_reported cause s.current.span]
  refine .report (.bind hs' ?_ hq')
  by_cases h : s.current.kind = .endOfFile
  · refine (keepsAt_skip hs' (by rwa [hcurrent]) ?_).imp fun h' => absurd h h'
    rw [hcurrent, h]
    decide
  · have hadvance : KeepsAt (s.reported cause s.current.span) True pre advance fun _ => pre ++ [] :=
      keepsAt_advance hs' (by rwa [hcurrent]) (.skip (by rwa [hcurrent]) .nil)
        fun _ => ⟨e, by rw [hreported]; exact he, by rw [hcurrent, hstart]⟩
    rw [List.append_nil] at hadvance
    exact hadvance.of_true

theorem State.Ready.current_advanced (hs : s.Ready source) (h : s.current.kind ≠ .endOfFile) :
    s.advanced.current = s.peek 1 := by
  obtain ⟨rest, ending, lastEnd, errors⟩ := s
  cases rest with
  | nil => exact absurd hs.ending h
  | cons t ts => rfl

theorem State.Ready.advanced (hs : s.Ready source) : s.advanced.Ready source := by
  obtain ⟨rest, ending, lastEnd, errors⟩ := s
  cases rest with
  | nil => exact hs
  | cons t ts => exact ⟨fun t' ht' => hs.tokens t' (List.mem_cons_of_mem _ ht'), hs.ending⟩

theorem keepsAt_memberName (hs : s.Ready source) (h : s.current.kind.isReservedWord = false) :
    KeepsAt s False pre memberName fun i => pre ++ i.marks := by
  refine .current_bind ?_
  rw [h, Bool.or_false]
  by_cases hname : s.current.kind = .identifier
  · rw [if_pos (beq_iff_eq.mpr hname)]
    exact .of_true ((keepsAt_name hs hname).bind hs fun _ => .pure rfl)
  · rw [if_neg (mt beq_iff_eq.mp hname)]
    exact (keeps_reportHere.bind fun _ => keeps_missingName) s hs (Nat.le_refl _)

/-- The name of a member behind its point; it can be a reserved word. -/
theorem keepsAt_member (hs : s.Ready source) (hpoint : s.current.kind = .dot) :
    KeepsAt s True pre (do let _ ← advance; memberName) fun i => pre ++ i.marks := by
  have hne : s.current.kind ≠ .endOfFile := by
    rw [hpoint]
    decide
  obtain ⟨hrest, herrors⟩ := hs.rest_eq hne
  cases hword : s.advanced.current.kind.isReservedWord with
  | false => exact (keepsAt_filler hs (hpoint ▸ rfl)).bind_at (keepsAt_memberName hs.advanced hword)
  | true =>
    have hne' : s.advanced.current.kind ≠ .endOfFile := by
      intro h
      rw [h] at hword
      exact absurd hword (by decide)
    obtain ⟨hrest', herrors'⟩ := hs.advanced.rest_eq hne'
    have hrun : (do let _ ← advance; memberName : Parse (Ident Span)).run s =
        (⟨s.advanced.current.span, s.advanced.current.text⟩, s.advanced.advanced) := by
      show StateT.run (if (s.advanced.current.kind == .identifier ||
        s.advanced.current.kind.isReservedWord) = true then _ else _ : Parse (Ident Span)) s.advanced = _
      rw [hword, Bool.or_true]
      rfl
    refine ⟨[.atom s.advanced.current.span (.identifier s.advanced.current.text)], ?_, ?_, fun _ => ?_⟩
    · rw [hrun]
      exact congrArg (pre ++ ·) (marks_of_isAtom rfl (hs.advanced.current hne').lt)
    · rw [hrun]
      refine ⟨⟨[s.current, s.advanced.current], ?_, .member hpoint hword rfl .nil, ?_⟩, ?_, ?_⟩
      · rw [hrest, hrest']
        rfl
      · intro t ht hkind
        rcases List.mem_cons.mp ht with rfl | ht
        · rw [hpoint] at hkind
          exact absurd hkind (by decide)
        · obtain rfl := List.mem_singleton.mp ht
          rw [hkind] at hword
          exact absurd hword (by decide)
      · rw [State.ending_advanced, State.ending_advanced]
      · rw [herrors', herrors]
        exact fun _ h => h
    · rw [hrun, hrest, hrest', List.length_cons, List.length_cons]
      show s.advanced.advanced.rest.length < _
      omega

theorem keeps_items {item : NodeParse} (hitem : Keeps source n [] item marks) (r : Nat) :
    Keeps source n [] (items item close r) listMarks := by
  induction r with
  | zero => exact .pure rfl
  | succ r ih =>
    refine keeps_isAt.bind fun _ => keeps_isAt.bind fun _ => .ite (.pure rfl) ?_
    refine hitem.bind fun a => (keeps_eat rfl).bind fun _ => .ite ?_ (.pure (List.append_nil _))
    exact ih.frame.bind fun as => .pure rfl

end Parser

end ScriptAnalysis.Syntax

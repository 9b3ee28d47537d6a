import ScriptAnalysis.Proofs.Syntax.OneTree
import ScriptAnalysis.Proofs.Syntax.Written
import ScriptAnalysis.Proofs.Token.Reprinting

/-!
# Children inside their parents

Where a piece is missing a node is made up, and it stands at the next token or behind the last one, which may
be outside the node it is put into. Nothing else is: on every text a child starts where its parent does or
later, and a child that covers characters stops where its parent does or before. For a node stops where the
last consumed token did, and a child that covers characters stops at a token that was consumed no later.
For the same reason a statement that covers characters stops before the next one starts. An identifier that is
not made up is a token, so its text has the characters of names (`Tree.isNamePart_of_identifier`).

`Gets source s p P` says that the reader `p` goes forward from `s`, and that `P` holds of what it returns and
of the state it ends in; `Node.ReadFrom` is what is said of nodes, with one lemma for each reader.
-/

namespace ScriptAnalysis

open Text

/-- The second span starts where the first one does or later, and if it covers characters it stops where the
first one does or before. -/
structure Span.Holds (s t : Span) : Prop where
  start_le : s.start ≤ t.start
  stop_le : t.start < t.stop → t.stop ≤ s.stop

theorem Span.Holds.trans {s t u : Span} (h : s.Holds t) (h' : t.Holds u) : s.Holds u := by
  refine ⟨Nat.le_trans h.start_le h'.start_le, fun hlt => ?_⟩
  have hstop : u.stop ≤ t.stop := h'.stop_le hlt
  exact Nat.le_trans hstop (h.stop_le (Nat.lt_of_le_of_lt h'.start_le (Nat.lt_of_lt_of_le hlt hstop)))

namespace Syntax

/-- The nodes of the tree hold their children. -/
def Node.HoldsAll (n : Node Span) : Prop := ∀ m ∈ n.nodes, ∀ c ∈ m.children, m.label.Holds c.label

/-- The statements that a statement is made of, one behind the other. -/
def Kind.substatements {ν β : Type} : Kind ν β → List β
  | sourceFile body | block body => body
  | ifStatement _ thenBranch elseBranch? => thenBranch :: elseBranch?.toList
  | whileStatement _ body => [body]
  | _ => []

@[simp] theorem Kind.substatements_map {ν ν' β β' : Type} (f : ν → ν') (g : β → β') (k : Kind ν β) :
    (k.map f g).substatements = k.substatements.map g := by
  cases k <;> simp [map, substatements, Option.toList_map]

/-- A statement that another one is made of stands where a statement can. -/
theorem Kind.mem_parts_of_mem_substatements {ν β : Type} {k : Kind ν β} {n : β} (h : n ∈ k.substatements) :
    (.statement, n) ∈ k.parts := by
  cases k <;> simp [substatements] at h <;> simp [parts, h]

/-- The statements of a node that cover characters are in the order of the text, a return is no empty statement,
and an identifier that has a text is a name. -/
structure Node.Regular (n : Node Span) : Prop where
  apart : n.kind.substatements.Pairwise fun a b => a.label.start < a.label.stop → a.label.stop ≤ b.label.start
  covers : ∀ expr?, n.kind = .returnStatement expr? → n.label.start < n.label.stop
  named : ∀ text, n.kind = .identifier text → text ≠ "" → Word.IsName text

theorem Node.regular_identifier {l : Span} {text : String} (h : text ≠ "" → Word.IsName text) :
    (mk l (.identifier text)).Regular :=
  ⟨.nil, nofun, fun _ hkind => Kind.identifier.inj hkind ▸ h⟩

theorem Node.regular_mk {l : Span} {k : Kind (Ident Span) (Node Span)} (hself : (mk l k).Regular)
    (h : ∀ c ∈ (mk l k).children, ∀ m ∈ c.nodes, m.Regular) : ∀ m ∈ (mk l k).nodes, m.Regular := by
  intro m hm
  rcases mem_nodes_iff.mp hm with hm | rfl
  · obtain ⟨c, hc, hm⟩ := mem_inner_iff.mp hm
    exact h c hc m hm
  · exact hself

theorem Node.holdsAll_mk {l : Span} {k : Kind (Ident Span) (Node Span)}
    (h : ∀ c ∈ (mk l k).children, l.Holds c.label ∧ c.HoldsAll) : (mk l k).HoldsAll := by
  intro m hm c hc
  rcases mem_nodes_iff.mp hm with hm | rfl
  · obtain ⟨c', hc', hm⟩ := mem_inner_iff.mp hm
    exact (h c' hc').2 m hm c hc
  · exact (h c hc).1

/-- The node has been read from the offset on when reading has got to the state: it starts between the two,
and if it covers characters it stops where the last token did or before. -/
structure Node.ReadFrom (lo : Nat) (s : Parser.State) (n : Node Span) : Prop where
  lo_le : lo ≤ n.label.start
  le_offset : n.label.start ≤ s.offset
  stop_le : n.label.start < n.label.stop → n.label.stop ≤ s.lastEnd
  holdsAll : n.HoldsAll
  regular : ∀ m ∈ n.nodes, m.Regular

namespace Node.ReadFrom

variable {lo lo' : Nat} {s s' : Parser.State} {n : Node Span}

theorem of_le (h : n.ReadFrom lo s) (hlo : lo' ≤ lo) : n.ReadFrom lo' s :=
  { h with lo_le := Nat.le_trans hlo h.lo_le }

/-- What has been read stays read. -/
theorem later (h : n.ReadFrom lo s) (hs : s.Reaches s') : n.ReadFrom lo s' :=
  ⟨h.lo_le, Nat.le_trans h.le_offset hs.offset_le, fun hlt => Nat.le_trans (h.stop_le hlt) hs.lastEnd_le,
    h.holdsAll, h.regular⟩

/-- A node has been read from where it starts. -/
theorem from_start (h : n.ReadFrom lo s) : n.ReadFrom n.label.start s := { h with lo_le := Nat.le_refl _ }

/-- What has been read before another node stops before it starts. -/
theorem stop_le_start {m : Node Span} (h : n.ReadFrom lo s) (hm : m.ReadFrom lo' s') (hle : s.lastEnd ≤ lo') :
    n.label.start < n.label.stop → n.label.stop ≤ m.label.start :=
  fun hlt => Nat.le_trans (h.stop_le hlt) (Nat.le_trans hle hm.lo_le)

end Node.ReadFrom

/-- A node that covers nothing, has no children and stands between the two. -/
theorem Node.readFrom_point {lo offset : Nat} {s : Parser.State} {k : Kind (Ident Span) (Node Span)}
    (hk : (mk (.point offset) k).children = []) (hself : (mk (.point offset) k).Regular) (hlo : lo ≤ offset)
    (hle : offset ≤ s.offset) : (mk (.point offset) k).ReadFrom lo s :=
  ⟨hlo, hle, fun hlt => absurd hlt (Nat.lt_irrefl _), holdsAll_mk (hk ▸ List.forall_mem_nil _),
    regular_mk hself (hk ▸ List.forall_mem_nil _)⟩

namespace Parser

variable {source : List Char} {lo start : Nat} {s s' : State} {γ δ : Type} {k : Kind (Ident Span) (Node Span)}

/-- A token that is consumed becomes a node without children. -/
theorem State.Passes.readFrom_leaf (h : s.Passes source s') (hreach : s.Reaches s')
    (hk : (Node.mk s.current.span k).children = []) (hself : (Node.mk s.current.span k).Regular) :
    (Node.mk s.current.span k).ReadFrom s.offset s' :=
  ⟨Nat.le_refl _, hreach.offset_le, fun _ => Nat.le_of_eq h.lastEnd.symm,
    Node.holdsAll_mk (hk ▸ List.forall_mem_nil _), Node.regular_mk hself (hk ▸ List.forall_mem_nil _)⟩

/-- A node that stands where a name does, around the name. -/
theorem readFrom_around_name {i : Ident Span} (h : i.toNode.ReadFrom lo s)
    (hk : (Node.mk i.label k).children = [i.toNode]) (hself : (Node.mk i.label k).Regular) :
    (Node.mk i.label k).ReadFrom lo s := by
  refine ⟨h.lo_le, h.le_offset, h.stop_le, Node.holdsAll_mk ?_, Node.regular_mk hself ?_⟩
  · rw [hk]
    exact List.forall_mem_singleton.mpr ⟨⟨Nat.le_refl _, fun _ => Nat.le_refl _⟩, h.holdsAll⟩
  · rw [hk]
    exact List.forall_mem_singleton.mpr h.regular

/-! ### Rules -/

/-- From one place in a text the reader gets to another one, where `P` holds of what it returns. -/
def Gets (source : List Char) (s : State) (p : Parse γ) (P : γ → State → Prop) : Prop :=
  s.Neat source → (p.run s).2.Neat source ∧ s.Reaches (p.run s).2 ∧ P (p.run s).1 (p.run s).2

variable {p q : Parse γ} {P P' : γ → State → Prop} {Q : δ → State → Prop} {kind : TokenKind}

namespace Gets

theorem pure {x : γ} (h : s.Reaches s → P x s) : Gets source s (Pure.pure x) P :=
  fun hs => ⟨hs, hs.reaches_refl, h hs.reaches_refl⟩

theorem imp (hp : Gets source s p P) (h : ∀ x s', s.Reaches s' → P x s' → P' x s') : Gets source s p P' := by
  intro hs
  obtain ⟨hs', hreach, hP⟩ := hp hs
  exact ⟨hs', hreach, h _ _ hreach hP⟩

theorem bind {f : γ → Parse δ} (hp : Gets source s p P)
    (hf : ∀ x s', s.Reaches s' → P x s' → Gets source s' (f x) Q) : Gets source s (p >>= f) Q := by
  intro hs
  obtain ⟨hs', hreach, hP⟩ := hp hs
  obtain ⟨hs'', hreach', hQ⟩ := hf _ _ hreach hP hs'
  exact ⟨hs'', hreach.trans hreach', hQ⟩

theorem map {g : γ → δ} (hp : Gets source s p P) (hg : ∀ x s', P x s' → Q (g x) s') :
    Gets source s (g <$> p) Q := by
  intro hs
  obtain ⟨hs', hreach, hP⟩ := hp hs
  exact ⟨hs', hreach, hg _ _ hP⟩

theorem some (hp : Gets source s p P) : Gets source s (Option.some <$> p) fun x? s' => ∀ x ∈ x?, P x s' :=
  hp.map fun _ _ hx _ hy => Option.some.inj hy ▸ hx

/-- One of two readers. -/
theorem ite {c : Prop} [Decidable c] (hp : Gets source s p P) (hq : Gets source s q P) :
    Gets source s (if c then p else q) P := by
  split
  · exact hp
  · exact hq

/-- Looking at the state. -/
theorem get_bind {f : State → Parse δ} (h : Gets source s (f s) Q) : Gets source s (get >>= f) Q := h

/-- Looking at the next token. -/
theorem current_bind {f : Token → Parse δ} (h : Gets source s (f s.current) Q) :
    Gets source s (current >>= f) Q := h

/-- Looking whether the next token is of a kind. -/
theorem isAt_bind {f : Bool → Parse δ} (h : Gets source s (f (s.current.kind == kind)) Q) :
    Gets source s (isAt kind >>= f) Q := h

/-- Counting the tokens. -/
theorem remaining_bind {f : Nat → Parse δ} (h : ∀ r, Gets source s (f r) Q) :
    Gets source s (remaining >>= f) Q := h _

/-- Consuming the next token. -/
theorem advance_bind {f : Token → Parse δ} (h : ∀ s', s.Reaches s' →
      (s.current.kind ≠ .endOfFile → s.Passes source s') → Gets source s' (f s.current) Q) :
    Gets source s (advance >>= f) Q := by
  intro hs
  obtain ⟨hs', hreach⟩ := hs.advanced
  obtain ⟨hs'', hreach', hQ⟩ := h _ hreach hs.passes_advanced hs'
  exact ⟨hs'', hreach.trans hreach', hQ⟩

end Gets

/-! ### Steps -/

variable {cause : ErrorCause} {close : TokenKind}

theorem gets_report {span : Span} : Gets source s (report cause span) fun _ _ => True := by
  intro hs
  have hsame : (s.reported cause span).rest = s.rest ∧ (s.reported cause span).ending = s.ending ∧
      (s.reported cause span).lastEnd = s.lastEnd := by
    rw [State.reported]
    split
    · split
      · exact ⟨rfl, rfl, rfl⟩
      · exact ⟨rfl, rfl, rfl⟩
    · exact ⟨rfl, rfl, rfl⟩
  show (s.reported cause span).Neat source ∧ s.Reaches (s.reported cause span) ∧ True
  generalize s.reported cause span = s' at hsame
  obtain ⟨rest, ending, lastEnd, errors⟩ := s
  obtain ⟨rest', ending', lastEnd', errors'⟩ := s'
  obtain ⟨rfl, rfl, rfl⟩ := hsame
  exact ⟨⟨hs.isSuffix, hs.ending, hs.ordered, hs.lastEnd⟩,
    ⟨Nat.le_refl _, Nat.le_refl _, Nat.le_refl _, hs.lastEnd, hs.lastEnd, fun _ => rfl⟩, trivial⟩

theorem gets_reportHere : Gets source s (reportHere cause) fun _ _ => True := .current_bind gets_report

theorem gets_eat : Gets source s (eat kind) fun _ _ => True :=
  .isAt_bind (.ite (.advance_bind fun _ _ _ => .pure fun _ => trivial) (.pure fun _ => trivial))

theorem gets_expect : Gets source s (expect kind) fun _ _ => True :=
  gets_eat.bind fun _ _ _ _ => .ite (.pure fun _ => trivial)
    (gets_reportHere.bind fun _ _ _ _ => .pure fun _ => trivial)

theorem gets_semicolon : Gets source s semicolon fun _ _ => True :=
  gets_eat.bind fun _ _ _ _ => .ite (.pure fun _ => trivial)
    (.get_bind (.ite (.pure fun _ => trivial) gets_reportHere))

/-- A node that is finished holds what has been read from its start on. -/
theorem gets_finish (hself : (Node.mk ⟨start, max s.lastEnd start⟩ k).Regular) (hlo : lo ≤ start)
    (hstart : start ≤ s.offset) (hbelow : ∀ c ∈ (k.map Ident.toNode id).children, c.ReadFrom start s) :
    Gets source s (finish start k) fun n s' => n.ReadFrom lo s' := by
  refine fun hs => ⟨hs, hs.reaches_refl, hlo, hstart, fun hlt => ?_, Node.holdsAll_mk fun c hc => ?_,
    Node.regular_mk hself fun c hc => (hbelow c hc).regular⟩
  · have hlt : start < max s.lastEnd start := hlt
    show max s.lastEnd start ≤ s.lastEnd
    omega
  · have hc := hbelow c hc
    exact ⟨⟨hc.lo_le, fun hlt => Nat.le_trans (hc.stop_le hlt) (Nat.le_max_left ..)⟩, hc.holdsAll⟩

/-- A node from where reading began holds everything that has been read since. -/
theorem gets_finishSince (hself : (Node.mk ⟨s.offset, max s'.lastEnd s.offset⟩ k).Regular)
    (h : s.Reaches s') (hbelow : ∀ c ∈ (k.map Ident.toNode id).children, c.ReadFrom s.offset s') :
    Gets source s' (finish s.current.span.start k) fun n s'' => n.ReadFrom s.offset s'' :=
  gets_finish hself (Nat.le_refl _) h.offset_le hbelow

/-- What stands between two operands starts where the left one does. -/
theorem gets_binary {op : BinaryOperator} {left right : Node Span} (hleft : left.ReadFrom lo s)
    (hright : right.ReadFrom left.label.start s) :
    Gets source s (finish left.label.start (.binary op left right)) fun n s' => n.ReadFrom lo s' :=
  gets_finish ⟨.nil, nofun, nofun⟩ hleft.lo_le hleft.le_offset
    (List.forall_mem_cons.mpr ⟨hleft.from_start, List.forall_mem_singleton.mpr hright⟩)

theorem gets_missingName : Gets source s missingName fun i s' => i.toNode.ReadFrom s.offset s' := by
  refine .current_bind (.pure fun _ => ?_)
  exact Node.readFrom_point rfl (Node.regular_identifier fun h => absurd rfl h) (Nat.le_refl _) (Nat.le_refl _)

theorem gets_missingExpression : Gets source s missingExpression fun n s' => n.ReadFrom s.offset s' :=
  gets_missingName.bind fun _ _ _ hi => .pure fun _ => hi

/-- The name that a consumed token is. -/
theorem State.Passes.readFrom_name (h : s.Passes source s') (hreach : s.Reaches s')
    (hkind : s.current.kind = .identifier ∨ s.current.kind.isReservedWord = true) :
    (Ident.mk s.current.span s.current.text).toNode.ReadFrom s.offset s' :=
  h.readFrom_leaf hreach rfl (Node.regular_identifier fun _ => TokenStream.isName_of_mem_tokens h.token hkind)

theorem gets_declaredName : Gets source s (declaredName cause) fun i s' => i.toNode.ReadFrom s.offset s' := by
  refine .isAt_bind ?_
  split
  · rename_i hat
    have hkind : s.current.kind = .identifier := beq_iff_eq.mp hat
    exact .advance_bind fun s' hreach hpasses => .pure fun _ =>
      (hpasses (by rw [hkind]; decide)).readFrom_name hreach (.inl hkind)
  · exact gets_reportHere.bind fun _ _ hreach _ =>
      gets_missingName.imp fun _ _ _ hi => hi.of_le hreach.offset_le

theorem gets_memberName : Gets source s memberName fun i s' => i.toNode.ReadFrom s.offset s' := by
  refine .current_bind ?_
  split
  · rename_i hword
    refine .advance_bind fun s' hreach hpasses => .pure fun _ => ?_
    refine (hpasses fun hend => ?_).readFrom_name hreach (by simpa using hword)
    rw [hend] at hword
    exact absurd hword (by decide)
  · exact gets_reportHere.bind fun _ _ hreach _ =>
      gets_missingName.imp fun _ _ _ hi => hi.of_le hreach.offset_le

theorem gets_items {item : NodeParse}
    (hitem : ∀ s, Gets source s item fun n s' => n.ReadFrom s.offset s') (r : Nat) :
    Gets source s (items item close r) fun as s' => ∀ a ∈ as, a.ReadFrom s.offset s' := by
  induction r generalizing s with
  | zero => exact .pure fun _ => List.forall_mem_nil _
  | succ r ih =>
    refine .isAt_bind (.isAt_bind (.ite (.pure fun _ => List.forall_mem_nil _) ?_))
    refine (hitem s).bind fun a s₁ h₁ ha => gets_eat.bind fun _ s₂ h₂ _ => .ite ?_ ?_
    · refine ih.bind fun as s₃ h₃ has => .pure fun _ => ?_
      exact List.forall_mem_cons.mpr ⟨ha.later (h₂.trans h₃),
        fun a' ha' => (has a' ha').of_le (h₁.trans h₂).offset_le⟩
    · exact .pure fun _ => List.forall_mem_singleton.mpr (ha.later h₂)

/-- What is below the node of a declaration or of a parameter. -/
theorem readFrom_declaration {i : Ident Span} {t? e? : Option (Node Span)} (hi : i.toNode.ReadFrom lo s)
    (ht : ∀ t ∈ t?, t.ReadFrom lo s) (he : ∀ e ∈ e?, e.ReadFrom lo s) :
    ∀ c ∈ i.toNode :: ((t?.map id).toList ++ (e?.map id).toList), c.ReadFrom lo s := by
  simpa [or_imp, forall_and] using ⟨hi, ht, he⟩

/-! ### Types -/

theorem gets_brackets (r : Nat) {t : Node Span} (ht : t.ReadFrom start s) :
    Gets source s (brackets start r t) fun n s' => n.ReadFrom start s' := by
  induction r generalizing s t with
  | zero => exact .pure fun _ => ht
  | succ r ih =>
    refine .isAt_bind (.get_bind (.ite ?_ (.pure fun _ => ht)))
    refine .advance_bind fun s₁ h₁ _ => .advance_bind fun s₂ h₂ _ => ?_
    have ht := ht.later (h₁.trans h₂)
    have hstart : start ≤ s₂.offset := Nat.le_trans ht.lo_le ht.le_offset
    have hfinish : Gets source s₂ (finish start (.arrayType t)) fun n s' => n.ReadFrom start s' :=
      gets_finish ⟨.nil, nofun, nofun⟩ (Nat.le_refl _) hstart (List.forall_mem_singleton.mpr ht)
    exact hfinish.bind fun _ _ _ ht' => ih ht'

theorem gets_primaryType {type : NodeParse}
    (htype : ∀ s, Gets source s type fun n s' => n.ReadFrom s.offset s') :
    Gets source s (primaryType type) fun n s' => n.ReadFrom s.offset s' := by
  refine .current_bind ?_
  split
  · rename_i hkind
    refine .advance_bind fun s' hreach hpasses => ?_
    have hpasses := hpasses (by rw [hkind]; decide)
    split
    · exact .pure fun _ => hpasses.readFrom_leaf hreach rfl ⟨.nil, nofun, nofun⟩
    · have hname := hpasses.readFrom_name hreach (.inl hkind)
      exact .pure fun _ => readFrom_around_name hname rfl ⟨.nil, nofun, nofun⟩
  · rename_i hkind
    exact .advance_bind fun s' hreach hpasses =>
      .pure fun _ => (hpasses (by rw [hkind]; decide)).readFrom_leaf hreach rfl ⟨.nil, nofun, nofun⟩
  · refine .advance_bind fun s₁ h₁ _ => (htype s₁).bind fun t s₂ _ ht => gets_expect.bind fun _ s₃ h₃ _ => ?_
    exact .pure fun _ => (ht.of_le h₁.offset_le).later h₃
  · refine gets_reportHere.bind fun _ s₁ h₁ _ => gets_missingName.bind fun i s₂ _ hi => .pure fun _ => ?_
    exact readFrom_around_name (hi.of_le h₁.offset_le) rfl ⟨.nil, nofun, nofun⟩

theorem gets_arrayType {type : NodeParse}
    (htype : ∀ s, Gets source s type fun n s' => n.ReadFrom s.offset s') :
    Gets source s (arrayType type) fun n s' => n.ReadFrom s.offset s' :=
  .current_bind ((gets_primaryType htype).bind fun _ _ _ ht => .remaining_bind fun r => gets_brackets r ht)

theorem gets_moreMembers {member : NodeParse}
    (hmember : ∀ s, Gets source s member fun n s' => n.ReadFrom s.offset s') (r : Nat) :
    Gets source s (moreMembers member r) fun ts s' => ∀ t ∈ ts, t.ReadFrom s.offset s' := by
  induction r generalizing s with
  | zero => exact .pure fun _ => List.forall_mem_nil _
  | succ r ih =>
    refine gets_eat.bind fun _ s₁ h₁ _ => .ite ?_ (.pure fun _ => List.forall_mem_nil _)
    refine (hmember s₁).bind fun t s₂ h₂ ht => ih.bind fun ts s₃ h₃ hts => .pure fun _ => ?_
    exact List.forall_mem_cons.mpr ⟨(ht.of_le h₁.offset_le).later h₃,
      fun t' ht' => (hts t' ht').of_le (h₁.trans h₂).offset_le⟩

theorem gets_typeWithin (r : Nat) (s : State) :
    Gets source s (typeWithin r) fun n s' => n.ReadFrom s.offset s' := by
  induction r generalizing s with
  | zero => exact gets_missingExpression
  | succ r ih =>
    refine .current_bind ((gets_arrayType ih).bind fun first s₁ h₁ hfirst => .remaining_bind fun m => ?_)
    refine (gets_moreMembers (fun _ => gets_arrayType ih) m).bind fun ts s₂ h₂ hts => ?_
    cases ts with
    | nil => exact .pure fun _ => hfirst.later h₂
    | cons second more =>
      refine gets_finishSince ⟨.nil, nofun, nofun⟩ (h₁.trans h₂) ?_
      have hmembers := List.forall_mem_cons.mpr ⟨hfirst.later h₂, fun t ht => (hts t ht).of_le h₁.offset_le⟩
      simpa [Kind.map, Kind.children] using hmembers

theorem gets_type : Gets source s type fun n s' => n.ReadFrom s.offset s' :=
  .remaining_bind fun m => gets_typeWithin (m + 1) s

theorem gets_ascription : Gets source s typeAnnotation fun t? s' => ∀ t ∈ t?, t.ReadFrom s.offset s' := by
  refine gets_eat.bind fun _ s₁ h₁ _ => .ite ?_ (.pure fun _ _ h => absurd h (Option.not_mem_none _))
  refine gets_type.bind fun t s₂ _ ht => .pure fun _ => ?_
  exact fun _ h => Option.some.inj h ▸ ht.of_le h₁.offset_le

theorem gets_typeAlias : Gets source s typeAlias fun n s' => n.ReadFrom s.offset s' := by
  refine .advance_bind fun s₁ h₁ _ => gets_declaredName.bind fun i s₂ h₂ hi => ?_
  refine gets_expect.bind fun _ s₃ h₃ _ => gets_type.bind fun t s₄ h₄ ht => ?_
  refine gets_semicolon.bind fun _ s₅ h₅ _ => ?_
  refine gets_finishSince ⟨.nil, nofun, nofun⟩ (h₁.trans (h₂.trans (h₃.trans (h₄.trans h₅)))) ?_
  have hi := (hi.of_le h₁.offset_le).later (h₃.trans (h₄.trans h₅))
  have ht := (ht.of_le (h₁.trans (h₂.trans h₃)).offset_le).later h₅
  exact List.forall_mem_cons.mpr ⟨hi, List.forall_mem_singleton.mpr ht⟩

/-! ### Expressions -/

section

variable {expr : NodeParse} (hexpr : ∀ s, Gets source s expr fun n s' => n.ReadFrom s.offset s')

include hexpr

theorem gets_initializer : Gets source s (initializer expr) fun e? s' => ∀ e ∈ e?, e.ReadFrom s.offset s' := by
  refine gets_eat.bind fun _ s₁ h₁ _ => .ite ?_ (.pure fun _ _ h => absurd h (Option.not_mem_none _))
  refine (hexpr s₁).bind fun e s₂ _ he => .pure fun _ => ?_
  exact fun _ h => Option.some.inj h ▸ he.of_le h₁.offset_le

theorem gets_parameter : Gets source s (parameter expr) fun n s' => n.ReadFrom s.offset s' := by
  refine .current_bind (gets_declaredName.bind fun i s₁ h₁ hi => gets_ascription.bind fun t? s₂ h₂ ht => ?_)
  refine (gets_initializer hexpr).bind fun e? s₃ h₃ he => ?_
  refine gets_finishSince ⟨.nil, nofun, nofun⟩ (h₁.trans (h₂.trans h₃)) ?_
  exact readFrom_declaration (hi.later (h₂.trans h₃)) (fun t hmem => ((ht t hmem).of_le h₁.offset_le).later h₃)
    fun e hmem => (he e hmem).of_le (h₁.trans h₂).offset_le

theorem gets_parameters : Gets source s (parameters expr) fun ps s' => ∀ p ∈ ps, p.ReadFrom s.offset s' := by
  refine gets_expect.bind fun _ s₁ h₁ _ =>
    .ite (.remaining_bind fun r => ?_) (.pure fun _ => List.forall_mem_nil _)
  refine (gets_items (fun _ => gets_parameter hexpr) (r + 1)).bind fun ps s₂ _ hps => ?_
  refine gets_expect.bind fun _ s₃ h₃ _ => .pure fun _ p hp => ?_
  exact ((hps p hp).of_le h₁.offset_le).later h₃

theorem gets_arguments : Gets source s (arguments expr) fun es s' => ∀ e ∈ es, e.ReadFrom s.offset s' := by
  refine gets_expect.bind fun _ s₁ h₁ _ => .remaining_bind fun r => ?_
  refine (gets_items hexpr (r + 1)).bind fun es s₂ _ hes => ?_
  refine gets_expect.bind fun _ s₃ h₃ _ => .pure fun _ e he => ?_
  exact ((hes e he).of_le h₁.offset_le).later h₃

theorem gets_primary : Gets source s (primary expr) fun n s' => n.ReadFrom s.offset s' := by
  refine .current_bind ?_
  have hleaf : ∀ k : Kind (Ident Span) (Node Span), s.current.kind ≠ .endOfFile →
      (Node.mk s.current.span k).children = [] → (Node.mk s.current.span k).Regular →
      Gets source s (do let _ ← advance; pure (Node.mk s.current.span k)) fun n s' => n.ReadFrom s.offset s' :=
    fun k hkind hk hself => .advance_bind fun s' hreach hpasses =>
      .pure fun _ => (hpasses hkind).readFrom_leaf hreach hk hself
  split
  · rename_i hkind
    refine .advance_bind fun s' hreach hpasses => .pure fun _ => ?_
    exact (hpasses (by rw [hkind]; decide)).readFrom_name hreach (.inl hkind)
  · rename_i hkind
    exact hleaf _ (by rw [hkind]; decide) rfl ⟨.nil, nofun, nofun⟩
  · rename_i hkind
    exact hleaf _ (by rw [hkind]; decide) rfl ⟨.nil, nofun, nofun⟩
  · rename_i hkind
    exact hleaf _ (by rw [hkind]; decide) rfl ⟨.nil, nofun, nofun⟩
  · rename_i hkind
    exact hleaf _ (by rw [hkind]; decide) rfl ⟨.nil, nofun, nofun⟩
  · rename_i hkind
    exact hleaf _ (by rw [hkind]; decide) rfl ⟨.nil, nofun, nofun⟩
  · refine .advance_bind fun s₁ h₁ _ => (hexpr s₁).bind fun e s₂ h₂ he => gets_expect.bind fun _ s₃ h₃ _ => ?_
    refine gets_finishSince ⟨.nil, nofun, nofun⟩ (h₁.trans (h₂.trans h₃)) ?_
    exact List.forall_mem_singleton.mpr ((he.of_le h₁.offset_le).later h₃)
  · refine .advance_bind fun s₁ h₁ _ => .remaining_bind fun r => ?_
    refine (gets_items hexpr (r + 1)).bind fun es s₂ h₂ hes => gets_expect.bind fun _ s₃ h₃ _ => ?_
    refine gets_finishSince ⟨.nil, nofun, nofun⟩ (h₁.trans (h₂.trans h₃)) ?_
    have hes : ∀ e ∈ es, e.ReadFrom s.offset s₃ := fun e he => ((hes e he).of_le h₁.offset_le).later h₃
    simpa [Kind.map, Kind.children] using hes
  · refine gets_reportHere.bind fun _ s₁ h₁ _ => .advance_bind fun s₂ h₂ _ => ?_
    exact gets_missingExpression.imp fun _ _ _ hn => hn.of_le (h₁.trans h₂).offset_le
  · exact gets_reportHere.bind fun _ s₁ h₁ _ =>
      gets_missingExpression.imp fun _ _ _ hn => hn.of_le h₁.offset_le

theorem gets_suffixes (r : Nat) {e : Node Span} (he : e.ReadFrom start s) :
    Gets source s (suffixes expr start r e) fun n s' => n.ReadFrom start s' := by
  induction r generalizing s e with
  | zero => exact .pure fun _ => he
  | succ r ih =>
    refine .current_bind ?_
    have hmore : ∀ {s' : State} {k : Kind (Ident Span) (Node Span)}, s.Reaches s' →
        (∀ c ∈ (k.map Ident.toNode id).children, c.ReadFrom start s') →
        (Node.mk ⟨start, max s'.lastEnd start⟩ k).Regular →
        Gets source s' (do suffixes expr start r (← finish start k)) fun n s'' => n.ReadFrom start s'' :=
      fun hreach hbelow hself => (gets_finish hself (Nat.le_refl _)
        (Nat.le_trans (Nat.le_trans he.lo_le he.le_offset) hreach.offset_le) hbelow).bind fun _ _ _ he' => ih he'
    have hlo : start ≤ s.offset := Nat.le_trans he.lo_le he.le_offset
    split
    · refine .advance_bind fun s₁ h₁ _ => gets_memberName.bind fun i s₂ h₂ hi => ?_
      refine hmore (h₁.trans h₂) ?_ ⟨.nil, nofun, nofun⟩
      have hi := hi.of_le (Nat.le_trans hlo h₁.offset_le)
      exact List.forall_mem_cons.mpr ⟨he.later (h₁.trans h₂), List.forall_mem_singleton.mpr hi⟩
    · refine (gets_arguments hexpr).bind fun as s₁ h₁ has => hmore h₁ ?_ ⟨.nil, nofun, nofun⟩
      have hbelow := List.forall_mem_cons.mpr ⟨he.later h₁, fun a ha => (has a ha).of_le hlo⟩
      simpa [Kind.map, Kind.children] using hbelow
    · exact .pure fun _ => he

theorem gets_operand : Gets source s (operand expr) fun n s' => n.ReadFrom s.offset s' :=
  .current_bind ((gets_primary hexpr).bind fun _ _ _ he => .remaining_bind fun r => gets_suffixes hexpr r he)

theorem gets_unary (r : Nat) : Gets source s (unary expr r) fun n s' => n.ReadFrom s.offset s' := by
  induction r generalizing s with
  | zero => exact gets_operand hexpr
  | succ r ih =>
    refine .current_bind ?_
    split
    · refine .advance_bind fun s₁ h₁ _ => ih.bind fun e s₂ h₂ he => ?_
      refine gets_finishSince ⟨.nil, nofun, nofun⟩ (h₁.trans h₂) ?_
      exact List.forall_mem_singleton.mpr (he.of_le h₁.offset_le)
    · exact gets_operand hexpr

theorem gets_operators (r least : Nat) {left : Node Span} (hleft : left.ReadFrom lo s) :
    Gets source s (operators expr r least left) fun n s' => n.ReadFrom lo s' := by
  induction r generalizing lo s least left with
  | zero => exact .pure fun _ => hleft
  | succ r ih =>
    refine .current_bind ?_
    split
    · refine .ite (.pure fun _ => hleft) (.advance_bind fun s₁ h₁ _ => .remaining_bind fun m => ?_)
      refine (gets_unary hexpr m).bind fun first s₂ h₂ hfirst => (ih _ hfirst).bind fun right s₃ h₃ hright => ?_
      have hright := hright.of_le (Nat.le_trans hleft.le_offset h₁.offset_le)
      exact (gets_binary (hleft.later (h₁.trans (h₂.trans h₃))) hright).bind fun _ _ _ hboth => ih least hboth
    · exact .pure fun _ => hleft

/-! ### Statements -/

theorem gets_variableDeclaration {keyword : VariableKind} :
    Gets source s (variableDeclaration expr keyword) fun n s' => n.ReadFrom s.offset s' := by
  refine .current_bind (gets_declaredName.bind fun i s₁ h₁ hi => gets_ascription.bind fun t? s₂ h₂ ht => ?_)
  refine (gets_initializer hexpr).bind fun e? s₃ h₃ he => ?_
  have hfinish : ∀ {s₄ : State}, s₃.Reaches s₄ →
      Gets source s₄ (finish s.current.span.start (.variableDeclaration i t? e?)) fun n s' =>
        n.ReadFrom s.offset s' := by
    intro s₄ h₄
    refine gets_finishSince ⟨.nil, nofun, nofun⟩ (h₁.trans (h₂.trans (h₃.trans h₄))) ?_
    exact readFrom_declaration (hi.later (h₂.trans (h₃.trans h₄)))
      (fun t hmem => ((ht t hmem).of_le h₁.offset_le).later (h₃.trans h₄))
      fun e hmem => ((he e hmem).of_le (h₁.trans h₂).offset_le).later h₄
  refine .ite (gets_report.bind fun _ s₄ h₄ _ => hfinish h₄) fun hs => hfinish hs.reaches_refl hs

theorem gets_variableDeclarations {keyword : VariableKind} (r : Nat) :
    Gets source s (variableDeclarations (variableDeclaration expr keyword) r) fun ds s' =>
      ∀ d ∈ ds, d.ReadFrom s.offset s' := by
  induction r generalizing s with
  | zero =>
    exact (gets_variableDeclaration hexpr).bind fun _ _ _ hd => .pure fun _ => List.forall_mem_singleton.mpr hd
  | succ r ih =>
    refine (gets_variableDeclaration hexpr).bind fun d s₁ h₁ hd => gets_eat.bind fun _ s₂ h₂ _ => .ite ?_ ?_
    · refine ih.bind fun ds s₃ h₃ hds => .pure fun _ => ?_
      exact List.forall_mem_cons.mpr ⟨hd.later (h₂.trans h₃),
        fun d' hd' => (hds d' hd').of_le (h₁.trans h₂).offset_le⟩
    · exact .pure fun _ => List.forall_mem_singleton.mpr (hd.later h₂)

theorem gets_variableStatement {keyword : VariableKind} :
    Gets source s (variableStatement expr keyword) fun n s' => n.ReadFrom s.offset s' := by
  refine .advance_bind fun s₁ h₁ _ => .remaining_bind fun r => ?_
  refine (gets_variableDeclarations hexpr r).bind fun ds s₂ h₂ hds => gets_semicolon.bind fun _ s₃ h₃ _ => ?_
  refine gets_finishSince ⟨.nil, nofun, nofun⟩ (h₁.trans (h₂.trans h₃)) ?_
  have hds : ∀ d ∈ ds, d.ReadFrom s.offset s₃ := fun d hd => ((hds d hd).of_le h₁.offset_le).later h₃
  simpa [Kind.map, Kind.children] using hds

theorem gets_condition : Gets source s (condition expr) fun n s' => n.ReadFrom s.offset s' := by
  refine gets_expect.bind fun _ s₁ h₁ _ => (hexpr s₁).bind fun e s₂ _ he => gets_expect.bind fun _ s₃ h₃ _ => ?_
  exact .pure fun _ => (he.of_le h₁.offset_le).later h₃

theorem gets_returnStatement (hkind : s.current.kind ≠ .endOfFile) :
    Gets source s (returnStatement expr) fun n s' => n.ReadFrom s.offset s' := by
  refine .advance_bind fun s₁ h₁ hpasses => .get_bind ?_
  have hfinish : ∀ {s₂ : State} (e? : Option (Node Span)), s₁.Reaches s₂ →
      (∀ e ∈ e?, e.ReadFrom s₁.offset s₂) → Gets source s₂ (do
        semicolon
        finish s.current.span.start (.returnStatement e?)) fun n s' => n.ReadFrom s.offset s' := by
    refine fun {s₂} e? h₂ he => gets_semicolon.bind fun _ s₃ h₃ _ => ?_
    have hlt : s.offset < s₃.lastEnd := Nat.lt_of_lt_of_le (hpasses hkind).lt (h₂.trans h₃).lastEnd_le
    refine gets_finishSince ⟨.nil, fun _ _ => Nat.lt_of_lt_of_le hlt (Nat.le_max_left ..), nofun⟩
      (h₁.trans (h₂.trans h₃)) ?_
    have he : ∀ e ∈ e?, e.ReadFrom s.offset s₃ := fun e hmem => ((he e hmem).of_le h₁.offset_le).later h₃
    simpa [Kind.map, Kind.children] using he
  refine .ite (fun hs => hfinish none hs.reaches_refl nofun hs) ?_
  exact (hexpr s₁).some.bind fun e? s₂ h₂ he => hfinish e? h₂ he

theorem gets_expressionStatement :
    Gets source s (expressionStatement expr) fun n s' => n.ReadFrom s.offset s' := by
  refine .current_bind ((hexpr s).bind fun e s₁ h₁ he => gets_semicolon.bind fun _ s₂ h₂ _ => ?_)
  refine gets_finishSince ⟨.nil, nofun, nofun⟩ (h₁.trans h₂) ?_
  exact List.forall_mem_singleton.mpr (he.later h₂)

end

section

variable {statement : Parse (Option (Node Span))}
  (hstatement : ∀ s, Gets source s statement fun a? s' => ∀ a ∈ a?, a.ReadFrom s.offset s')

include hstatement

theorem gets_statements (r : Nat) :
    Gets source s (statements statement close r) fun as s' => (∀ a ∈ as, a.ReadFrom s.offset s') ∧
      as.Pairwise fun a b => a.label.start < a.label.stop → a.label.stop ≤ b.label.start := by
  induction r generalizing s with
  | zero => exact .pure fun _ => ⟨List.forall_mem_nil _, .nil⟩
  | succ r ih =>
    refine .isAt_bind (.isAt_bind (.ite (.pure fun _ => ⟨List.forall_mem_nil _, .nil⟩)
      (.remaining_bind fun _ => ?_)))
    refine (hstatement s).bind fun a? s₁ h₁ ha => .remaining_bind fun _ => ?_
    have hmore : ∀ {s₂ : State}, s₁.Reaches s₂ → Gets source s₂ (do
        let more ← statements statement close r
        pure (a?.toList ++ more)) fun as s' => (∀ a ∈ as, a.ReadFrom s.offset s') ∧
          as.Pairwise fun a b => a.label.start < a.label.stop → a.label.stop ≤ b.label.start := by
      refine fun {s₂} h₂ => ih.bind fun more s₃ h₃ ⟨hmore, happart⟩ => .pure fun _ =>
        ⟨List.forall_mem_append.mpr ⟨fun a hmem => ?_, fun a hmem => ?_⟩,
          List.pairwise_append.mpr ⟨?_, happart, fun a hmem b hb => ?_⟩⟩
      · exact (ha a (Option.mem_toList.mp hmem)).later (h₂.trans h₃)
      · exact (hmore a hmem).of_le (h₁.trans h₂).offset_le
      · cases a? <;> simp
      · exact (ha a (Option.mem_toList.mp hmem)).stop_le_start (hmore b hb)
          (Nat.le_trans h₁.stop_le h₂.offset_le)
    exact .ite (.advance_bind fun s₂ h₂ _ => hmore h₂) fun hs => hmore hs.reaches_refl hs

theorem gets_block : Gets source s (block statement) fun n s' => n.ReadFrom s.offset s' := by
  refine .current_bind (gets_expect.bind fun _ s₁ h₁ _ => .remaining_bind fun r => ?_)
  refine (gets_statements hstatement (r + 1)).bind fun as s₂ h₂ ⟨has, happart⟩ => gets_expect.bind fun _ s₃ h₃ _ => ?_
  refine gets_finishSince ⟨happart, nofun, nofun⟩ (h₁.trans (h₂.trans h₃)) ?_
  have has : ∀ a ∈ as, a.ReadFrom s.offset s₃ := fun a ha => ((has a ha).of_le h₁.offset_le).later h₃
  simpa [Kind.map, Kind.children] using has

/-- A statement that is missing stands behind the last token, and not at the next one. -/
theorem gets_embedded : Gets source s (embedded statement) fun n s' => n.ReadFrom s.lastEnd s' := by
  refine (hstatement s).bind fun a? s₁ h₁ ha => ?_
  cases a? with
  | some a => exact .pure fun _ => (ha a rfl).of_le h₁.start_le
  | none =>
    refine .get_bind (.pure fun hrefl => ?_)
    exact Node.readFrom_point rfl ⟨.nil, nofun, nofun⟩ h₁.lastEnd_le hrefl.start_le

variable {expr : NodeParse} (hexpr : ∀ s, Gets source s expr fun n s' => n.ReadFrom s.offset s')

include hexpr

theorem gets_arrowFunction :
    Gets source s (arrowFunction statement expr) fun n s' => n.ReadFrom s.offset s' := by
  refine .current_bind ?_
  have hrest : ∀ {s₁ : State} (ps : List (Node Span)), s.Reaches s₁ → (∀ p ∈ ps, p.ReadFrom s.offset s₁) →
      Gets source s₁ (do
        let returnType? ← typeAnnotation
        let _ ← expect .arrow
        let body ← if ← isAt .leftBrace then block statement else expr
        finish s.current.span.start (.arrowFunction ps returnType? body)) fun n s' => n.ReadFrom s.offset s' := by
    refine fun {s₁} ps h₁ hps => gets_ascription.bind fun t? s₂ h₂ ht => gets_expect.bind fun _ s₃ h₃ _ => ?_
    have hfinish : ∀ {s₄ : State} (b : Node Span), s₃.Reaches s₄ → b.ReadFrom s₃.offset s₄ →
        Gets source s₄ (finish s.current.span.start (.arrowFunction ps t? b)) fun n s' =>
          n.ReadFrom s.offset s' := by
      intro s₄ b h₄ hb
      refine gets_finishSince ⟨.nil, nofun, nofun⟩ (h₁.trans (h₂.trans (h₃.trans h₄))) ?_
      have hps : ∀ p ∈ ps, p.ReadFrom s.offset s₄ := fun p hp => (hps p hp).later (h₂.trans (h₃.trans h₄))
      have ht : ∀ t ∈ t?, t.ReadFrom s.offset s₄ :=
        fun t hmem => ((ht t hmem).of_le h₁.offset_le).later (h₃.trans h₄)
      have hb : b.ReadFrom s.offset s₄ := hb.of_le (h₁.trans (h₂.trans h₃)).offset_le
      simpa [Kind.map, Kind.children, or_imp, forall_and] using ⟨hps, ht, hb⟩
    refine .isAt_bind (.ite ?_ ?_)
    · exact (gets_block hstatement).bind fun b s₄ h₄ hb => hfinish b h₄ hb
    · exact (hexpr s₃).bind fun b s₄ h₄ hb => hfinish b h₄ hb
  refine .isAt_bind (.ite ?_ ((gets_parameters hexpr).bind fun ps s₁ h₁ hps => hrest ps h₁ hps))
  refine gets_declaredName.bind fun i s₁ h₁ hi => hrest _ h₁ ?_
  exact List.forall_mem_singleton.mpr (readFrom_around_name hi rfl ⟨.nil, nofun, nofun⟩)

theorem gets_assignment : Gets source s (assignment statement expr) fun n s' => n.ReadFrom s.offset s' := by
  refine .get_bind (.ite (gets_arrowFunction hstatement hexpr) (.remaining_bind fun m => ?_))
  refine (gets_unary hexpr m).bind fun first s₁ h₁ hfirst => .remaining_bind fun m => ?_
  refine (gets_operators hexpr m 0 hfirst).bind fun left s₂ h₂ hleft => .current_bind ?_
  split
  · rename_i op _
    have hright : ∀ {s₃ : State}, s₂.Reaches s₃ → Gets source s₃ (do
        let _ ← advance
        let right ← expr
        finish left.label.start (.binary op left right)) fun n s' => n.ReadFrom s.offset s' := by
      refine fun {s₃} h₃ => .advance_bind fun s₄ h₄ _ => (hexpr s₄).bind fun right s₅ h₅ hright => ?_
      exact gets_binary (hleft.later (h₃.trans (h₄.trans h₅)))
        (hright.of_le (Nat.le_trans hleft.le_offset (h₃.trans h₄).offset_le))
    exact .ite (gets_report.bind fun _ s₃ h₃ _ => hright h₃) fun hs => hright hs.reaches_refl hs
  · exact .pure fun _ => hleft

theorem gets_functionDeclaration (hkind : s.current.kind ≠ .endOfFile) :
    Gets source s (functionDeclaration statement expr) fun n s' => n.ReadFrom s.offset s' := by
  refine .advance_bind fun s₁ h₁ hpasses => gets_declaredName.bind fun i s₂ h₂ hi => ?_
  refine (gets_parameters hexpr).bind fun ps s₃ h₃ hps => gets_ascription.bind fun t? s₄ h₄ ht => ?_
  have hfinish : ∀ {s₅ : State} (b : Node Span), s₄.Reaches s₅ → b.ReadFrom s.offset s₅ →
      Gets source s₅ (finish s.current.span.start (.functionDeclaration i ps t? b)) fun n s' =>
        n.ReadFrom s.offset s' := by
    intro s₅ b h₅ hb
    refine gets_finishSince ⟨.nil, nofun, nofun⟩ (h₁.trans (h₂.trans (h₃.trans (h₄.trans h₅)))) ?_
    have hi : i.toNode.ReadFrom s.offset s₅ := (hi.of_le h₁.offset_le).later (h₃.trans (h₄.trans h₅))
    have hps : ∀ p ∈ ps, p.ReadFrom s.offset s₅ :=
      fun p hp => ((hps p hp).of_le (h₁.trans h₂).offset_le).later (h₄.trans h₅)
    have ht : ∀ t ∈ t?, t.ReadFrom s.offset s₅ :=
      fun t hmem => ((ht t hmem).of_le (h₁.trans (h₂.trans h₃)).offset_le).later h₅
    simpa [Kind.map, Kind.children, or_imp, forall_and] using ⟨hi, hps, ht, hb⟩
  have hlo : s.offset ≤ s₁.lastEnd := Nat.le_of_lt (hpasses hkind).lt
  refine .isAt_bind (.ite ?_ ?_)
  · refine (gets_block hstatement).bind fun b s₅ h₅ hb => hfinish b h₅ (hb.of_le ?_)
    exact (h₁.trans (h₂.trans (h₃.trans h₄))).offset_le
  · refine gets_reportHere.bind fun _ s₅ h₅ _ => .get_bind (hfinish _ h₅ ?_)
    refine Node.readFrom_point rfl ⟨.nil, nofun, nofun⟩ (Nat.le_trans hlo ?_) h₅.stop_le
    exact (h₂.trans (h₃.trans (h₄.trans h₅))).lastEnd_le

theorem gets_ifStatement (hkind : s.current.kind ≠ .endOfFile) :
    Gets source s (ifStatement statement expr) fun n s' => n.ReadFrom s.offset s' := by
  refine .advance_bind fun s₁ h₁ hpasses => (gets_condition hexpr).bind fun c s₂ h₂ hc => ?_
  refine (gets_embedded hstatement).bind fun a s₃ h₃ ha => gets_eat.bind fun _ s₄ h₄ _ => ?_
  have hlo : s.offset ≤ s₁.lastEnd := Nat.le_of_lt (hpasses hkind).lt
  have hfinish : ∀ {s₅ : State} (b? : Option (Node Span)), s₄.Reaches s₅ →
      (∀ b ∈ b?, b.ReadFrom s₄.lastEnd s₅) →
      Gets source s₅ (finish s.current.span.start (.ifStatement c a b?)) fun n s' => n.ReadFrom s.offset s' := by
    intro s₅ b? h₅ hb
    have happart : (a :: b?.toList).Pairwise fun a b =>
        a.label.start < a.label.stop → a.label.stop ≤ b.label.start := by
      refine List.pairwise_cons.mpr ⟨fun b hmem => ?_, by cases b? <;> simp⟩
      exact ha.stop_le_start (hb b (Option.mem_toList.mp hmem)) h₄.lastEnd_le
    refine gets_finishSince ⟨happart, nofun, nofun⟩ (h₁.trans (h₂.trans (h₃.trans (h₄.trans h₅)))) ?_
    have hc : c.ReadFrom s.offset s₅ := (hc.of_le h₁.offset_le).later (h₃.trans (h₄.trans h₅))
    have ha : a.ReadFrom s.offset s₅ := (ha.of_le (Nat.le_trans hlo h₂.lastEnd_le)).later (h₄.trans h₅)
    have hb : ∀ b ∈ b?, b.ReadFrom s.offset s₅ :=
      fun b hmem => (hb b hmem).of_le (Nat.le_trans hlo (h₂.trans (h₃.trans h₄)).lastEnd_le)
    simpa [Kind.map, Kind.children] using ⟨hc, ha, hb⟩
  refine .ite ?_ fun hs => hfinish none hs.reaches_refl nofun hs
  exact (gets_embedded hstatement).some.bind fun b? s₅ h₅ hb => hfinish b? h₅ hb

theorem gets_whileStatement (hkind : s.current.kind ≠ .endOfFile) :
    Gets source s (whileStatement statement expr) fun n s' => n.ReadFrom s.offset s' := by
  refine .advance_bind fun s₁ h₁ hpasses => (gets_condition hexpr).bind fun c s₂ h₂ hc => ?_
  refine (gets_embedded hstatement).bind fun a s₃ h₃ ha => ?_
  have hlo : s.offset ≤ s₁.lastEnd := Nat.le_of_lt (hpasses hkind).lt
  refine gets_finishSince ⟨List.pairwise_singleton _ _, nofun, nofun⟩ (h₁.trans (h₂.trans h₃)) ?_
  exact List.forall_mem_cons.mpr ⟨(hc.of_le h₁.offset_le).later h₃,
    List.forall_mem_singleton.mpr (ha.of_le (Nat.le_trans hlo h₂.lastEnd_le))⟩

theorem gets_anyStatement :
    Gets source s (anyStatement statement expr) fun a? s' => ∀ a ∈ a?, a.ReadFrom s.offset s' := by
  refine .get_bind ?_
  split
  · exact (gets_block hstatement).some
  · exact (gets_variableStatement hexpr).some
  · exact (gets_variableStatement hexpr).some
  · exact (gets_variableStatement hexpr).some
  · rename_i hkind
    exact (gets_functionDeclaration hstatement hexpr (by rw [hkind]; decide)).some
  · rename_i hkind
    exact (gets_ifStatement hstatement hexpr (by rw [hkind]; decide)).some
  · rename_i hkind
    exact (gets_whileStatement hstatement hexpr (by rw [hkind]; decide)).some
  · rename_i hkind
    exact (gets_returnStatement hexpr (by rw [hkind]; decide)).some
  · refine .advance_bind fun s₁ h₁ _ => Gets.some ?_
    exact gets_finishSince ⟨.nil, nofun, nofun⟩ h₁ (List.forall_mem_nil _)
  · refine gets_reportHere.bind fun _ _ _ _ => .advance_bind fun _ _ _ => .pure fun _ => ?_
    exact fun _ h => absurd h (Option.not_mem_none _)
  · refine .ite gets_typeAlias.some (.ite (gets_expressionStatement hexpr).some ?_)
    refine gets_reportHere.bind fun _ _ _ _ => .advance_bind fun _ _ _ => .pure fun _ => ?_
    exact fun _ h => absurd h (Option.not_mem_none _)

end

/-- Statements and expressions are read from where they begin, at every depth. -/
theorem gets_nested (r : Nat) :
    (∀ s, Gets source s (statement r) fun a? s' => ∀ a ∈ a?, a.ReadFrom s.offset s') ∧
      ∀ s, Gets source s (expression r) fun n s' => n.ReadFrom s.offset s' := by
  induction r with
  | zero =>
    exact ⟨fun _ => .pure fun _ _ h => absurd h (Option.not_mem_none _), fun _ => gets_missingExpression⟩
  | succ r ih =>
    obtain ⟨hstatement, hexpr⟩ := ih
    exact ⟨fun _ => gets_anyStatement hstatement hexpr, fun _ => gets_assignment hstatement hexpr⟩

theorem gets_sourceFile : Gets source s sourceFile fun as s' => (∀ a ∈ as, a.ReadFrom s.offset s') ∧
    as.Pairwise fun a b => a.label.start < a.label.stop → a.label.stop ≤ b.label.start :=
  .remaining_bind fun left => gets_statements (gets_nested _).1 (left + 1)

end Parser

/-! ### The tree of a text -/

/-- Whatever the text says, the statements of its tree that cover characters are in the order of the text, and
its identifiers are names. -/
theorem regular_ofChars (source : List Char) :
    ∀ m ∈ (parseTokens (.ofChars source)).1.nodes, m.Regular := by
  have hinitial : (Parser.State.initial (.ofChars source)).Neat source := Parser.State.neat_initial
  obtain ⟨-, -, hbody, happart⟩ := Parser.gets_sourceFile hinitial
  rw [parseTokens_eq]
  refine Node.regular_mk ⟨happart, nofun, nofun⟩ fun c hc => ?_
  exact (hbody c (by simpa [Kind.map, Kind.children] using hc)).regular

/-- Whatever the text says, the nodes of its tree hold their children. -/
theorem holdsAll_ofChars (source : List Char) : (parseTokens (.ofChars source)).1.HoldsAll := by
  have hinitial : (Parser.State.initial (.ofChars source)).Neat source := Parser.State.neat_initial
  obtain ⟨hneat, -, hbody, -⟩ := Parser.gets_sourceFile hinitial
  rw [parseTokens_eq, TokenStream.span_ending_ofChars]
  refine Node.holdsAll_mk fun c hc => ?_
  have hread := hbody c (by simpa [Kind.map, Kind.children] using hc)
  refine ⟨⟨Nat.zero_le _, fun hlt => ?_⟩, hread.holdsAll⟩
  exact Nat.le_trans (hread.stop_le hlt) (Nat.le_trans hneat.lastEnd hneat.offset_le)

namespace Tree

variable {fileName text : String} {n : Node Place}

theorem holds_of_mem_children (hn : n ∈ (parse fileName text).root.nodes) {c : Node Place}
    (hc : c ∈ n.children) : n.span.Holds c.span := by
  have hmem : n.map Place.span ∈ (parseTokens (.ofChars text.toList)).1.nodes := by
    rw [← map_span_root_parse fileName text, Node.nodes_map]
    exact List.mem_map_of_mem hn
  have hholds := holdsAll_ofChars text.toList _ hmem (c.map Place.span) ?_
  · rwa [Node.label_map, Node.label_map] at hholds
  · rw [Node.children_map]
    exact List.mem_map_of_mem hc

/-- What stands in a node somewhere is inside it as far as it covers characters. -/
theorem holds_of_mem_nodes (hn : n ∈ (parse fileName text).root.nodes) {m : Node Place} (hm : m ∈ n.nodes) :
    n.span.Holds m.span := by
  induction n using Node.induction_children with
  | h n ih =>
    rcases Node.mem_nodes_iff.mp hm with hm | rfl
    · obtain ⟨c, hc, hm⟩ := Node.mem_inner_iff.mp hm
      have hc' := Node.nodes_subset_of_mem_nodes hn (Node.nodes_subset_of_mem_children hc c.mem_nodes_self)
      exact (holds_of_mem_children hn hc).trans (ih c hc hc' hm)
    · exact ⟨Nat.le_refl _, fun _ => Nat.le_refl _⟩

theorem regular (hn : n ∈ (parse fileName text).root.nodes) : (n.map Place.span).Regular := by
  refine regular_ofChars text.toList _ ?_
  rw [← map_span_root_parse fileName text, Node.nodes_map]
  exact List.mem_map_of_mem hn

/-- The statements that a node is made of are in the order of the text as far as they cover characters. -/
theorem pairwise_substatements (hn : n ∈ (parse fileName text).root.nodes) :
    n.kind.substatements.Pairwise fun a b => a.span.start < a.span.stop → a.span.stop ≤ b.span.start := by
  have happart := (regular hn).apart
  rw [Node.kind_map, Kind.substatements_map, List.pairwise_map] at happart
  simp only [Node.label_map] at happart
  exact happart

/-- A return covers characters. -/
theorem lt_of_returnStatement (hn : n ∈ (parse fileName text).root.nodes) {expr? : Option (Node Place)}
    (hkind : n.kind = .returnStatement expr?) : n.span.start < n.span.stop := by
  have hcovers := (regular hn).covers (expr?.map (Node.map Place.span)) (by rw [Node.kind_map, hkind]; rfl)
  rwa [Node.label_map] at hcovers

/-- An identifier has the characters of a name, or none. -/
theorem isNamePart_of_identifier (hn : n ∈ (parse fileName text).root.nodes) {name : String}
    (hkind : n.kind = .identifier name) : ∀ c ∈ name.toList, Lexeme.isNamePart c = true := by
  have hnamed := (regular hn).named name (by rw [Node.kind_map, hkind]; rfl)
  by_cases hempty : name = ""
  · subst hempty
    exact fun c hc => absurd hc List.not_mem_nil
  · obtain ⟨c, cs, hchars, hstart, hparts⟩ := hnamed hempty
    rw [hchars]
    exact List.forall_mem_cons.mpr ⟨Bool.or_eq_true_iff.mpr (.inl hstart), List.all_eq_true.mp hparts⟩

/-- Without errors the children of a node follow one another inside it. -/
theorem row_children (herrors : (parse fileName text).errors = []) (hn : n ∈ (parse fileName text).root.nodes) :
    Span.Row n.span.start (n.children.map Node.span) n.span.stop := by
  have hspans : (n.map Place.span).children.map Node.label = n.children.map Node.span := by
    rw [Node.children_map, List.map_map]
    exact List.map_congr_left fun c _ => Node.label_map ..
  rw [← hspans]
  cases hfile : n.kind.fits .file with
  | false =>
    have hrow := (proper_of_mem_nodes herrors hn hfile).arranged.row
    rwa [Node.label_map] at hrow
  | true =>
    obtain rfl := (fits_file_iff fileName text hn).mp hfile
    have hspan : (parse fileName text).root.span = ⟨0, byteLength text.toList⟩ := by
      have hlabel := Node.label_map Place.span (parse fileName text).root
      rw [map_span_root_parse, parseTokens_eq, TokenStream.span_ending_ofChars] at hlabel
      exact hlabel.symm
    have hstands := stands_statements herrors
    rw [hspan, Node.children_map, children_root_parse]
    generalize (parse fileName text).statements.map (Node.map Place.span) = ns at hstands ⊢
    exact Span.Row.of_le hstands.row (Nat.zero_le _) (Nat.le_refl _)

/-- The children of nodes are inside them as far as they cover characters, and altogether if the text has no
errors. -/
structure NestsSpans (t : Tree) : Prop where
  /-- A child starts where its parent does or later. -/
  start_le : ∀ id n, t.node? id = some n → ∀ c ∈ n.children, n.span.start ≤ c.span.start
  /-- A child that is not empty stops where its parent does or before. -/
  stop_le : ∀ id n, t.node? id = some n → ∀ c ∈ n.children, c.span.isEmpty = false → c.span.stop ≤ n.span.stop
  /-- Without errors every child lies inside its parent. -/
  inside : t.errors = [] → ∀ id n, t.node? id = some n → ∀ c ∈ n.children,
    n.span.start ≤ c.span.start ∧ c.span.stop ≤ n.span.stop
  /-- Without errors the children of a node do not overlap and are in the order of the text. -/
  apart : t.errors = [] → ∀ id n, t.node? id = some n → n.children.Pairwise (·.span.stop ≤ ·.span.start)

end Tree

end Syntax

end ScriptAnalysis

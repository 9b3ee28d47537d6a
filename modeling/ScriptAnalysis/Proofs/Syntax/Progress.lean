import Mathlib.Logic.Relation
import ScriptAnalysis.Proofs.Syntax.Performing

/-!
# Reading makes progress

The routines of reading call each other without any bound, and yet every call comes to an end: before a call
comes back to its routine, or a loop goes on to the next round, a token has been taken. The measure is the
number of tokens left and then the level of the routine; a call made inside a call makes it smaller
(`below_of_transGen`). So each reader with its bounds does what its routine does, every statement takes a
token, and a whole text is read to its end (`progresses_of_ended`).

Looking ahead for the arrow of a function is a step and not a loop of the routines: `State.closesBeforeArrow`
goes along the tokens, one after the other, and takes none.
-/

namespace ScriptAnalysis.Syntax.Parser

open Relation

variable {s t : State} {n : Nat} {close : TokenKind}

/-! ### The reader of every routine -/

/-- A statement, nested as deep as there may be tokens for. -/
def nestedStatement : Parse (Option (Node Span)) := do statement (2 * (← remaining) + 2)

/-- An expression, nested as deep as there may be tokens for. -/
def nestedExpression : NodeParse := do expression (2 * (← remaining) + 1)

/-- The reader of an item. -/
def Item.reader : Item → NodeParse
  | parameter => Parser.parameter nestedExpression
  | value => nestedExpression

/-- The reader of a routine, with the bounds that the number of tokens left gives. -/
def Routine.reader : (c : Routine) → Parse c.Result
  | type => Parser.type
  | arrayType => Parser.arrayType Parser.type
  | primaryType => Parser.primaryType Parser.type
  | brackets start t => do Parser.brackets start (← remaining) t
  | members => do moreMembers (Parser.arrayType Parser.type) (← remaining)
  | ascription => typeAnnotation
  | expression => nestedExpression
  | arrowFunction => Parser.arrowFunction nestedStatement nestedExpression
  | parameters => Parser.parameters nestedExpression
  | parameter => Parser.parameter nestedExpression
  | items item close => do Parser.items item.reader close (← remaining)
  | binary least => do
    let first ← Parser.unary nestedExpression (← remaining)
    Parser.operators nestedExpression (← remaining) least first
  | operators least left => do Parser.operators nestedExpression (← remaining) least left
  | unary => do Parser.unary nestedExpression (← remaining)
  | operand => Parser.operand nestedExpression
  | primary => Parser.primary nestedExpression
  | suffixes start e => do Parser.suffixes nestedExpression start (← remaining) e
  | arguments => Parser.arguments nestedExpression
  | statement => nestedStatement
  | statements close => do Parser.statements nestedStatement close (← remaining)
  | embedded => Parser.embedded nestedStatement
  | block => Parser.block nestedStatement
  | variableStatement keyword => Parser.variableStatement nestedExpression keyword
  | declarations keyword => do
    variableDeclarations (variableDeclaration nestedExpression keyword) (← remaining)
  | declaration keyword => variableDeclaration nestedExpression keyword
  | functionDeclaration => Parser.functionDeclaration nestedStatement nestedExpression
  | typeAlias => Parser.typeAlias
  | ifStatement => Parser.ifStatement nestedStatement nestedExpression
  | whileStatement => Parser.whileStatement nestedStatement nestedExpression
  | returnStatement => Parser.returnStatement nestedExpression
  | expressionStatement => Parser.expressionStatement nestedExpression

/-- With the bounds that the number of tokens left gives, each reader does what its routine does. -/
theorem performs_reader (n : Nat) (c : Routine) : Performs n c c.reader := by
  have hstatement : ∀ n, Performs n .statement nestedStatement :=
    fun n => .of_remaining fun m _ => (performs_nested _ m).1 (Nat.le_refl _)
  have hexpr : ∀ n, Performs n .expression nestedExpression :=
    fun n => .of_remaining fun m _ => (performs_nested _ m).2 (Nat.le_refl _)
  have hmember : ∀ m, Performs m .arrayType (arrayType Parser.type) :=
    fun m => performs_arrayType fun _ _ => performs_type
  cases c with
  | type => exact performs_type
  | arrayType => exact hmember n
  | primaryType => exact performs_primaryType fun _ _ => performs_type
  | brackets start t => exact .of_remaining fun m _ => performs_brackets (Nat.le_refl m) t
  | members => exact .of_remaining fun m _ => performs_members (fun k _ => hmember k) (Nat.le_refl m)
  | ascription => exact performs_ascription
  | expression => exact hexpr n
  | arrowFunction => exact performs_arrowFunction (fun k _ => hstatement k) fun k _ => hexpr k
  | parameters => exact performs_parameters fun k _ => hexpr k
  | parameter => exact performs_parameter fun k _ => hexpr k
  | items item close =>
    refine .of_remaining fun m _ => performs_items ?_ (Nat.le_refl m)
    cases item with
    | parameter => exact performs_parameter fun k _ => hexpr k
    | value => exact hexpr m
  | binary least =>
    exact performs_binary (fun k _ => hexpr k) fun left => .of_remaining fun m _ =>
      performs_operators (fun k _ => hexpr k) (Nat.le_refl m) least left
  | operators least left =>
    exact .of_remaining fun m _ => performs_operators (fun k _ => hexpr k) (Nat.le_refl m) least left
  | unary => exact .of_remaining fun m _ => performs_unary (fun k _ => hexpr k) (Nat.le_refl m)
  | operand => exact performs_operand fun k _ => hexpr k
  | primary => exact performs_primary fun k _ => hexpr k
  | suffixes start e =>
    exact .of_remaining fun m _ => performs_suffixes (fun k _ => hexpr k) (Nat.le_refl m) e
  | arguments => exact performs_arguments fun k _ => hexpr k
  | statement => exact hstatement n
  | statements close => exact .of_remaining fun m _ => performs_statements (hstatement m) (Nat.le_refl m)
  | embedded => exact performs_embedded (hstatement n)
  | block => exact performs_block fun k _ => hstatement k
  | variableStatement keyword => exact performs_variableStatement fun k _ => hexpr k
  | declarations keyword =>
    exact .of_remaining fun m _ =>
      performs_declarations (performs_declaration fun k _ => hexpr k) (Nat.le_refl m)
  | declaration keyword => exact performs_declaration fun k _ => hexpr k
  | functionDeclaration => exact performs_functionDeclaration (fun k _ => hstatement k) fun k _ => hexpr k
  | typeAlias => exact performs_typeAlias
  | ifStatement => exact performs_ifStatement (fun k _ => hstatement k) fun k _ => hexpr k
  | whileStatement => exact performs_whileStatement (fun k _ => hstatement k) fun k _ => hexpr k
  | returnStatement => exact performs_returnStatement fun k _ => hexpr k
  | expressionStatement => exact performs_expressionStatement (hexpr n)

section

variable (c : Routine) (hs : s.Ended) (hfits : c.Fits s)

include hs hfits

/-- A routine comes to an end in one way, which is what its reader does. -/
theorem runs_body_iff :
    ∃ calls, ∀ calls' r, Runs c.body s calls' r ↔ calls' = calls ∧ r = c.reader.run s := by
  obtain ⟨-, calls, hruns, -⟩ := performs_reader _ c s hs (Nat.le_refl _) hfits
  refine ⟨calls, fun calls' r => ⟨hruns.unique, ?_⟩⟩
  rintro ⟨rfl, rfl⟩
  exact hruns

variable {calls : List (State × Routine)} {r : c.Result × State} (hruns : Runs c.body s calls r)

include hruns

theorem leads_of_runs : s.Leads r.2 := by
  obtain ⟨hadvances, calls', hruns', -⟩ := performs_reader _ c s hs (Nat.le_refl _) hfits
  obtain ⟨-, rfl⟩ := hruns'.unique hruns
  exact hadvances.1

theorem length_of_runs (hc : c.Consumes s) : r.2.rest.length < s.rest.length := by
  obtain ⟨hadvances, calls', hruns', -⟩ := performs_reader _ c s hs (Nat.le_refl _) hfits
  obtain ⟨-, rfl⟩ := hruns'.unique hruns
  exact hadvances.2 hc

theorem below_of_runs {call : State × Routine} (hcall : call ∈ calls) : Below s c.level call := by
  obtain ⟨-, calls', hruns', hbelow⟩ := performs_reader _ c s hs (Nat.le_refl _) hfits
  obtain ⟨rfl, -⟩ := hruns'.unique hruns
  exact hbelow call hcall

end

/-! ### Calls inside calls -/

/-- One call is made directly inside another. -/
def Nests (a b : State × Routine) : Prop := ∃ calls r, Runs a.2.body a.1 calls r ∧ b ∈ calls

theorem Below.trans {top : State} {level : Nat} {a b : State × Routine} (h : Below top level a)
    (h' : Below a.1 a.2.level b) : Below top level b := by
  have hle := h.leads.length_le
  have hle' := h'.leads.length_le
  refine ⟨h.leads.trans h'.leads, h'.fits, ?_⟩
  rcases h.lower with hlt | hlt <;> rcases h'.lower with hlt' | hlt' <;> omega

/-- What is called inside a call has fewer tokens left or goes to a lower routine. -/
theorem below_of_transGen {a b : State × Routine} (h : TransGen Nests a b) (hs : a.1.Ended)
    (hfits : a.2.Fits a.1) : Below a.1 a.2.level b := by
  induction h with
  | single h =>
    obtain ⟨calls, r, hruns, hb⟩ := h
    exact below_of_runs a.2 hs hfits hruns hb
  | tail _ h ih =>
    obtain ⟨calls, r, hruns, hc⟩ := h
    exact ih.trans (below_of_runs _ (ih.leads.ended hs) ih.fits hruns hc)

/-- Calls of one routine stand on one level, whatever they are given. -/
theorem Routine.level_eq_of_ctorIdx {c c' : Routine} (h : c'.ctorIdx = c.ctorIdx) : c'.level = c.level := by
  have hlevel : ∀ c : Routine, c.level = [2, 1, 0, 0, 0, 0, 5, 1, 0, 1, 6, 4, 0, 3, 2, 0, 1, 0, 7, 8, 8, 0,
      0, 2, 1, 0, 0, 0, 0, 0, 6].getD c.ctorIdx 0 := by
    intro c
    cases c <;> rfl
  rw [hlevel, hlevel, h]

/-! ### Rounds of a list of statements -/

/-- A round that does not close the list reads a statement and goes on to the next round. -/
theorem runs_round_iff {fallback : Script Token} {calls : List (State × Routine)}
    {r : List (Node Span) × State} (hs : s.Ended)
    (hopen : ¬(s.current.kind == close || s.current.kind == .endOfFile) = true) :
    Runs (roundScript close fallback) s calls r ↔ ∃ inner inner' x y,
      Runs Routine.statement.body s inner x ∧ Runs (Routine.statements close).body x.2 inner' y ∧
      calls = [(s, .statement), (x.2, .statements close)] ∧ r = (x.1.toList ++ y.1, y.2) := by
  have hne : s.current.kind ≠ .endOfFile := mt closes_of_endOfFile hopen
  have hbody : Runs (roundScript close fallback) s calls r ↔
      ∃ inner x rest, calls = (s, .statement) :: rest ∧ Runs Routine.statement.body s inner x ∧
        Runs (do
          if x.2.rest.length == s.rest.length then
            let _ ← fallback
          let more ← call (.statements close)
          pure (x.1.toList ++ more)) x.2 rest r := by
    rw [roundScript, Runs.lift_bind_iff, Runs.lift_bind_iff]
    show Runs (if (s.current.kind == close || s.current.kind == .endOfFile) = true then _ else _) _ _ _ ↔ _
    rw [if_neg hopen, Runs.lift_bind_iff, Runs.call_bind_iff]
    simp only [Runs.lift_bind_iff]
    rfl
  rw [hbody]
  constructor
  · rintro ⟨inner, x, rest, rfl, hfirst, h⟩
    have hlt := length_of_runs .statement hs trivial hfirst hne
    rw [if_neg (mt beq_iff_eq.mp (Nat.ne_of_lt hlt)), Runs.call_bind_iff] at h
    obtain ⟨inner', y, rest, rfl, hmore, h⟩ := h
    cases h
    exact ⟨inner, inner', x, y, hfirst, hmore, rfl, rfl⟩
  · rintro ⟨inner, inner', x, y, hfirst, hmore, rfl, rfl⟩
    have hlt := length_of_runs .statement hs trivial hfirst hne
    refine ⟨inner, x, _, rfl, hfirst, ?_⟩
    rw [if_neg (mt beq_iff_eq.mp (Nat.ne_of_lt hlt)), Runs.call_bind_iff]
    exact ⟨inner', y, [], rfl, hmore, .pure _ _⟩

theorem runs_round_close {fallback : Script Token} {calls : List (State × Routine)}
    {r : List (Node Span) × State}
    (hclose : (s.current.kind == close || s.current.kind == .endOfFile) = true) :
    Runs (roundScript close fallback) s calls r ↔ calls = [] ∧ r = ([], s) := by
  rw [roundScript, Runs.lift_bind_iff, Runs.lift_bind_iff]
  show Runs (if (s.current.kind == close || s.current.kind == .endOfFile) = true then _ else _) s calls r ↔ _
  rw [if_pos hclose]
  constructor
  · intro h
    cases h
    exact ⟨rfl, rfl⟩
  · rintro ⟨rfl, rfl⟩
    exact .pure _ _

/-- It makes no difference what is done where a statement has taken no token. -/
theorem runs_round_iff_body {fallback : Script Token} {calls : List (State × Routine)}
    {r : List (Node Span) × State} (hs : s.Ended) :
    Runs (roundScript close fallback) s calls r ↔ Runs (Routine.statements close).body s calls r := by
  rw [Routine.body]
  by_cases h : (s.current.kind == close || s.current.kind == .endOfFile) = true
  · rw [runs_round_close h, runs_round_close h]
  · rw [runs_round_iff hs h, runs_round_iff hs h]

/-- Statements up to the end of the text are read up to the end of the text. -/
theorem rest_of_runs_statements {calls : List (State × Routine)} {r : List (Node Span) × State}
    (hs : s.Ended) (hruns : Runs (Routine.statements .endOfFile).body s calls r) : r.2.rest = [] := by
  induction hn : s.rest.length using Nat.strongRecOn generalizing s calls r with
  | ind n ih =>
    rw [Routine.body] at hruns
    by_cases h : (s.current.kind == .endOfFile || s.current.kind == .endOfFile) = true
    · obtain ⟨-, rfl⟩ := (runs_round_close h).mp hruns
      rw [Bool.or_self] at h
      exact hs.nil_of_kind (beq_iff_eq.mp h)
    · obtain ⟨inner, inner', x, y, hfirst, hmore, -, rfl⟩ := (runs_round_iff hs h).mp hruns
      rw [Bool.or_self] at h
      have hlt := length_of_runs .statement hs trivial hfirst (mt beq_iff_eq.mpr h)
      have hrest := ih _ (hn ▸ hlt) ((leads_of_runs .statement hs trivial hfirst).ended hs) hmore rfl
      exact hrest

/-! ### Progress -/

/-- The call is made while the tokens of a state are read. -/
def State.Makes (s : State) (call : State × Routine) : Prop :=
  ReflTransGen Nests (s, .statements .endOfFile) call

/-- Reading the tokens of a state makes progress. -/
structure State.Progresses (s : State) : Prop where
  /-- Every call is made at one of the tokens or at their end, and where it fits. -/
  fits : ∀ (t : State) (c : Routine), s.Makes (t, c) → s.Leads t ∧ c.Fits t
  /-- Every call comes to an end, in one way only, and so that the reader with bounds does the same. -/
  ends : ∀ (t : State) (c : Routine), s.Leads t → c.Fits t →
    ∃ calls, ∀ calls' r, Runs c.body t calls' r ↔ calls' = calls ∧ r = c.reader.run t
  /-- Every statement takes a token unless the text ends. -/
  statement : ∀ t, s.Leads t → t.current.kind ≠ .endOfFile →
    ∀ calls r, Runs Routine.statement.body t calls r → r.2.rest.length < t.rest.length
  /-- Whatever would be done after a statement without a token is never done. -/
  fallback : ∀ t, s.Leads t → ∀ close fallback calls r,
    Runs (roundScript close fallback) t calls r ↔ Runs (Routine.statements close).body t calls r
  /-- Where calls come back to a routine, or a loop goes on to another round, a token has been taken. -/
  cycle : ∀ (t t' : State) (c c' : Routine), s.Leads t → c.Fits t → TransGen Nests (t, c) (t', c') →
    c'.ctorIdx = c.ctorIdx → t'.rest <:+ t.rest ∧ t'.rest.length < t.rest.length
  /-- Reading the tokens is the first of the calls. -/
  first : ∃ calls, Runs (Routine.statements .endOfFile).body s calls (sourceFile.run s)
  /-- It takes all the tokens and stops at the end of the text. -/
  last : (sourceFile.run s).2.rest = [] ∧ (sourceFile.run s).2.current.kind = .endOfFile

theorem fits_of_makes {call : State × Routine} (h : s.Makes call) (hs : s.Ended) :
    s.Leads call.1 ∧ call.2.Fits call.1 := by
  rcases reflTransGen_iff_eq_or_transGen.mp h with rfl | h
  · exact ⟨.refl s, trivial⟩
  · have hbelow := below_of_transGen h hs trivial
    exact ⟨hbelow.leads, hbelow.fits⟩

theorem runs_sourceFile (hs : s.Ended) :
    ∃ calls, Runs (Routine.statements .endOfFile).body s calls (sourceFile.run s) := by
  rw [run_sourceFile]
  have hstatement := (performs_nested (2 * s.rest.length + 2) s.rest.length).1 (Nat.le_refl _)
  obtain ⟨-, calls, hruns, -⟩ := performs_statements hstatement (Nat.le_succ _) s hs (Nat.le_refl _) trivial
  exact ⟨calls, hruns⟩

/-- **Reading makes progress** on all tokens behind which, and nowhere before, the end of the text stands. -/
theorem progresses_of_ended (hs : s.Ended) : s.Progresses where
  fits t c hmade := fits_of_makes hmade hs
  ends t c hleads hfits := runs_body_iff c (hleads.ended hs) hfits
  statement t hleads hne calls r hruns := length_of_runs .statement (hleads.ended hs) trivial hruns hne
  fallback t hleads close fallback calls r := runs_round_iff_body (hleads.ended hs)
  cycle t t' c c' hleads hfits hnests hsame := by
    have hbelow := below_of_transGen hnests (hleads.ended hs) hfits
    refine ⟨hbelow.leads.rest, hbelow.lower.resolve_right ?_⟩
    exact Nat.not_lt.mpr (Nat.le_of_eq (Routine.level_eq_of_ctorIdx hsame).symm)
  first := runs_sourceFile hs
  last := by
    obtain ⟨calls, hruns⟩ := runs_sourceFile hs
    have hrest := rest_of_runs_statements hs hruns
    exact ⟨hrest, ((leads_of_runs (.statements .endOfFile) hs trivial hruns).ended hs).kind_of_nil hrest⟩

/-- The end of a text stands behind its tokens and nowhere else. -/
theorem ended_initial (cs : List Char) : (State.initial (.ofChars cs)).Ended :=
  ⟨fun t ht => (TokenStream.coversIn_ofChars cs t ht).kind_ne, TokenStream.kind_ending_ofChars cs⟩

/-- A text in which next to nothing is where it should be. -/
theorem progresses_of_ended_garbled :
    (State.initial (.ofChars "if ( , = type (: => x. [ let ) ]".toList)).Progresses :=
  progresses_of_ended (ended_initial _)

end ScriptAnalysis.Syntax.Parser

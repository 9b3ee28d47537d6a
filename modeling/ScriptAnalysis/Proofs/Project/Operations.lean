import Mathlib.Algebra.Ring.Nat
import Mathlib.Data.List.Induction
import ScriptAnalysis.Proofs.Project.Files

/-!
# What a program takes after any operations

An environment goes through operations one after the other, among them the making of programs. How many
queries the file of a path takes when a program is made again depends on whether a program has held it,
whether its text was given since the last program, and whether that made the text another one: `Costs`
says how, and `Recorded.costs` finds the same number in what is kept with the file.
-/

namespace ScriptAnalysis.Project

open Semantics (ProgramFile Program)

/-! ### Operations -/

/-- What an environment can be asked for. -/
inductive Operation where
  /-- To create a file. -/
  | create (path text : String)
  /-- To update a file. -/
  | update (path text : String)
  /-- To make a program. -/
  | program
  deriving DecidableEq, Repr

namespace Operation

/-- The path of the file that gets a text. -/
def path? : Operation → Option String
  | create path _ | update path _ => some path
  | program => none

/-- What becomes of a file that is there before the operation. -/
def onFile : Operation → SourceFile → SourceFile
  | create path text, f | update path text, f => if f.path = path then f.setText text else f
  | program, f => f.withReading

@[simp] theorem path_onFile (op : Operation) (f : SourceFile) : (op.onFile f).path = f.path := by
  cases op <;> simp only [onFile]
  case program => rfl
  all_goals
    split
    · rfl
    · rfl

/-- An operation that gives another file a text leaves a file as it is. -/
theorem onFile_of_ne {op : Operation} {f : SourceFile} (hprogram : op ≠ .program)
    (h : op.path? ≠ some f.path) : op.onFile f = f := by
  cases op with
  | create path text => exact if_neg fun heq => h (by rw [path?, heq])
  | update path text => exact if_neg fun heq => h (by rw [path?, heq])
  | program => exact absurd rfl hprogram

/-- An operation that gives a file a text does nothing else to it. -/
theorem exists_onFile_eq_setText {op : Operation} {f : SourceFile} (h : op.path? = some f.path) :
    ∃ text, op.onFile f = f.setText text := by
  cases op with
  | create path text => exact ⟨text, if_pos (Option.some.inj h).symm⟩
  | update path text => exact ⟨text, if_pos (Option.some.inj h).symm⟩
  | program => cases h

end Operation

namespace Environment

/-- The environment after an operation, which may have failed. -/
def perform (e : Environment) : Operation → Environment
  | .create path text => e.createFile path text
  | .update path text => (e.updateFile path text).2
  | .program => e.snapshot.environment

/-- The environment after operations, the first one first. -/
def run (e : Environment) (ops : List Operation) : Environment := ops.foldl perform e

theorem run_concat (e : Environment) (ops : List Operation) (op : Operation) :
    e.run (ops ++ [op]) = (e.run ops).perform op := by
  simp [run]

/-- The file that an operation adds, if any. -/
def added (e : Environment) : Operation → List SourceFile
  | .create path text => if path ∈ e.paths then [] else [.ofText path text]
  | .update .. | .program => []

theorem map_onFile_of_notMem {e : Environment} {path : String} (h : path ∉ e.paths)
    (text : String) : e.files.map (Operation.create path text).onFile = e.files := by
  refine (List.map_congr_left fun f hf => ?_).trans (List.map_id _)
  refine if_neg fun heq => h ?_
  rw [← heq]
  exact List.mem_map_of_mem hf

/-- An operation changes the files that are there one by one, and adds a file behind them or none. -/
theorem files_perform {e : Environment} (h : e.Coherent) (op : Operation) :
    (e.perform op).files = e.files.map op.onFile ++ e.added op := by
  cases op with
  | create path text =>
    simp only [perform, files_createFile h, added]
    split
    · exact (List.append_nil _).symm
    · rename_i hnot
      rw [map_onFile_of_notMem hnot]
  | update path text =>
    simp only [perform, added, List.append_nil]
    by_cases hmem : path ∈ e.paths
    · rw [updateFile_of_mem h hmem]
      exact (files_createFile h path text).trans (if_pos hmem)
    · rw [updateFile_of_notMem h hmem]
      exact (map_onFile_of_notMem hmem text).symm
  | program => simp [perform, added, files_snapshot h, Operation.onFile]

theorem Sound.perform {e : Environment} (h : e.Sound) (op : Operation) : (e.perform op).Sound := by
  cases op with
  | create path text => exact h.createFile path text
  | update path text => exact h.updateFile path text
  | program => exact h.snapshot

theorem Sound.run {e : Environment} (h : e.Sound) (ops : List Operation) : (e.run ops).Sound := by
  induction ops generalizing e with
  | nil => exact h
  | cons op ops ih => exact ih (h.perform op)

/-- No operation takes a file away. -/
theorem mem_paths_perform {e : Environment} (h : e.Coherent) {path : String} (hmem : path ∈ e.paths)
    (op : Operation) : path ∈ (e.perform op).paths := by
  obtain ⟨f, hf, rfl⟩ := List.mem_map.1 hmem
  refine List.mem_map.2 ⟨op.onFile f, ?_, op.path_onFile f⟩
  rw [files_perform h]
  exact List.mem_append_left _ (List.mem_map_of_mem hf)

theorem mem_paths_run {e : Environment} (h : e.Sound) {path : String} (hmem : path ∈ e.paths)
    (ops : List Operation) : path ∈ (e.run ops).paths := by
  induction ops generalizing e with
  | nil => exact hmem
  | cons op ops ih => exact ih (h.perform op) (mem_paths_perform h.coherent hmem op)

/-! ### The number of queries by the operations -/

/-- The last program was made between the operations `before` and `recent`. -/
structure LastProgram (ops before recent : List Operation) : Prop where
  eq : ops = before ++ .program :: recent
  notMem : .program ∉ recent

/-- The file of a path got a text by some of the operations. -/
def IsSetIn (ops : List Operation) (path : String) : Prop := ∃ op ∈ ops, op.path? = some path

/-- How many queries the file of a path takes for a program after operations. -/
inductive Costs (e : Environment) (ops : List Operation) (path : String) : Nat → Prop where
  /-- No program has held the file. -/
  | new (h : ∀ before after, ops = before ++ .program :: after → path ∉ (e.run before).paths) :
    Costs e ops path 2
  /-- The file got no text since the last program. -/
  | untouched {before recent : List Operation} (h : LastProgram ops before recent)
    (hmem : path ∈ (e.run before).paths) (hset : ¬IsSetIn recent path) : Costs e ops path 0
  /-- It did, and has the text that it had in the last program. -/
  | same {before recent : List Operation} (h : LastProgram ops before recent)
    (hmem : path ∈ (e.run before).paths) (hset : IsSetIn recent path)
    (htext : (e.run ops).text? path = (e.run before).text? path) : Costs e ops path 1
  /-- It did, and has another text. -/
  | changed {before recent : List Operation} (h : LastProgram ops before recent)
    (hmem : path ∈ (e.run before).paths) (hset : IsSetIn recent path)
    (htext : (e.run ops).text? path ≠ (e.run before).text? path) : Costs e ops path 2

/-! ### There is one number -/

theorem LastProgram.unique {ops before recent before' recent' : List Operation}
    (h : LastProgram ops before recent) (h' : LastProgram ops before' recent') :
    before = before' ∧ recent = recent' := by
  rcases List.append_eq_append_iff.1 (h.eq.symm.trans h'.eq) with ⟨c, hbefore, hc⟩ | ⟨c, hbefore, hc⟩
  · rcases List.cons_eq_append_iff.1 hc with ⟨rfl, hrest⟩ | ⟨c', -, hrest⟩
    · exact ⟨by simp [hbefore], (List.cons_inj_right _).1 hrest.symm⟩
    · exact absurd (hrest ▸ by simp) h.notMem
  · rcases List.cons_eq_append_iff.1 hc with ⟨rfl, hrest⟩ | ⟨c', -, hrest⟩
    · exact ⟨by simp [hbefore], (List.cons_inj_right _).1 hrest⟩
    · exact absurd (hrest ▸ by simp) h'.notMem

/-- A file that the last program has held takes as many queries as its text says. -/
theorem Costs.eq_of_lastProgram {e : Environment} {ops before recent : List Operation}
    {path : String} {n : Nat} (h : e.Costs ops path n) (hlast : LastProgram ops before recent)
    (hmem : path ∈ (e.run before).paths) :
    (n = 0 ↔ ¬IsSetIn recent path) ∧
      (n = 1 ↔ IsSetIn recent path ∧ (e.run ops).text? path = (e.run before).text? path) ∧ n ≤ 2 := by
  cases h with
  | new h => exact absurd hmem (h before recent hlast.eq)
  | untouched h _ hset =>
    obtain ⟨rfl, rfl⟩ := h.unique hlast
    simp [hset]
  | same h _ hset htext =>
    obtain ⟨rfl, rfl⟩ := h.unique hlast
    simp [hset, htext]
  | changed h _ hset htext =>
    obtain ⟨rfl, rfl⟩ := h.unique hlast
    simp [hset, htext]

theorem Costs.unique {e : Environment} {ops : List Operation} {path : String} {n m : Nat}
    (h : e.Costs ops path n) (h' : e.Costs ops path m) : n = m := by
  cases h' with
  | new hnew =>
    cases h with
    | new => rfl
    | untouched h hmem => exact absurd hmem (hnew _ _ h.eq)
    | same h hmem => exact absurd hmem (hnew _ _ h.eq)
    | changed => rfl
  | untouched h' hmem hset => exact (h.eq_of_lastProgram h' hmem).1.2 hset
  | same h' hmem hset htext => exact (h.eq_of_lastProgram h' hmem).2.1.2 ⟨hset, htext⟩
  | changed h' hmem hset htext =>
    obtain ⟨hzero, hone, hle⟩ := h.eq_of_lastProgram h' hmem
    have h0 : n ≠ 0 := fun hn => hzero.1 hn hset
    have h1 : n ≠ 1 := fun hn => htext (hone.1 hn).2
    omega

/-! ### What is kept with a file -/

/-- What is kept with a file tells what the operations were to it. -/
def Recorded (e : Environment) (ops : List Operation) (f : SourceFile) : Prop :=
  match f.reading with
  | .never => ∀ before after, ops = before ++ .program :: after → f.path ∉ (e.run before).paths
  | .current _ => ∃ before recent, LastProgram ops before recent ∧ ¬IsSetIn recent f.path ∧
      (e.run before).text? f.path = some f.text
  | .outdated file => ∃ before recent, LastProgram ops before recent ∧ IsSetIn recent f.path ∧
      (e.run before).text? f.path = some file.tree.text

theorem LastProgram.concat {ops before recent : List Operation} (h : LastProgram ops before recent)
    {op : Operation} (hop : op ≠ .program) : LastProgram (ops ++ [op]) before (recent ++ [op]) where
  eq := by simp [h.eq]
  notMem := by simpa [h.notMem] using Ne.symm hop

theorem isSetIn_concat {ops : List Operation} {op : Operation} {path : String} :
    IsSetIn (ops ++ [op]) path ↔ IsSetIn ops path ∨ op.path? = some path := by
  simp [IsSetIn, or_and_right, exists_or]

/-- The part of the operations in front of a program, when one more operation is not a program. -/
theorem eq_append_of_concat_eq {ops before after : List Operation} {op : Operation}
    (hop : op ≠ .program) (h : ops ++ [op] = before ++ .program :: after) :
    ∃ after', ops = before ++ .program :: after' := by
  rcases List.eq_nil_or_concat after with rfl | ⟨after', last, rfl⟩
  · obtain ⟨-, hlast⟩ := List.append_inj' h rfl
    exact absurd (List.singleton_inj.1 hlast) hop
  · have hsplit : ops ++ [op] = (before ++ .program :: after') ++ [last] := by simpa using h
    exact ⟨after', (List.append_inj' hsplit rfl).1⟩

variable {e : Environment} {ops : List Operation}

theorem text?_of_mem (h : e.Sound) {f : SourceFile} (hf : f ∈ e.files) :
    e.text? f.path = some f.text := h.coherent.text?_eq_some_iff.2 ⟨f, hf, rfl, rfl⟩

/-- A program knows every file as it is. -/
theorem recorded_program (h : e.Sound) {f : SourceFile} (hf : f ∈ (e.run ops).files) :
    e.Recorded (ops ++ [.program]) f.withReading :=
  have htext := text?_of_mem (h.run ops) hf
  ⟨ops, [], ⟨rfl, List.not_mem_nil⟩, fun ⟨_, hmem, _⟩ => absurd hmem List.not_mem_nil, htext⟩

/-- What an operation does to another file is recorded, which is nothing. -/
theorem Recorded.other {f : SourceFile} (h : e.Recorded ops f) {op : Operation}
    (hop : op ≠ .program) (hpath : op.path? ≠ some f.path) : e.Recorded (ops ++ [op]) f := by
  unfold Recorded at h ⊢
  cases hr : f.reading with
  | never =>
    rw [hr] at h
    intro before after heq
    obtain ⟨after', rfl⟩ := eq_append_of_concat_eq hop heq
    exact h before after' rfl
  | current file =>
    rw [hr] at h
    obtain ⟨before, recent, hlast, hset, htext⟩ := h
    exact ⟨before, recent ++ [op], hlast.concat hop, by simp [isSetIn_concat, hset, hpath], htext⟩
  | outdated file =>
    rw [hr] at h
    obtain ⟨before, recent, hlast, hset, htext⟩ := h
    exact ⟨before, recent ++ [op], hlast.concat hop, isSetIn_concat.2 (.inl hset), htext⟩

/-- That a file gets a text is recorded. -/
theorem Recorded.setText {f : SourceFile} (h : e.Recorded ops f) (hf : f.IsFaithful)
    {op : Operation} (hop : op ≠ .program) (hpath : op.path? = some f.path) (text : String) :
    e.Recorded (ops ++ [op]) (f.setText text) := by
  obtain ⟨path, old, reading⟩ := f
  cases reading with
  | never =>
    intro before after heq
    obtain ⟨after', rfl⟩ := eq_append_of_concat_eq hop heq
    exact h before after' rfl
  | current file =>
    obtain ⟨before, recent, hlast, -, htext⟩ := h
    -- what is current was read from the text that the file had until now
    have hread : file = .ofText path old := hf
    exact ⟨before, recent ++ [op], hlast.concat hop, isSetIn_concat.2 (.inr hpath), hread ▸ htext⟩
  | outdated file =>
    obtain ⟨before, recent, hlast, hset, htext⟩ := h
    exact ⟨before, recent ++ [op], hlast.concat hop, isSetIn_concat.2 (.inl hset), htext⟩

/-- A file that an operation adds has been in no program. -/
theorem recorded_added (h : e.Sound) {f : SourceFile} {op : Operation}
    (hf : f ∈ (e.run ops).added op) : e.Recorded (ops ++ [op]) f := by
  cases op with
  | create path text =>
    simp only [added] at hf
    split at hf
    · cases hf
    · rename_i hnot
      obtain rfl := List.mem_singleton.1 hf
      intro before after heq hmem
      obtain ⟨after', rfl⟩ := eq_append_of_concat_eq (by simp) heq
      refine hnot ?_
      rw [run, List.foldl_append]
      exact mem_paths_run (h.run before) hmem (.program :: after')
  | update path text => cases hf
  | program => cases hf

/-- What is kept with every file tells what the operations were to it. -/
theorem recorded_run (h : e.Sound) (hnever : ∀ f ∈ e.files, f.reading = .never)
    (ops : List Operation) : ∀ f ∈ (e.run ops).files, e.Recorded ops f := by
  induction ops using List.reverseRecOn with
  | nil =>
    intro f hf
    unfold Recorded
    rw [hnever f hf]
    simp
  | append_singleton ops op ih =>
    intro f hf
    rw [run_concat, files_perform (h.run ops).coherent] at hf
    rcases List.mem_append.1 hf with hf | hf
    · obtain ⟨f, hold, rfl⟩ := List.mem_map.1 hf
      by_cases hop : op = .program
      · subst hop
        exact recorded_program h hold
      · by_cases hpath : op.path? = some f.path
        · obtain ⟨text, htext⟩ := Operation.exists_onFile_eq_setText hpath
          rw [htext]
          exact (ih f hold).setText ((h.run ops).faithful f hold) hop hpath text
        · rw [Operation.onFile_of_ne hop hpath]
          exact (ih f hold).other hop hpath
    · exact recorded_added h hf

/-- What is kept with a file tells how many queries it takes. -/
theorem Recorded.costs (h : e.Sound) {f : SourceFile} (hf : f ∈ (e.run ops).files)
    (hr : e.Recorded ops f) : e.Costs ops f.path f.read.2 := by
  have htext := text?_of_mem (h.run ops) hf
  have hmem : ∀ {before : List Operation} {text : String},
      (e.run before).text? f.path = some text → f.path ∈ (e.run before).paths := fun htext =>
    ((h.run _).coherent.text?_isSome_iff _).1 (by rw [htext]; rfl)
  obtain ⟨path, text, reading⟩ := f
  cases reading with
  | never => exact .new hr
  | current file =>
    obtain ⟨before, recent, hlast, hset, hold⟩ := hr
    exact .untouched hlast (hmem hold) hset
  | outdated file =>
    obtain ⟨before, recent, hlast, hset, hold⟩ := hr
    have hparse : (Syntax.Tree.parse path text).text = text := rfl
    simp only [SourceFile.read, hparse]
    by_cases hsame : text = file.tree.text
    · rw [if_pos hsame]
      refine .same hlast (hmem hold) hset ?_
      rw [htext, hold, ← hsame]
    · rw [if_neg hsame]
      refine .changed hlast (hmem hold) hset ?_
      rw [htext, hold]
      exact fun heq => hsame (Option.some.inj heq)

/-- A program takes the queries of its files. -/
theorem queries_run (h : e.Sound) (hnever : ∀ f ∈ e.files, f.reading = .never)
    {cost : String → Nat} (hcost : ∀ path ∈ (e.run ops).paths, e.Costs ops path (cost path)) :
    (e.run ops).snapshot.queries = ((e.run ops).paths.map cost).sum := by
  have hread : (e.run ops).files.map (fun f => f.read.2) =
      (e.run ops).files.map fun f => cost f.path := by
    refine List.map_congr_left fun f hf => ?_
    have hrecorded := (recorded_run h hnever ops f hf).costs h hf
    exact hrecorded.unique (hcost f.path (List.mem_map_of_mem hf))
  rw [queries_eq (h.run ops).coherent, hread, paths, List.map_map]
  rfl

end Environment

end ScriptAnalysis.Project

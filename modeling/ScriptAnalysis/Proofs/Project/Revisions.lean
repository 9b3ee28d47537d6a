import Mathlib.Data.List.Forall2
import ScriptAnalysis.Proofs.Project.Operations

/-!
# Programs from a database with revisions

A database counts revisions: a new one begins whenever a file gets a text. It keeps the answers of two
queries per file, the tree of its text and the binding of its tree, each with the revision in which the
answer last became another one and the revision in which it was last known to be right. A query is
executed again only if something that it reads has changed since.

Such a database goes along with an environment (`Database.agrees_run`): what is kept with a file of the
environment is what the revisions of its answers tell. So the queries of a program are counted alike, and
`recomputes_run` says how many they are.
-/

namespace ScriptAnalysis.Syntax.Tree

/-- Two texts of a file have one tree exactly when they are the same. -/
theorem parse_inj {path a b : String} : Tree.parse path a = Tree.parse path b ↔ a = b :=
  ⟨fun h => congrArg Tree.text h, fun h => by rw [h]⟩

end ScriptAnalysis.Syntax.Tree

namespace ScriptAnalysis.Project

open Semantics (Binding ProgramFile Program)
open Syntax (Tree)

/-! ### Queries -/

/-- What a query has answered. -/
structure Memo (α : Type) where
  /-- The answer. -/
  value : α
  /-- The revision in which the answer last became another one. -/
  changedAt : Nat
  /-- The revision in which it was last known to be right. -/
  verifiedAt : Nat

namespace Memo

section
variable {α : Type} [DecidableEq α]

/-- The answer of a query, with the number of its executions. What the query reads has last changed in
the revisions `changes`. An answer that is computed again and is the same has not changed. -/
def refresh (now : Nat) (changes : List Nat) (answer : α) : Option (Memo α) → Memo α × Nat
  | none => (⟨answer, changes.foldr max 0, now⟩, 1)
  | some memo =>
    if ∀ change ∈ changes, change ≤ memo.verifiedAt then ({ memo with verifiedAt := now }, 0)
    else if answer = memo.value then (⟨answer, memo.changedAt, now⟩, 1)
    else (⟨answer, changes.foldr max 0, now⟩, 1)

variable {now changedAt verifiedAt : Nat} {changes : List Nat} {answer value : α}

theorem refresh_of_le (h : ∀ change ∈ changes, change ≤ verifiedAt) :
    refresh now changes answer (some ⟨value, changedAt, verifiedAt⟩) = (⟨value, changedAt, now⟩, 0) :=
  if_pos h

theorem refresh_of_lt {change : Nat} (hmem : change ∈ changes) (h : verifiedAt < change) :
    refresh now changes answer (some ⟨value, changedAt, verifiedAt⟩) =
      (⟨answer, if answer = value then changedAt else changes.foldr max 0, now⟩, 1) := by
  have hnot : ¬∀ change ∈ changes, change ≤ verifiedAt := fun hall =>
    absurd (hall change hmem) (by omega)
  simp only [refresh, if_neg hnot]
  split
  · rfl
  · rfl

end

end Memo

/-! ### Files of a database -/

/-- A file of a database. -/
structure Input where
  /-- The path of the file. -/
  path : String
  /-- The revision in which the file was made. -/
  pathChangedAt : Nat
  /-- Its text. -/
  text : String
  /-- The revision in which it got the text. -/
  textChangedAt : Nat
  /-- The tree of the file, when it has been asked for. -/
  tree? : Option (Memo Tree)
  /-- The binding of the tree, when it has been asked for. -/
  binding? : Option (Memo Binding)

namespace Input

/-- A file that nothing has been asked of. -/
def ofText (now : Nat) (path text : String) : Input := ⟨path, now, text, now, none, none⟩

/-- The file with a text that it gets in a revision. -/
def setText (i : Input) (now : Nat) (text : String) : Input := { i with text, textChangedAt := now }

open Classical in
/-- The tree and the binding of the file, with the number of executions, and the file afterwards. The
binding reads nothing but the tree. -/
noncomputable def query (i : Input) (now : Nat) : (ProgramFile × Nat) × Input :=
  let tree := Memo.refresh now [i.pathChangedAt, i.textChangedAt] (Tree.parse i.path i.text) i.tree?
  let binding := Memo.refresh now [tree.1.changedAt] (Binding.ofTree tree.1.value) i.binding?
  ((⟨tree.1.value, binding.1.value⟩, tree.2 + binding.2),
    { i with tree? := some tree.1, binding? := some binding.1 })

/-- The answers for a file were last known to be right in one revision. -/
structure Knows (i : Input) (file : ProgramFile) (verifiedAt : Nat) : Prop where
  tree : ∃ changedAt ≤ verifiedAt, i.tree? = some ⟨file.tree, changedAt, verifiedAt⟩
  binding : ∃ changedAt, i.binding? = some ⟨file.binding, changedAt, verifiedAt⟩

/-- A file of a database is a file of an environment: the revisions tell what is kept with it. -/
structure Agrees (now : Nat) (i : Input) (f : SourceFile) : Prop where
  path : i.path = f.path
  text : i.text = f.text
  made : i.pathChangedAt ≤ i.textChangedAt
  given : i.textChangedAt ≤ now
  known : match f.reading with
    | .never => i.tree? = none ∧ i.binding? = none
    | .current file => ∃ verifiedAt ≤ now, i.Knows file verifiedAt ∧ i.textChangedAt ≤ verifiedAt
    | .outdated file => ∃ verifiedAt < i.textChangedAt, i.Knows file verifiedAt

theorem agrees_ofText (now : Nat) (path text : String) :
    (ofText now path text).Agrees now (.ofText path text) :=
  ⟨rfl, rfl, Nat.le_refl now, Nat.le_refl now, ⟨rfl, rfl⟩⟩

variable {now : Nat} {i : Input} {f : SourceFile}

/-- Nothing changes for a file when another one gets a text. -/
theorem Agrees.next (h : i.Agrees now f) : i.Agrees (now + 1) f where
  path := h.path
  text := h.text
  made := h.made
  given := Nat.le_succ_of_le h.given
  known := by
    have hknown := h.known
    cases hr : f.reading with
    | never => simpa only [hr] using hknown
    | current file =>
      simp only [hr] at hknown ⊢
      obtain ⟨verifiedAt, hle, hknows, hset⟩ := hknown
      exact ⟨verifiedAt, Nat.le_succ_of_le hle, hknows, hset⟩
    | outdated file => simpa only [hr] using hknown

/-- What was known of a file is outdated when it gets a text. -/
theorem Agrees.setText (h : i.Agrees now f) (text : String) :
    (i.setText (now + 1) text).Agrees (now + 1) (f.setText text) where
  path := h.path
  text := rfl
  made := Nat.le_succ_of_le (Nat.le_trans h.made h.given)
  given := Nat.le_refl _
  known := by
    obtain ⟨path, old, reading⟩ := f
    have hknown := h.known
    cases reading with
    | never => exact hknown
    | current file =>
      obtain ⟨verifiedAt, hle, hknows, -⟩ := hknown
      exact ⟨verifiedAt, Nat.lt_succ_of_le hle, hknows.tree, hknows.binding⟩
    | outdated file =>
      obtain ⟨verifiedAt, hlt, hknows⟩ := hknown
      exact ⟨verifiedAt, Nat.lt_succ_of_lt (Nat.lt_of_lt_of_le hlt h.given), hknows.tree,
        hknows.binding⟩

/-- The queries of a file of a database give what the file of the environment is read as, with as many
executions as are counted for it. -/
theorem Agrees.query (h : i.Agrees now f) (hf : f.IsFaithful) :
    (i.query now).1 = f.read ∧ (i.query now).2.Agrees now f.withReading := by
  -- behind any queries the file is known in revision `now`, by what was answered
  suffices hq : (i.query now).1 = f.read ∧ (i.query now).2.Knows f.read.1 now from
    ⟨hq.1, h.path, h.text, h.made, h.given, now, Nat.le_refl now, hq.2, h.given⟩
  obtain ⟨hpath, htext, hmade, hgiven, hknown⟩ := h
  obtain ⟨path, madeAt, text, givenAt, tree?, binding?⟩ := i
  obtain ⟨path', text', reading⟩ := f
  obtain rfl : path = path' := hpath
  obtain rfl : text = text' := htext
  replace hmade : madeAt ≤ givenAt := hmade
  replace hgiven : givenAt ≤ now := hgiven
  cases reading with
  | never =>
    obtain ⟨rfl, rfl⟩ := hknown
    have hmax : [madeAt, givenAt].foldr max 0 ≤ now := by simp; omega
    simp only [Input.query, Memo.refresh, SourceFile.read, ProgramFile.ofText]
    exact ⟨trivial, ⟨_, hmax, rfl⟩, ⟨_, rfl⟩⟩
  | current file =>
    obtain ⟨verifiedAt, hle, ⟨⟨treeAt, htree, rfl⟩, ⟨bindingAt, rfl⟩⟩, hset⟩ := hknown
    have hread : ∀ change ∈ [madeAt, givenAt], change ≤ verifiedAt := by
      simpa using ⟨Nat.le_trans hmade hset, hset⟩
    have hbound : ∀ change ∈ [treeAt], change ≤ verifiedAt := by simpa using htree
    simp only [Input.query, Memo.refresh_of_le hread, Memo.refresh_of_le hbound, SourceFile.read]
    exact ⟨trivial, ⟨treeAt, Nat.le_trans htree hle, rfl⟩, ⟨bindingAt, rfl⟩⟩
  | outdated file =>
    obtain ⟨verifiedAt, hlt, ⟨⟨treeAt, htree, rfl⟩, ⟨bindingAt, rfl⟩⟩⟩ := hknown
    obtain ⟨old, hold⟩ := hf
    obtain rfl : file = .ofText path old := hold
    replace hlt : verifiedAt < givenAt := hlt
    have hnew : ∀ text, (Tree.parse path text).text = text := fun _ => rfl
    have hold : (ProgramFile.ofText path old).tree = Tree.parse path old := rfl
    have hgivenAt : givenAt ∈ [madeAt, givenAt] := by simp
    simp only [Input.query, Memo.refresh_of_lt hgivenAt hlt, SourceFile.read, hnew, hold,
      Syntax.Tree.parse_inj]
    by_cases hsame : text = old
    · -- the tree is computed again and has not changed, so the binding is kept
      have hbound : ∀ change ∈ [treeAt], change ≤ verifiedAt := by simpa using htree
      simp only [if_pos hsame, Memo.refresh_of_le hbound]
      exact ⟨trivial, ⟨treeAt, by omega, rfl⟩, ⟨bindingAt, rfl⟩⟩
    · have hmax : verifiedAt < [madeAt, givenAt].foldr max 0 := by simp; omega
      have hle : [madeAt, givenAt].foldr max 0 ≤ now := by simp; omega
      simp only [if_neg hsame, Memo.refresh_of_lt (List.mem_singleton_self _) hmax]
      exact ⟨trivial, ⟨_, hle, rfl⟩, ⟨_, rfl⟩⟩

theorem forall₂_query {inputs : List Input} {files : List SourceFile}
    (h : List.Forall₂ (Agrees now) inputs files) (hfaithful : ∀ f ∈ files, f.IsFaithful) :
    List.Forall₂ (fun i f => (i.query now).1 = f.read ∧ (i.query now).2.Agrees now f.withReading)
      inputs files := by
  induction h with
  | nil => exact .nil
  | cons hi _ ih =>
    obtain ⟨hhead, htail⟩ := List.forall_mem_cons.1 hfaithful
    exact .cons (hi.query hhead) (ih htail)

end Input

/-! ### The database -/

/-- The files of a project with the answers of their queries. -/
structure Database where
  /-- The present revision. -/
  revision : Nat
  /-- The files in the order in which they were made. -/
  inputs : List Input

namespace Database

/-- A database of files that nothing has been asked of. -/
def ofFiles (files : List SourceFile) : Database := ⟨1, files.map fun f => .ofText 1 f.path f.text⟩

/-- The paths of the files. -/
def paths (d : Database) : List String := d.inputs.map (·.path)

/-- The database with a text for a file, in a new revision. -/
def setText (d : Database) (path text : String) : Database where
  revision := d.revision + 1
  inputs := d.inputs.map fun i => if i.path = path then i.setText (d.revision + 1) text else i

/-- The answers for all files. -/
noncomputable def answers (d : Database) : List ((ProgramFile × Nat) × Input) :=
  d.inputs.map (·.query d.revision)

/-- The files of a program. -/
noncomputable def programFiles (d : Database) : List ProgramFile := d.answers.map (·.1.1)

/-- How many queries are executed for a program. -/
noncomputable def executions (d : Database) : Nat := (d.answers.map (·.1.2)).sum

/-- The database after an operation. A file that is made begins in the present revision; an update of a
file that is not there changes nothing. -/
noncomputable def perform (d : Database) : Operation → Database
  | .create path text =>
    if path ∈ d.paths then d.setText path text
    else { d with inputs := d.inputs ++ [.ofText d.revision path text] }
  | .update path text => if path ∈ d.paths then d.setText path text else d
  | .program => { d with inputs := d.answers.map (·.2) }

/-- The database after operations, the first one first. -/
noncomputable def run (d : Database) (ops : List Operation) : Database := ops.foldl perform d

/-- The files of a database are those of an environment. -/
def Agrees (d : Database) (e : Environment) : Prop :=
  List.Forall₂ (Input.Agrees d.revision) d.inputs e.files

variable {d : Database} {e : Environment}

theorem Agrees.paths (h : d.Agrees e) : d.paths = e.paths := by
  have hpaths : List.Forall₂ (· = ·) d.paths e.paths := by
    simp only [Database.paths, Environment.paths, List.forall₂_map_left_iff,
      List.forall₂_map_right_iff]
    exact h.imp fun _ _ hi => hi.path
  rwa [List.forall₂_eq_eq_eq] at hpaths

theorem Agrees.setText (h : d.Agrees e) (path text : String) :
    List.Forall₂ (Input.Agrees (d.revision + 1)) (d.setText path text).inputs
      (e.setText path text) := by
  simp only [Database.setText, Environment.setText, List.forall₂_map_left_iff,
    List.forall₂_map_right_iff]
  refine List.Forall₂.imp (fun i f hi => ?_) h
  rw [hi.path]
  split
  · exact hi.setText text
  · exact hi.next

/-- The answers for all files are what the environment reads. -/
theorem Agrees.answers (h : d.Agrees e) (he : e.Sound) :
    d.answers.map (·.1) = e.files.map (·.read) ∧
      List.Forall₂ (Input.Agrees d.revision) (d.answers.map (·.2)) (e.files.map (·.withReading)) := by
  have hall := Input.forall₂_query h he.faithful
  have hread : List.Forall₂ (· = ·) (d.answers.map (·.1)) (e.files.map (·.read)) := by
    simp only [Database.answers, List.forall₂_map_left_iff, List.forall₂_map_right_iff]
    exact hall.imp fun _ _ hi => hi.1
  refine ⟨by rwa [List.forall₂_eq_eq_eq] at hread, ?_⟩
  simp only [Database.answers, List.forall₂_map_left_iff, List.forall₂_map_right_iff]
  exact hall.imp fun _ _ hi => hi.2

theorem agrees_ofFiles (hnever : ∀ f ∈ e.files, f.reading = .never) :
    (Database.ofFiles e.files).Agrees e := by
  simp only [Agrees, ofFiles, List.forall₂_map_left_iff, List.forall₂_same]
  rintro ⟨path, text, reading⟩ hf
  obtain rfl : reading = .never := hnever _ hf
  exact Input.agrees_ofText 1 path text

/-- An operation does the same to the files of both. -/
theorem Agrees.perform (h : d.Agrees e) (he : e.Sound) (op : Operation) :
    (d.perform op).Agrees (e.perform op) := by
  have hc := he.coherent
  cases op with
  | create path text =>
    simp only [Database.perform, Environment.perform, Agrees, Environment.files_createFile hc, h.paths]
    split
    · exact h.setText path text
    · exact List.rel_append h (.cons (Input.agrees_ofText d.revision path text) .nil)
  | update path text =>
    simp only [Database.perform, Environment.perform, h.paths]
    by_cases hp : path ∈ e.paths
    · have hfiles := Environment.files_createFile hc path text
      rw [if_pos hp] at hfiles
      rw [if_pos hp, Environment.updateFile_of_mem hc hp, Agrees]
      exact hfiles ▸ h.setText path text
    · rw [if_neg hp, Environment.updateFile_of_notMem hc hp]
      exact h
  | program =>
    simp only [Database.perform, Environment.perform, Agrees, Environment.files_snapshot hc]
    exact (h.answers he).2

/-- A database goes along with an environment. -/
theorem agrees_run (he : e.Sound) (hnever : ∀ f ∈ e.files, f.reading = .never)
    (ops : List Operation) : ((Database.ofFiles e.files).run ops).Agrees (e.run ops) := by
  have hrun : ∀ {d : Database} {e : Environment}, d.Agrees e → e.Sound →
      (d.run ops).Agrees (e.run ops) := by
    induction ops with
    | nil => exact fun h _ => h
    | cons op ops ih => exact fun h he => ih (h.perform he op) (he.perform op)
  exact hrun (agrees_ofFiles hnever) he

/-- A program of a database takes as many queries as one of the environment, and has the same files. -/
theorem Agrees.program (h : d.Agrees e) (he : e.Sound) :
    d.executions = e.snapshot.queries ∧
      d.programFiles = e.files.map fun f => .ofText f.path f.text := by
  have hread := (h.answers he).1
  constructor
  · have := congrArg (List.map (·.2)) hread
    simp only [List.map_map, Function.comp_def] at this
    simp only [executions, this, Environment.queries_eq he.coherent]
  · have := congrArg (List.map (·.1)) hread
    simp only [List.map_map, Function.comp_def] at this
    rw [programFiles, this]
    exact List.map_congr_left fun f hf => SourceFile.read_eq_ofText (he.faithful f hf)

end Database

namespace Environment

/-- What a program takes and gives after operations. -/
structure Recomputes (e : Environment) (ops : List Operation) : Prop where
  /-- The operations give every file one number of queries. -/
  cost : ∀ path ∈ (e.run ops).paths, ∃! n, e.Costs ops path n
  /-- As many are executed for a program as for its files together. -/
  executions : ∀ cost : String → Nat, (∀ path ∈ (e.run ops).paths, e.Costs ops path (cost path)) →
    ((Database.ofFiles e.files).run ops).executions = ((e.run ops).paths.map cost).sum
  /-- The environment counts them. -/
  queries : (e.run ops).snapshot.queries = ((Database.ofFiles e.files).run ops).executions
  /-- There is a program unless there are no files. -/
  program? : (e.run ops).snapshot.program? = none ↔ (e.run ops).paths = []
  /-- It has the trees and the bindings of the present texts, as they are computed from scratch. -/
  files : ∀ p, (e.run ops).snapshot.program? = some p →
    p.files = ((Database.ofFiles e.files).run ops).programFiles ∧
      p.files = (e.run ops).files.map fun f =>
        ⟨.parse f.path f.text, .ofTree (.parse f.path f.text)⟩

/-- **A program takes only the queries that its operations make necessary**: after any creations,
updates and earlier programs two for a file that is new or has another text than in the last program, one
for a file that got the same text again, and none for any other file. Its trees and bindings are those
of the present texts. -/
theorem recomputes_run {store : FileStore} {roots : List String} {config : Config} {e : Environment}
    (h : ofRoots store roots config = .ok e) (ops : List Operation) : e.Recomputes ops := by
  obtain ⟨hsound, -, -, hnever⟩ := of_ofRoots h
  have hrun := hsound.run ops
  have hagrees := Database.agrees_run hsound hnever ops
  obtain ⟨hexecutions, hfiles⟩ := hagrees.program hrun
  have hprogram := program?_snapshot hrun
  refine ⟨fun path hmem => ?_, fun cost hcost => ?_, hexecutions.symm, ?_, fun p hp => ?_⟩
  · obtain ⟨f, hf, rfl⟩ := List.mem_map.1 hmem
    have hcosts := (recorded_run hsound hnever ops f hf).costs hsound hf
    exact ⟨f.read.2, hcosts, fun n hn => hn.unique hcosts⟩
  · rw [hexecutions, queries_run hsound hnever hcost]
  · rw [hprogram, paths]
    cases (e.run ops).files <;> simp
  · rw [hprogram] at hp
    split at hp
    · cases hp
    · obtain rfl := Option.some.inj hp
      exact ⟨hfiles.symm, rfl⟩

/-- A file that gets its text again, one that gets another text and its old one back, one that is left
alone, one that is new, and an update of a file that is not there. -/
theorem recomputes_run_four_files :
    ∃ e : Environment, ofRoots { files := Table.ofList [("/a.ts", "let a"), ("/b.ts", "let b"),
        ("/c.ts", "let c")] } ["/a.ts", "/b.ts", "/a.ts", "/c.ts"] Table.empty = .ok e ∧
      e.Recomputes [.program, .update "/a.ts" "let a", .update "/b.ts" "let", .update "/b.ts" "let b",
        .create "/d.ts" "", .update "/e.ts" "let e"] := by
  obtain ⟨e, hnew⟩ : ∃ e, ofRoots { files := Table.ofList [("/a.ts", "let a"), ("/b.ts", "let b"),
      ("/c.ts", "let c")] } ["/a.ts", "/b.ts", "/a.ts", "/c.ts"] Table.empty = .ok e := ⟨_, rfl⟩
  exact ⟨e, hnew, recomputes_run hnew _⟩

end Environment

end ScriptAnalysis.Project

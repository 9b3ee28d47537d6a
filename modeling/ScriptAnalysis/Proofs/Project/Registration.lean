import ScriptAnalysis.Proofs.Project.Operations

/-!
# Environments as ordered maps

Whatever files an environment begins with, and whatever is created and updated afterwards, it is a
map from paths to texts that keeps its paths in the order of their registration. `registered` and
`lastText?` read that map off the operations alone: a path is registered by the first operation that
creates it, and its text is the one that was given last. `Follows` says that the files, the store and
the counts agree with it, and `isOrderedMap_run` that this holds after any operations, together with
what follows for the next operation, for a program and for an environment over the same store.
-/

namespace ScriptAnalysis.Project

open Semantics (ProgramFile Program)

/-! ### What operations say -/

namespace Operation

/-- The path of a file that is created. -/
def created? : Operation → Option String
  | create path _ => some path
  | update .. | program => none

/-- The path of a file with the text that it is given. -/
def given? : Operation → Option (String × String)
  | create path text | update path text => some (path, text)
  | program => none

/-- Whether a file is updated that is one of some. -/
def updates (paths : List String) : Operation → Bool
  | update path _ => decide (path ∈ paths)
  | create .. | program => false

end Operation

/-- The paths that are registered after operations on the files `roots`, in the order in which they
first came. -/
def registered (roots : List String) (ops : List Operation) : List String :=
  (roots ++ ops.filterMap (·.created?)).eraseDups

/-- The text that operations gave to a path last. -/
def lastText? (ops : List Operation) (path : String) : Option String :=
  (ops.filterMap (·.given?)).reverse.lookup path

/-- How many of the operations update a file that is registered by then. -/
def updateCount (roots : List String) (ops : List Operation) : Nat :=
  (List.range ops.length).countP fun i => ops[i]?.any (·.updates (registered roots (ops.take i)))

section
variable (roots : List String) (ops : List Operation) (op : Operation) (path text : String)

@[simp] theorem registered_nil : registered roots [] = roots.eraseDups := by simp [registered]

theorem registered_concat_create :
    registered roots (ops ++ [.create path text]) =
      if path ∈ registered roots ops then registered roots ops
      else registered roots ops ++ [path] := by
  have hmem : path ∈ registered roots ops ↔ path ∈ roots ++ ops.filterMap (·.created?) :=
    List.mem_eraseDups
  simp only [hmem]
  simp only [registered, List.filterMap_append, ← List.append_assoc]
  exact eraseDups_concat _ path

theorem mem_registered_concat_create (other : String) :
    other ∈ registered roots (ops ++ [.create path text]) ↔
      other = path ∨ other ∈ registered roots ops := by
  rw [registered_concat_create]
  by_cases h : path ∈ registered roots ops
  · rw [if_pos h]
    exact ⟨.inr, fun ho => ho.elim (· ▸ h) id⟩
  · rw [if_neg h, List.mem_append, List.mem_singleton, or_comm]

theorem registered_concat_of_created?_eq_none {op : Operation} (h : op.created? = none) :
    registered roots (ops ++ [op]) = registered roots ops := by
  simp [registered, h]

theorem lastText?_concat_of_given? {op : Operation} (h : op.given? = some (path, text))
    (other : String) :
    lastText? (ops ++ [op]) other = if other = path then some text else lastText? ops other := by
  simp only [lastText?, List.filterMap_append, List.reverse_append, List.filterMap_cons, h,
    List.filterMap_nil, List.reverse_singleton, List.singleton_append, List.lookup_cons]
  by_cases ho : other = path
  · simp [ho]
  · simp [ho, beq_eq_false_iff_ne.2 ho]

theorem lastText?_concat_program : lastText? (ops ++ [.program]) = lastText? ops := by
  funext other
  simp [lastText?, Operation.given?]

theorem updateCount_concat :
    updateCount roots (ops ++ [op]) =
      updateCount roots ops + if op.updates (registered roots ops) then 1 else 0 := by
  have hbefore : ∀ i ∈ List.range ops.length,
      (ops ++ [op])[i]?.any (·.updates (registered roots ((ops ++ [op]).take i))) =
        ops[i]?.any (·.updates (registered roots (ops.take i))) := by
    intro i hi
    have hlt := List.mem_range.1 hi
    rw [List.getElem?_append_left hlt, List.take_append_of_le_length (by omega)]
  simp only [updateCount, List.length_append, List.length_singleton, List.range_succ,
    List.countP_append, List.countP_singleton, List.getElem?_concat_length, List.take_left']
  rw [List.countP_congr fun i hi => by rw [hbefore i hi]]
  simp

end

namespace Environment

/-! ### The invariant -/

/-- The files, the store and the counts of an environment are those of an ordered map that began with
the files `roots` of `files` and went through operations. -/
structure Follows (e : Environment) (files : Table String) (roots : List String)
    (ops : List Operation) : Prop where
  sound : e.Sound
  isReadOnly : e.store.isReadOnly = false
  paths : e.paths = registered roots ops
  text : ∀ path ∈ registered roots ops, e.text? path = (lastText? ops path).or (files.get? path)
  store : ∀ path, e.store.read? path =
    if path ∈ registered roots ops then (lastText? ops path).or (files.get? path)
    else files.get? path
  created : e.created = ops.countP (·.created?.isSome)
  updated : e.updated = updateCount roots ops

namespace Follows

variable {e : Environment} {files : Table String} {roots : List String} {ops : List Operation}

theorem ofRoots {config : Config} (h : Environment.ofRoots { files } roots config = .ok e) :
    e.Follows files roots [] := by
  have hnew := isNew_of_ofRoots h
  obtain ⟨hsound, hpaths, htext, -⟩ := of_ofRoots h
  refine ⟨hsound, by rw [hnew.store], by rw [hpaths, registered_nil], fun path hmem => ?_,
    fun path => ?_, hnew.created, hnew.updated⟩
  · rw [registered_nil, List.mem_eraseDups] at hmem
    exact htext path hmem
  · rw [hnew.store]
    exact (ite_self _).symm

/-- A text that is written for a file of the map. -/
theorem give (h : e.Follows files roots ops) (op : Operation) {path text : String}
    (hgiven : op.given? = some (path, text))
    (hmem : ∀ other, other ∈ registered roots (ops ++ [op]) ↔
      other = path ∨ other ∈ registered roots ops) :
    (∀ other ∈ registered roots (ops ++ [op]),
      (e.createFile path text).text? other =
        (lastText? (ops ++ [op]) other).or (files.get? other)) ∧
    ∀ other, (e.createFile path text).store.read? other =
      if other ∈ registered roots (ops ++ [op])
        then (lastText? (ops ++ [op]) other).or (files.get? other) else files.get? other := by
  have hlast := lastText?_concat_of_given? ops path text hgiven
  constructor
  · intro other hother
    rw [text?_createFile h.sound.coherent, hlast]
    by_cases heq : other = path
    · simp [heq]
    · rw [if_neg heq, if_neg heq]
      exact h.text other (((hmem other).1 hother).resolve_left heq)
  · intro other
    rw [store_createFile, FileStore.read?_write h.isReadOnly, hlast, h.store]
    simp only [hmem]
    by_cases heq : other = path
    · simp [heq]
    · simp [heq]

theorem create (h : e.Follows files roots ops) (path text : String) :
    (e.createFile path text).Follows files roots (ops ++ [.create path text]) := by
  obtain ⟨htext, hstore⟩ :=
    h.give (.create path text) rfl (mem_registered_concat_create roots ops path text)
  refine ⟨h.sound.createFile path text, ?_, ?_, htext, hstore, ?_, ?_⟩
  · rw [store_createFile, FileStore.write]
    split
    · exact h.isReadOnly
    · exact h.isReadOnly
  · rw [paths_createFile h.sound.coherent, registered_concat_create, h.paths]
  · simp [h.created, Operation.created?]
  · simp [h.updated, updateCount_concat, Operation.updates]

theorem update (h : e.Follows files roots ops) (path text : String) :
    (e.perform (.update path text)).Follows files roots (ops ++ [.update path text]) := by
  have hsame : registered roots (ops ++ [.update path text]) = registered roots ops :=
    registered_concat_of_created?_eq_none roots ops rfl
  by_cases hmem : path ∈ e.paths
  · have hregistered : path ∈ registered roots ops := h.paths ▸ hmem
    have hperform : e.perform (.update path text) =
        { e.createFile path text with created := e.created, updated := e.updated + 1 } := by
      rw [perform, updateFile_of_mem h.sound.coherent hmem]
    have hcreate := h.create path text
    obtain ⟨htext, hstore⟩ := h.give (.update path text) rfl fun other => by
      rw [hsame]
      exact ⟨.inr, fun ho => ho.elim (· ▸ hregistered) id⟩
    rw [hperform]
    refine ⟨⟨hcreate.sound.coherent.congr rfl rfl rfl, hcreate.sound.faithful,
      hcreate.sound.options⟩, hcreate.isReadOnly, ?_, htext, hstore, ?_, ?_⟩
    · refine (paths_createFile h.sound.coherent path text).trans ?_
      rw [if_pos hmem, hsame, h.paths]
    · simp [h.created, Operation.created?]
    · simp [h.updated, updateCount_concat, Operation.updates, hregistered]
  · have hperform : e.perform (.update path text) = e := by
      rw [Environment.perform, updateFile_of_notMem h.sound.coherent hmem]
    have hregistered : path ∉ registered roots ops := h.paths ▸ hmem
    -- the text that is refused is of a path that is not looked at
    have hlast : ∀ other ∈ registered roots ops,
        lastText? (ops ++ [.update path text]) other = lastText? ops other := by
      intro other ho
      rw [lastText?_concat_of_given? ops path text rfl, if_neg]
      rintro rfl
      exact hregistered ho
    rw [hperform]
    refine ⟨h.sound, h.isReadOnly, by rw [hsame, h.paths], ?_, ?_, ?_, ?_⟩
    · intro other ho
      rw [hsame] at ho
      rw [hlast other ho, h.text other ho]
    · intro other
      rw [hsame, h.store]
      split
      · rename_i ho
        rw [hlast other ho]
      · rfl
    · simp [h.created, Operation.created?]
    · simp [h.updated, updateCount_concat, Operation.updates, hregistered]

theorem program (h : e.Follows files roots ops) :
    e.snapshot.environment.Follows files roots (ops ++ [.program]) := by
  have hsame : registered roots (ops ++ [.program]) = registered roots ops :=
    registered_concat_of_created?_eq_none roots ops rfl
  refine ⟨h.sound.snapshot, ?_, ?_, fun path hmem => ?_, fun path => ?_, ?_, ?_⟩
  · rw [store_snapshot, h.isReadOnly]
  · rw [paths_snapshot h.sound.coherent, hsame, h.paths]
  · rw [hsame] at hmem
    rw [text?_snapshot h.sound.coherent, lastText?_concat_program, h.text path hmem]
  · rw [hsame, lastText?_concat_program, store_snapshot]
    exact h.store path
  · simp [h.created, Operation.created?]
  · simp [h.updated, updateCount_concat, Operation.updates]

theorem perform (h : e.Follows files roots ops) (op : Operation) :
    (e.perform op).Follows files roots (ops ++ [op]) := by
  cases op with
  | create path text => exact h.create path text
  | update path text => exact h.update path text
  | program => exact h.program

theorem run (h : e.Follows files roots []) (ops : List Operation) :
    (e.run ops).Follows files roots ops := by
  induction ops using List.reverseRecOn with
  | nil => exact h
  | append_singleton ops op ih =>
    rw [run_concat]
    exact ih.perform op

/-- The store has the text of every file. -/
theorem read?_eq_text? (h : e.Follows files roots ops) {path : String} (hp : path ∈ e.paths) :
    e.store.read? path = e.text? path := by
  have hmem : path ∈ registered roots ops := h.paths ▸ hp
  rw [h.store, if_pos hmem, h.text path hmem]

end Follows

/-! ### The map and what is made from it -/

/-- The environment is the ordered map of what operations gave to its files, and every further use of
it sees that map: the list of paths, the handles under the paths, the storage, the counts and the store
say the same. -/
structure IsOrderedMap (e : Environment) (files : Table String) (roots : List String)
    (ops : List Operation) : Prop where
  /-- The paths are those registered, in order. -/
  paths : e.paths = registered roots ops
  /-- None comes twice. -/
  nodup : e.paths.Nodup
  /-- The files under paths are the same ones. -/
  contains : ∀ path, e.contains path = true ↔ path ∈ registered roots ops
  /-- A registered path has the text that it was given last, or the one of the store at first. -/
  text : ∀ path ∈ e.paths, ∃ text, (lastText? ops path).or (files.get? path) = some text ∧
    e.text? path = some text
  /-- No other path has a text. -/
  text_eq_none : ∀ path ∉ e.paths, e.text? path = none
  /-- The store has the text of every registered path, and is as it was at the others. -/
  store : ∀ path, e.store.read? path = if path ∈ e.paths then e.text? path else files.get? path
  /-- Every creation counts. -/
  created : e.created = ops.countP (·.created?.isSome)
  /-- Every update of a registered path counts. -/
  updated : e.updated = updateCount roots ops
  /-- An update succeeds exactly for a registered path. -/
  update : ∀ path text, path ∈ e.paths ↔ (e.updateFile path text).1 = .ok ()
  /-- One that fails says so, and leaves everything as it is. -/
  refused : ∀ path text, path ∉ e.paths →
    (e.updateFile path text).1 = .error (.unknownFile path) ∧ (e.updateFile path text).2 = e
  /-- There is a program exactly when a path is registered. -/
  program? : e.snapshot.program? = none ↔ e.paths = []
  /-- A program has one file for each path, in order, read from its text. -/
  program : ∀ p, e.snapshot.program? = some p →
    p.rootFileNames = e.paths ∧
      p.files.map (fun file => some file.tree.text) = e.paths.map e.text? ∧
      ∀ path, p.file? path = (e.text? path).map (ProgramFile.ofText path)
  /-- An environment over the same paths and the same store fails only for its configuration. -/
  refounded : ∀ config error, Environment.ofRoots e.store e.paths config = .error error ↔
    ∃ cause, Config.Options.ofConfig config = .error cause ∧ error = .invalidConfig cause
  /-- It has the same paths and the same texts. -/
  same : ∀ config e', Environment.ofRoots e.store e.paths config = .ok e' →
    e'.paths = e.paths ∧ ∀ path, e'.text? path = e.text? path

theorem text?_eq_none_iff {e : Environment} (h : e.Coherent) (path : String) :
    e.text? path = none ↔ path ∉ e.paths := by
  rw [← Option.not_isSome_iff_eq_none, h.text?_isSome_iff]

theorem rootFileNames_program {e : Environment} (h : e.Sound) {p : Program}
    (hp : e.snapshot.program? = some p) : p.rootFileNames = e.paths ∧
      p.files.map (fun file => some file.tree.text) = e.paths.map e.text? := by
  rw [program?_snapshot h] at hp
  split at hp
  · cases hp
  · obtain rfl := Option.some.inj hp
    simp only [Program.rootFileNames, Program.ofFiles, List.map_map, paths]
    exact ⟨rfl, List.map_congr_left fun f hf => (text?_of_mem h hf).symm⟩

theorem Follows.isOrderedMap {e : Environment} {files : Table String} {roots : List String}
    {ops : List Operation} (h : e.Follows files roots ops) : e.IsOrderedMap files roots ops where
  paths := h.paths
  nodup := h.sound.nodup
  contains := by
    intro path
    rw [h.sound.coherent.contains_iff, h.paths]
  text := by
    intro path hp
    obtain ⟨text, htext⟩ := Option.isSome_iff_exists.1 ((h.sound.coherent.text?_isSome_iff path).2 hp)
    exact ⟨text, by rw [← h.text path (h.paths ▸ hp), htext], htext⟩
  text_eq_none := fun path hp => (text?_eq_none_iff h.sound.coherent path).2 hp
  store := by
    intro path
    by_cases hp : path ∈ e.paths
    · rw [if_pos hp, h.read?_eq_text? hp]
    · rw [if_neg hp, h.store, if_neg (h.paths ▸ hp)]
  created := h.created
  updated := h.updated
  update := by
    intro path text
    by_cases hp : path ∈ e.paths
    · rw [updateFile_of_mem h.sound.coherent hp]
      exact ⟨fun _ => rfl, fun _ => hp⟩
    · rw [updateFile_of_notMem h.sound.coherent hp]
      exact ⟨fun hmem => absurd hmem hp, fun herror => by cases herror⟩
  refused := by
    intro path text hp
    rw [updateFile_of_notMem h.sound.coherent hp]
    exact ⟨rfl, rfl⟩
  program? := by
    rw [program?_snapshot h.sound, Environment.paths]
    cases e.files <;> simp
  program := by
    intro p hp
    obtain ⟨hnames, htexts⟩ := rootFileNames_program h.sound hp
    exact ⟨hnames, htexts, file?_program h.sound hp⟩
  refounded := by
    refine ofRoots_eq_error_iff fun path hp => ?_
    rw [h.read?_eq_text? hp, h.sound.coherent.text?_isSome_iff]
    exact hp
  same := by
    intro config e' he'
    obtain ⟨hsound, hpaths, htext, -⟩ := of_ofRoots he'
    replace hpaths : e'.paths = e.paths := hpaths.trans (eraseDups_of_nodup h.sound.nodup)
    refine ⟨hpaths, fun path => ?_⟩
    by_cases hp : path ∈ e.paths
    · rw [htext path hp, h.read?_eq_text? hp]
    · rw [(text?_eq_none_iff h.sound.coherent path).2 hp, text?_eq_none_iff hsound.coherent, hpaths]
      exact hp

/-- **An environment is an ordered map**, whichever files of a store it begins with and whichever are
created and updated afterwards, programs being made in between or not. -/
theorem isOrderedMap_run {e : Environment} {files : Table String} {roots : List String}
    {config : Config} (h : ofRoots { files } roots config = .ok e) (ops : List Operation) :
    (e.run ops).IsOrderedMap files roots ops :=
  ((Follows.ofRoots h).run ops).isOrderedMap

/-- A root that comes twice, an update that is refused, and a creation that is an update. -/
theorem isOrderedMap_run_two_files :
    ∃ e : Environment,
      ofRoots { files := Table.ofList [("/a.ts", "let a"), ("/b.ts", "")] }
        ["/b.ts", "/a.ts", "/b.ts"] .empty = .ok e ∧
      (e.run [.update "/c.ts" "x", .create "/c.ts" "y", .program, .create "/a.ts" "",
        .update "/c.ts" "z"]).IsOrderedMap
        (Table.ofList [("/a.ts", "let a"), ("/b.ts", "")]) ["/b.ts", "/a.ts", "/b.ts"]
        [.update "/c.ts" "x", .create "/c.ts" "y", .program, .create "/a.ts" "",
          .update "/c.ts" "z"] := by
  obtain ⟨e, hnew⟩ : ∃ e, ofRoots { files := Table.ofList [("/a.ts", "let a"), ("/b.ts", "")] }
      ["/b.ts", "/a.ts", "/b.ts"] .empty = .ok e := ⟨_, rfl⟩
  exact ⟨e, hnew, isOrderedMap_run hnew _⟩

end Environment

end ScriptAnalysis.Project

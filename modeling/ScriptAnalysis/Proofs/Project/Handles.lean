import Mathlib.Algebra.Ring.Nat
import ScriptAnalysis.Project.Environment
import ScriptAnalysis.Proofs.Collections

/-!
# Environments as lists of files

An environment keeps the handles of its files in order and once more under their paths, and the files
themselves in a storage. `Coherent` says that the three are in step: the handles are distinct handles of
the storage, and under a path is the one whose file has it. Then an environment is nothing but the list
of its files. Each operation does to that list what its lemma here says (`files_createFile`,
`updateFile_of_mem`, `updateFile_of_notMem`, `files_snapshot`, `registerRoots_eq`), and keeps the three
in step; what can be asked is asked of the list.
-/

namespace ScriptAnalysis.Project

open Semantics (ProgramFile Program)

/-! ### Storages -/

namespace Storage

variable {s : Storage} {id : FileId}

/-- The handle is one of the storage. -/
def Has (s : Storage) (id : FileId) : Prop := id.index < s.inputs.length

theorem has_make (h : s.Has id) (path text : String) : (s.make path text).2.Has id := by
  simp only [Has, make, List.length_append, List.length_singleton] at h ⊢
  omega

theorem has_make_self (s : Storage) (path text : String) :
    (s.make path text).2.Has (s.make path text).1 := by
  simp [Has, make]

/-- A file that is made has a handle that was not there. -/
theorem ne_make (h : s.Has id) (path text : String) : id ≠ (s.make path text).1 := by
  rintro rfl
  simp [Has, make] at h

theorem get_make (h : s.Has id) (path text : String) : (s.make path text).2.get id = s.get id := by
  simp only [get, make]
  rw [List.getElem?_append_left h]

@[simp] theorem get_make_self (s : Storage) (path text : String) :
    (s.make path text).2.get (s.make path text).1 = .ofText path text := by
  simp [get, make]

variable {change : SourceFile → SourceFile}

@[simp] theorem has_modify {other : FileId} : (s.modify other change).Has id ↔ s.Has id := by
  simp [Has, modify]

@[simp] theorem get_modify_self (h : s.Has id) : (s.modify id change).get id = change (s.get id) := by
  simp only [get, modify, List.getElem?_modify_eq]
  rw [List.getElem?_eq_getElem h]
  rfl

theorem get_modify_of_ne {other : FileId} (h : other ≠ id) :
    (s.modify id change).get other = s.get other := by
  have hindex : id.index ≠ other.index := fun heq => h (congrArg FileId.mk heq.symm)
  simp only [get, modify, List.getElem?_modify, if_neg hindex, id_map']

/-- Of distinct handles each is read once, and no other file is touched. -/
theorem readAll_eq {ids : List FileId} (hhas : ∀ id ∈ ids, s.Has id) (hnodup : ids.Nodup) :
    (s.readAll ids).1 = (ids.map fun id => (s.get id).read.1, (ids.map fun id => (s.get id).read.2).sum) ∧
      ∀ id, ((s.readAll ids).2.Has id ↔ s.Has id) ∧
        (s.readAll ids).2.get id = if id ∈ ids then (s.get id).withReading else s.get id := by
  induction ids generalizing s with
  | nil => exact ⟨rfl, fun id => ⟨Iff.rfl, by simp [readAll]⟩⟩
  | cons first ids ih =>
    obtain ⟨hfirst, hrest⟩ := List.forall_mem_cons.1 hhas
    obtain ⟨hnot, hnodup⟩ := List.nodup_cons.1 hnodup
    obtain ⟨hread, hstorage⟩ := ih (s := s.modify first (·.withReading))
      (fun id hid => has_modify.2 (hrest id hid)) hnodup
    have hsame : ∀ id ∈ ids, (s.modify first (·.withReading)).get id = s.get id := fun id hid =>
      get_modify_of_ne (ne_of_mem_of_not_mem hid hnot)
    constructor
    · have hfiles := List.map_congr_left fun id hid => congrArg (·.read.1) (hsame id hid)
      have hqueries := List.map_congr_left fun id hid => congrArg (·.read.2) (hsame id hid)
      simp only [readAll, hread, List.map_cons, List.sum_cons, hfiles, hqueries]
    · intro id
      obtain ⟨hhas, hget⟩ := hstorage id
      refine ⟨hhas.trans has_modify, hget.trans ?_⟩
      by_cases hid : id = first
      · subst hid
        rw [if_neg hnot, get_modify_self hfirst, if_pos (List.mem_cons_self ..)]
      · rw [get_modify_of_ne hid]
        simp only [List.mem_cons, hid, false_or]

end Storage

namespace Environment

/-! ### The handles and the storage in step -/

/-- The handles are distinct ones of the storage, and under a path is the one whose file has it. -/
structure Coherent (e : Environment) : Prop where
  has : ∀ id ∈ e.handles, e.storage.Has id
  nodup : e.handles.Nodup
  byPath : ∀ path id, e.byPath.get? path = some id ↔
    id ∈ e.handles ∧ (e.storage.get id).path = path

variable {e : Environment}

theorem coherent_new (store : FileStore) (config : Config) (options : Config.Options) :
    Coherent { store, config, options } where
  has := by simp
  nodup := List.nodup_nil
  byPath := by simp

namespace Coherent

/-- Two handles of one path are one. -/
theorem inj (h : e.Coherent) {a b : FileId} (ha : a ∈ e.handles) (hb : b ∈ e.handles)
    (heq : (e.storage.get a).path = (e.storage.get b).path) : a = b := by
  have hpath := (h.byPath _ a).2 ⟨ha, rfl⟩
  rw [heq, (h.byPath _ b).2 ⟨hb, rfl⟩] at hpath
  exact (Option.some.inj hpath).symm

/-- No two files have one path. -/
theorem nodup_paths (h : e.Coherent) : e.paths.Nodup := by
  rw [paths, files, List.map_map]
  exact h.nodup.map_on fun a ha b hb => h.inj ha hb

theorem contains_iff (h : e.Coherent) (path : String) : e.contains path = true ↔ path ∈ e.paths := by
  simp only [contains, paths, files, List.map_map, List.mem_map, Option.isSome_iff_exists, h.byPath]
  rfl

theorem get?_byPath_eq_none (h : e.Coherent) {path : String} (hnot : path ∉ e.paths) :
    e.byPath.get? path = none := by
  rw [← h.contains_iff] at hnot
  simpa [contains] using hnot

theorem exists_get?_byPath (h : e.Coherent) {path : String} (hmem : path ∈ e.paths) :
    ∃ id ∈ e.handles, e.byPath.get? path = some id ∧ (e.storage.get id).path = path := by
  rw [← h.contains_iff, contains, Option.isSome_iff_exists] at hmem
  obtain ⟨id, hid⟩ := hmem
  obtain ⟨hhandle, hpath⟩ := (h.byPath path id).1 hid
  exact ⟨id, hhandle, hid, hpath⟩

theorem text?_eq_some_iff (h : e.Coherent) {path text : String} :
    e.text? path = some text ↔ ∃ f ∈ e.files, f.path = path ∧ f.text = text := by
  simp only [text?, files, Option.map_eq_some_iff, h.byPath, List.mem_map]
  constructor
  · rintro ⟨id, ⟨hid, hpath⟩, htext⟩
    exact ⟨_, ⟨id, hid, rfl⟩, hpath, htext⟩
  · rintro ⟨_, ⟨id, hid, rfl⟩, hpath, htext⟩
    exact ⟨id, ⟨hid, hpath⟩, htext⟩

theorem text?_isSome_iff (h : e.Coherent) (path : String) :
    (e.text? path).isSome = true ↔ path ∈ e.paths := by
  rw [← h.contains_iff, text?, Option.isSome_map, contains]

/-- Environments with the same files have the same texts. -/
theorem text?_congr {e' : Environment} (h : e.Coherent) (h' : e'.Coherent)
    (hpairs : e.files.map (fun f => (f.path, f.text)) = e'.files.map fun f => (f.path, f.text))
    (path : String) : e.text? path = e'.text? path := by
  have hiff : ∀ {e : Environment} (_ : e.Coherent) (text : String), e.text? path = some text ↔
      (path, text) ∈ e.files.map fun f => (f.path, f.text) := by
    intro e h text
    rw [h.text?_eq_some_iff]
    simp
  exact Option.ext fun text => by rw [hiff h, hiff h', hpairs]

/-- Counts and the store are nothing that has to be in step. -/
theorem congr {e' : Environment} (h : e.Coherent) (hstorage : e'.storage = e.storage)
    (hhandles : e'.handles = e.handles) (hpath : e'.byPath = e.byPath) : e'.Coherent := by
  refine ⟨?_, ?_, ?_⟩
  · rw [hstorage, hhandles]
    exact h.has
  · rw [hhandles]
    exact h.nodup
  · rw [hstorage, hhandles, hpath]
    exact h.byPath

end Coherent

/-! ### New files -/

theorem files_register (h : e.Coherent) (path text : String) :
    (e.register path text).files = e.files ++ [.ofText path text] := by
  simp only [register, files, List.map_append, List.map_singleton, Storage.get_make_self]
  congr 1
  exact List.map_congr_left fun id hid => Storage.get_make (h.has id hid) path text

theorem Coherent.register (h : e.Coherent) {path : String} (hnot : path ∉ e.paths) (text : String) :
    (e.register path text).Coherent where
  has := by
    intro id hid
    rcases List.mem_append.1 hid with hid | hid
    · exact Storage.has_make (h.has id hid) path text
    · rw [List.mem_singleton.1 hid]
      exact Storage.has_make_self ..
  nodup := by
    refine List.nodup_append.2 ⟨h.nodup, List.nodup_singleton _, fun id hid other hother => ?_⟩
    rw [List.mem_singleton.1 hother]
    exact Storage.ne_make (h.has id hid) path text
  byPath := by
    intro other id
    simp only [Environment.register, Table.get?_insert, List.mem_append, List.mem_singleton]
    by_cases hid : id = (e.storage.make path text).1
    · subst hid
      have hold : (e.storage.make path text).1 ∉ e.handles := fun hmem =>
        Storage.ne_make (h.has _ hmem) path text rfl
      rw [Storage.get_make_self]
      by_cases hother : other = path
      · simp [hother, SourceFile.ofText]
      · rw [if_neg hother, h.byPath]
        simp [hold, SourceFile.ofText, Ne.symm hother]
    · simp only [hid, or_false]
      by_cases hother : other = path
      · subst hother
        rw [if_pos rfl]
        refine ⟨fun heq => absurd (Option.some.inj heq).symm hid, fun ⟨hmem, hpath⟩ => ?_⟩
        rw [Storage.get_make (h.has id hmem)] at hpath
        exact absurd (List.mem_map.2 ⟨_, List.mem_map_of_mem hmem, hpath⟩) hnot
      · rw [if_neg hother, h.byPath]
        refine and_congr_right fun hmem => ?_
        rw [Storage.get_make (h.has id hmem)]

/-! ### A change of one file -/

section
variable {id : FileId} {change : SourceFile → SourceFile}

/-- The file under a path is the only one that a change of it reaches. -/
theorem files_modify (h : e.Coherent) (hid : id ∈ e.handles) :
    e.handles.map (e.storage.modify id change).get =
      e.files.map fun f => if f.path = (e.storage.get id).path then change f else f := by
  rw [files, List.map_map]
  refine List.map_congr_left fun other hother => ?_
  by_cases heq : other = id
  · subst heq
    simp [Storage.get_modify_self (h.has other hother)]
  · rw [Storage.get_modify_of_ne heq]
    exact (if_neg fun hpath => heq (h.inj hother hid hpath)).symm

theorem Coherent.modify (h : e.Coherent) (hpath : ∀ f, (change f).path = f.path) :
    Coherent { e with storage := e.storage.modify id change } where
  has := fun other hother => Storage.has_modify.2 (h.has other hother)
  nodup := h.nodup
  byPath := by
    intro path other
    rw [h.byPath]
    refine and_congr_right fun hother => ?_
    by_cases heq : other = id
    · subst heq
      simp [Storage.get_modify_self (h.has other hother), hpath]
    · rw [Storage.get_modify_of_ne heq]

end

/-! ### Creating and updating files -/

/-- The files with a text for one of them. -/
def setText (e : Environment) (path text : String) : List SourceFile :=
  e.files.map fun f => if f.path = path then f.setText text else f

/-- The file of a known path gets the text; a new path comes last. -/
theorem files_createFile (h : e.Coherent) (path text : String) :
    (e.createFile path text).files =
      if path ∈ e.paths then e.setText path text else e.files ++ [.ofText path text] := by
  by_cases hmem : path ∈ e.paths
  · obtain ⟨id, hid, hget, hpath⟩ := h.exists_get?_byPath hmem
    rw [if_pos hmem, setText, ← hpath, ← files_modify h hid, hpath]
    simp only [createFile, hget]
    rfl
  · simp only [if_neg hmem, createFile, h.get?_byPath_eq_none hmem]
    exact files_register (h.congr rfl rfl rfl) path text

theorem Coherent.createFile (h : e.Coherent) (path text : String) :
    (e.createFile path text).Coherent := by
  have hwritten : Coherent
      { e with store := e.store.write path text, created := e.created + 1 } := h.congr rfl rfl rfl
  by_cases hmem : path ∈ e.paths
  · obtain ⟨id, -, hget, -⟩ := h.exists_get?_byPath hmem
    simp only [Environment.createFile, hget]
    exact hwritten.modify fun _ => rfl
  · simp only [Environment.createFile, h.get?_byPath_eq_none hmem]
    exact hwritten.register hmem text

section
variable (e) (path text : String)

/-- A file that is created changes the store and the count, and nothing else but where the files are. -/
theorem exists_createFile : ∃ storage handles byPath, e.createFile path text =
    { e with
      storage, handles, byPath, store := e.store.write path text, created := e.created + 1 } := by
  rw [createFile]
  split
  · exact ⟨_, _, _, rfl⟩
  · exact ⟨_, _, _, rfl⟩

@[simp] theorem store_createFile : (e.createFile path text).store = e.store.write path text := by
  obtain ⟨_, _, _, h⟩ := exists_createFile e path text
  rw [h]

@[simp] theorem config_createFile : (e.createFile path text).config = e.config := by
  obtain ⟨_, _, _, h⟩ := exists_createFile e path text
  rw [h]

@[simp] theorem options_createFile : (e.createFile path text).options = e.options := by
  obtain ⟨_, _, _, h⟩ := exists_createFile e path text
  rw [h]

@[simp] theorem created_createFile : (e.createFile path text).created = e.created + 1 := by
  obtain ⟨_, _, _, h⟩ := exists_createFile e path text
  rw [h]

@[simp] theorem updated_createFile : (e.createFile path text).updated = e.updated := by
  obtain ⟨_, _, _, h⟩ := exists_createFile e path text
  rw [h]

end

/-- A known file is updated as it would be created, but for the counts. -/
theorem updateFile_of_mem (h : e.Coherent) {path : String} (hmem : path ∈ e.paths) (text : String) :
    e.updateFile path text =
      (.ok (), { e.createFile path text with created := e.created, updated := e.updated + 1 }) := by
  obtain ⟨id, -, hget, -⟩ := h.exists_get?_byPath hmem
  simp only [updateFile, createFile, hget]

/-- A file that is not known is not updated, and nothing else is done either. -/
theorem updateFile_of_notMem (h : e.Coherent) {path : String} (hnot : path ∉ e.paths)
    (text : String) : e.updateFile path text = (.error (.unknownFile path), e) := by
  simp only [updateFile, h.get?_byPath_eq_none hnot]

/-! ### Programs -/

section
variable (e)

/-- A program changes what is known about the files, and nothing else. -/
theorem exists_snapshot : ∃ storage, e.snapshot.environment = { e with storage } := by
  rw [snapshot]
  split
  · exact ⟨_, rfl⟩
  · exact ⟨_, rfl⟩

@[simp] theorem store_snapshot : e.snapshot.environment.store = e.store := by
  obtain ⟨_, h⟩ := exists_snapshot e
  rw [h]

@[simp] theorem config_snapshot : e.snapshot.environment.config = e.config := by
  obtain ⟨_, h⟩ := exists_snapshot e
  rw [h]

@[simp] theorem options_snapshot : e.snapshot.environment.options = e.options := by
  obtain ⟨_, h⟩ := exists_snapshot e
  rw [h]

@[simp] theorem created_snapshot : e.snapshot.environment.created = e.created := by
  obtain ⟨_, h⟩ := exists_snapshot e
  rw [h]

@[simp] theorem updated_snapshot : e.snapshot.environment.updated = e.updated := by
  obtain ⟨_, h⟩ := exists_snapshot e
  rw [h]

end

theorem snapshot_of_isEmpty (h : e.handles = []) : e.snapshot = ⟨none, 0, e⟩ :=
  if_pos (List.isEmpty_iff.2 h)

theorem snapshot_of_ne_nil (h : e.handles ≠ []) :
    e.snapshot = ⟨some (.ofFiles e.options (e.storage.readAll e.handles).1.1),
      (e.storage.readAll e.handles).1.2, { e with storage := (e.storage.readAll e.handles).2 }⟩ :=
  if_neg (by simpa using h)

/-- A program reads every file once, in order; after it every file is known by what it was read as. -/
theorem snapshot_eq (h : e.Coherent) :
    e.snapshot.program? =
        (if e.files.isEmpty then none else some (.ofFiles e.options (e.files.map (·.read.1)))) ∧
      e.snapshot.queries = (e.files.map (·.read.2)).sum ∧
      e.snapshot.environment.files = e.files.map (·.withReading) ∧
      e.snapshot.environment.Coherent := by
  by_cases hnil : e.handles = []
  · have hfiles : e.files = [] := by rw [files, hnil, List.map_nil]
    rw [snapshot_of_isEmpty hnil]
    simp [hfiles, h]
  · obtain ⟨hread, hstorage⟩ := Storage.readAll_eq h.has h.nodup
    have hne : e.files.isEmpty = false := by simpa [files] using hnil
    have hmap : ∀ {α : Type} (f : SourceFile → α),
        e.files.map f = e.handles.map fun id => f (e.storage.get id) := fun f => by
      rw [files, List.map_map]
      rfl
    rw [snapshot_of_ne_nil hnil, hread, hne, hmap, hmap]
    refine ⟨rfl, rfl, ?_, ?_, h.nodup, ?_⟩
    · rw [files, files, List.map_map]
      exact List.map_congr_left fun id hid => (hstorage id).2.trans (if_pos hid)
    · exact fun id hid => (hstorage id).1.2 (h.has id hid)
    · intro path id
      rw [h.byPath]
      refine and_congr_right fun hid => ?_
      rw [(hstorage id).2, if_pos hid]
      rfl

theorem program?_eq (h : e.Coherent) : e.snapshot.program? =
    if e.files.isEmpty then none else some (.ofFiles e.options (e.files.map (·.read.1))) :=
  (snapshot_eq h).1

theorem queries_eq (h : e.Coherent) : e.snapshot.queries = (e.files.map (·.read.2)).sum :=
  (snapshot_eq h).2.1

theorem files_snapshot (h : e.Coherent) :
    e.snapshot.environment.files = e.files.map (·.withReading) := (snapshot_eq h).2.2.1

theorem Coherent.snapshot (h : e.Coherent) : e.snapshot.environment.Coherent := (snapshot_eq h).2.2.2

/-! ### Environments over the files of a store -/

/-- The files of a store, each path once, after those that are there. -/
def rootFiles (store : FileStore) (files : List SourceFile) :
    List String → Except EnvironmentError (List SourceFile)
  | [] => .ok files
  | path :: paths =>
    if path ∈ files.map (·.path) then rootFiles store files paths
    else match store.read? path with
      | none => .error (.missingRootFile path)
      | some text => rootFiles store (files ++ [.ofText path text]) paths

/-- What is begun is kept when files of the store are registered, and nothing but files comes to it. -/
theorem exists_registerRoots (e : Environment) (roots : List String) :
    ∃ storage handles byPath, (e.registerRoots roots).2 = { e with storage, handles, byPath } := by
  induction roots generalizing e with
  | nil => exact ⟨_, _, _, rfl⟩
  | cons path roots ih =>
    simp only [registerRoots]
    split
    · exact ih e
    · split
      · exact ⟨_, _, _, rfl⟩
      · exact ih (e.register path _)

/-- The files of the store are registered as they are read, or the first that is missing is told. -/
theorem registerRoots_eq (h : e.Coherent) (roots : List String) :
    (e.registerRoots roots).2.Coherent ∧
      (e.registerRoots roots).1.map (fun _ => (e.registerRoots roots).2.files) =
        rootFiles e.store e.files roots := by
  induction roots generalizing e with
  | nil => exact ⟨h, rfl⟩
  | cons path roots ih =>
    have hpaths : e.files.map (·.path) = e.paths := rfl
    simp only [registerRoots, rootFiles, h.contains_iff path, hpaths]
    by_cases hmem : path ∈ e.paths
    · simp only [if_pos hmem]
      exact ih h
    · simp only [if_neg hmem]
      cases e.store.read? path with
      | none => exact ⟨h, rfl⟩
      | some text =>
        have := ih (h.register hmem text)
        rwa [files_register h] at this

/-- Nothing is written to the store to make an environment, also when it cannot be made. -/
theorem store_create (store : FileStore) (roots : List String) (config : Config) :
    (create store roots config).2 = store := by
  simp only [create]
  split
  · rfl
  · rename_i options _
    obtain ⟨_, _, _, hroots⟩ := exists_registerRoots { store, config, options } roots
    split
    · rename_i heq
      rw [heq] at hroots
      exact congrArg Environment.store hroots
    · rename_i heq
      rw [heq] at hroots
      exact congrArg Environment.store hroots

theorem create_eq (store : FileStore) (roots : List String) (config : Config) :
    create store roots config = (ofRoots store roots config, store) :=
  Prod.ext rfl (store_create store roots config)

/-- What a new environment is. -/
structure IsNew (e : Environment) (store : FileStore) (roots : List String) (config : Config) :
    Prop where
  coherent : e.Coherent
  files : rootFiles store [] roots = .ok e.files
  store : e.store = store
  config : e.config = config
  options : Config.Options.ofConfig e.config = .ok e.options
  created : e.created = 0
  updated : e.updated = 0

theorem isNew_of_ofRoots {store : FileStore} {roots : List String} {config : Config}
    (h : ofRoots store roots config = .ok e) : e.IsNew store roots config := by
  simp only [ofRoots, create] at h
  cases ho : Config.Options.ofConfig config with
  | error cause => simp [ho] at h
  | ok options =>
    simp only [ho] at h
    obtain ⟨hcoherent, hfiles⟩ := registerRoots_eq (coherent_new store config options) roots
    obtain ⟨_, _, _, hroots⟩ := exists_registerRoots { store, config, options } roots
    split at h
    · cases h
    · rename_i environment heq
      obtain rfl := Except.ok.inj h
      rw [heq] at hcoherent hfiles hroots
      obtain rfl : environment = _ := hroots
      exact ⟨hcoherent, hfiles.symm, rfl, rfl, ho, rfl, rfl⟩

/-- An environment cannot be made when the configuration is wrong or a file is missing. -/
theorem ofRoots_eq_error_iff_of_files {store : FileStore} {roots : List String} {config : Config}
    {error : EnvironmentError} : ofRoots store roots config = .error error ↔
      (∃ cause, Config.Options.ofConfig config = .error cause ∧ error = .invalidConfig cause) ∨
      ∃ options, Config.Options.ofConfig config = .ok options ∧
        rootFiles store [] roots = .error error := by
  cases ho : Config.Options.ofConfig config with
  | error cause => simp [ofRoots, create, ho, eq_comm]
  | ok options =>
    obtain ⟨-, hfiles⟩ := registerRoots_eq (coherent_new store config options) roots
    replace hfiles : _ = rootFiles store [] roots := hfiles
    simp only [ofRoots, create, ho, ← hfiles]
    split
    · rename_i heq
      simp [heq, Except.map]
    · rename_i heq
      simp [heq, Except.map]

end Environment

end ScriptAnalysis.Project

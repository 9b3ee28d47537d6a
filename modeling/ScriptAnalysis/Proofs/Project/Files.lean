import ScriptAnalysis.Proofs.Project.Handles

/-!
# What an environment knows of its files

The tree and the binding that are kept with a file are those of some text that the file has had, and
while they are current, of its present text. So reading a file from what is kept gives what reading
its text gives (`read_eq_ofText`), and a program of the environment holds every file as its present text
is read (`program?_snapshot`). `Sound` is the invariant; every operation keeps it.
-/

namespace ScriptAnalysis.Project

open Semantics (ProgramFile Program)

namespace SourceFile

/-- What is kept with the file was read from a text of it. -/
def IsFaithful (f : SourceFile) : Prop :=
  match f.reading with
  | .never => True
  | .current file => file = .ofText f.path f.text
  | .outdated file => ∃ text, file = .ofText f.path text

theorem isFaithful_ofText (path text : String) : (ofText path text).IsFaithful := trivial

/-- Reading from what is kept gives what reading the text gives. -/
theorem read_eq_ofText {f : SourceFile} (h : f.IsFaithful) : f.read.1 = .ofText f.path f.text := by
  obtain ⟨path, text, reading⟩ := f
  cases reading with
  | never => rfl
  | current file => exact h
  | outdated file =>
    obtain ⟨old, hold⟩ := h
    simp only [read, hold]
    by_cases hsame : (Syntax.Tree.parse path text).text = (ProgramFile.ofText path old).tree.text
    · -- the binding is kept only when the old text was this one
      have : text = old := hsame
      subst this
      rw [if_pos hsame]
      rfl
    · rw [if_neg hsame]
      rfl

theorem IsFaithful.setText {f : SourceFile} (h : f.IsFaithful) (text : String) :
    (f.setText text).IsFaithful := by
  obtain ⟨path, old, reading⟩ := f
  cases reading with
  | never => exact h
  | current file => exact ⟨old, h⟩
  | outdated file => exact h

theorem IsFaithful.withReading {f : SourceFile} (h : f.IsFaithful) : f.withReading.IsFaithful :=
  read_eq_ofText h

@[simp] theorem path_setText (f : SourceFile) (text : String) : (f.setText text).path = f.path := rfl

@[simp] theorem text_setText (f : SourceFile) (text : String) : (f.setText text).text = text := rfl

@[simp] theorem path_withReading (f : SourceFile) : f.withReading.path = f.path := rfl

@[simp] theorem text_withReading (f : SourceFile) : f.withReading.text = f.text := rfl

end SourceFile

/-- What is found under a key is what has it, when no key occurs twice. -/
theorem find?_key_eq_some_iff {α : Type} {key : α → String} {l : List α} (h : (l.map key).Nodup)
    {name : String} {a : α} : l.find? (key · == name) = some a ↔ a ∈ l ∧ key a = name := by
  constructor
  · intro ha
    exact ⟨List.mem_of_find?_eq_some ha, by simpa using List.find?_some ha⟩
  · rintro ⟨hmem, rfl⟩
    obtain ⟨b, hb⟩ := Option.isSome_iff_exists.1
      ((List.find?_isSome (p := (key · == key a))).2 ⟨a, hmem, beq_self_eq_true (key a)⟩)
    have hkey : key b = key a := by simpa using List.find?_some hb
    rw [hb, List.inj_on_of_nodup_map h (List.mem_of_find?_eq_some hb) hmem hkey]

namespace Environment

variable {e : Environment}

/-! ### A text for one file -/

@[simp] theorem map_path_setText (e : Environment) (path text : String) :
    (e.setText path text).map (·.path) = e.paths := by
  simp only [setText, paths, List.map_map]
  refine List.map_congr_left fun f _ => ?_
  simp only [Function.comp_apply]
  split <;> rfl

theorem mem_setText {path text : String} {f : SourceFile} (hf : f ∈ e.setText path text) :
    (∃ g ∈ e.files, g.path = path ∧ f = g.setText text) ∨ f ∈ e.files ∧ f.path ≠ path := by
  obtain ⟨g, hg, rfl⟩ := List.mem_map.1 hf
  by_cases hpath : g.path = path
  · exact .inl ⟨g, hg, hpath, if_pos hpath⟩
  · rw [if_neg hpath]
    exact .inr ⟨hg, hpath⟩

/-! ### Creating and updating files -/

/-- A new path comes last; one that is known keeps its place. -/
theorem paths_createFile (h : e.Coherent) (path text : String) :
    (e.createFile path text).paths = if path ∈ e.paths then e.paths else e.paths ++ [path] := by
  rw [paths, files_createFile h]
  split
  · exact map_path_setText e path text
  · simp [paths, SourceFile.ofText]

theorem text?_createFile (h : e.Coherent) (path text other : String) :
    (e.createFile path text).text? other = if other = path then some text else e.text? other := by
  have hpaths := paths_createFile h path text
  have hc := h.createFile path text
  by_cases ho : other = path
  · -- some file has the path, and no file that has it has another text
    subst ho
    rw [if_pos rfl]
    have hmem : other ∈ (e.createFile other text).paths := by
      rw [hpaths]
      split
      · assumption
      · simp
    obtain ⟨f, hf, hpath⟩ := List.mem_map.1 hmem
    refine hc.text?_eq_some_iff.2 ⟨f, hf, hpath, ?_⟩
    rw [files_createFile h] at hf
    split at hf
    · obtain ⟨g, -, -, rfl⟩ | ⟨-, hne⟩ := mem_setText hf
      · rfl
      · exact absurd hpath hne
    · rename_i hnot
      rcases List.mem_append.1 hf with hold | hnew
      · exact absurd (List.mem_map.2 ⟨f, hold, hpath⟩) hnot
      · rw [List.mem_singleton.1 hnew]
        rfl
  · rw [if_neg ho]
    refine Option.ext fun found => ?_
    rw [hc.text?_eq_some_iff, h.text?_eq_some_iff, files_createFile h]
    split
    · constructor
      · rintro ⟨f, hf, hpath, htext⟩
        obtain ⟨g, -, hg, rfl⟩ | ⟨hold, -⟩ := mem_setText hf
        · exact absurd (hpath.symm.trans hg) ho
        · exact ⟨f, hold, hpath, htext⟩
      · rintro ⟨f, hf, hpath, htext⟩
        refine ⟨f, List.mem_map.2 ⟨f, hf, if_neg fun heq => ho (hpath.symm.trans heq)⟩, hpath, htext⟩
    · have hnew : ¬(SourceFile.ofText path text).path = other := Ne.symm ho
      simp [or_and_right, exists_or, hnew]

/-! ### The invariant -/

/-- The handles are in step, what is kept with the files was read from them, and the options are those that
the configuration writes. -/
structure Sound (e : Environment) : Prop where
  coherent : e.Coherent
  faithful : ∀ f ∈ e.files, f.IsFaithful
  options : Config.Options.ofConfig e.config = .ok e.options

theorem Sound.nodup (h : e.Sound) : e.paths.Nodup := h.coherent.nodup_paths

theorem Sound.createFile (h : e.Sound) (path text : String) : (e.createFile path text).Sound where
  coherent := h.coherent.createFile path text
  faithful := by
    intro f hf
    rw [files_createFile h.coherent] at hf
    split at hf
    · obtain ⟨g, hg, -, rfl⟩ | ⟨hold, -⟩ := mem_setText hf
      · exact (h.faithful g hg).setText text
      · exact h.faithful f hold
    · rcases List.mem_append.1 hf with hf | hf
      · exact h.faithful f hf
      · rw [List.mem_singleton.1 hf]
        exact SourceFile.isFaithful_ofText path text
  options := by
    rw [config_createFile, options_createFile]
    exact h.options

theorem Sound.updateFile (h : e.Sound) (path text : String) : (e.updateFile path text).2.Sound := by
  by_cases hmem : path ∈ e.paths
  · rw [updateFile_of_mem h.coherent hmem]
    have hc := h.createFile path text
    exact ⟨hc.coherent.congr rfl rfl rfl, hc.faithful, hc.options⟩
  · rw [updateFile_of_notMem h.coherent hmem]
    exact h

theorem Sound.snapshot (h : e.Sound) : e.snapshot.environment.Sound where
  coherent := h.coherent.snapshot
  faithful := by
    intro f hf
    rw [files_snapshot h.coherent] at hf
    obtain ⟨g, hg, rfl⟩ := List.mem_map.1 hf
    exact (h.faithful g hg).withReading
  options := by
    rw [config_snapshot, options_snapshot]
    exact h.options

theorem paths_snapshot (h : e.Coherent) : e.snapshot.environment.paths = e.paths := by
  rw [paths, files_snapshot h, List.map_map]
  rfl

theorem text?_snapshot (h : e.Coherent) (path : String) :
    e.snapshot.environment.text? path = e.text? path := by
  refine h.snapshot.text?_congr h ?_ path
  rw [files_snapshot h, List.map_map]
  rfl

/-! ### Environments over the files of a store -/

/-- Files that are there are not read again. -/
theorem rootFiles_filter {store : FileStore} {files : List SourceFile} {path : String}
    (h : path ∈ files.map (·.path)) (roots : List String) :
    rootFiles store files (roots.filter fun other => !other == path) =
      rootFiles store files roots := by
  induction roots generalizing files with
  | nil => rfl
  | cons root roots ih =>
    by_cases hroot : root = path
    · subst hroot
      simp only [List.filter_cons, beq_self_eq_true, Bool.not_true, Bool.false_eq_true, if_false,
        rootFiles, h, if_true]
      exact ih h
    · have hne : (!root == path) = true := by simpa using hroot
      simp only [List.filter_cons, hne, if_true, rootFiles]
      split
      · exact ih h
      · cases store.read? root with
        | none => rfl
        | some text => exact ih (by rw [List.map_append]; exact List.mem_append_left _ h)

/-- Each path is read once. -/
theorem rootFiles_eraseDups (store : FileStore) (files : List SourceFile) (roots : List String) :
    rootFiles store files roots.eraseDups = rootFiles store files roots := by
  match roots with
  | [] => rfl
  | root :: roots =>
    have hshort : (roots.filter fun other => !other == root).length ≤ roots.length :=
      List.length_filter_le ..
    -- what comes behind the first root is the rest without it, and that is shorter
    have hrest : ∀ files : List SourceFile, root ∈ files.map (·.path) →
        rootFiles store files (roots.filter fun other => !other == root).eraseDups =
          rootFiles store files roots := fun files hmem =>
      (rootFiles_eraseDups store files _).trans (rootFiles_filter hmem roots)
    rw [List.eraseDups_cons]
    unfold rootFiles
    split
    · rename_i hmem
      exact hrest files hmem
    · cases store.read? root with
      | none => rfl
      | some text => exact hrest _ (by simp [SourceFile.ofText])
  termination_by roots.length

/-- The files that are read from a store have the given paths and the texts of the store. -/
theorem files_of_rootFiles {store : FileStore} {files new : List SourceFile} {roots : List String}
    (hnodup : (files.map (·.path) ++ roots).Nodup) (h : rootFiles store files roots = .ok new) :
    new.map (·.path) = files.map (·.path) ++ roots ∧
      ∀ f ∈ new, f ∈ files ∨ ∃ text, store.read? f.path = some text ∧ f = .ofText f.path text := by
  induction roots generalizing files with
  | nil =>
    obtain rfl := Except.ok.inj h
    exact ⟨by simp, fun f hf => .inl hf⟩
  | cons path roots ih =>
    have hnew : path ∉ files.map (·.path) := fun hmem =>
      (List.nodup_append.1 hnodup).2.2 path hmem path (List.mem_cons_self ..) rfl
    rw [rootFiles, if_neg hnew] at h
    cases hread : store.read? path with
    | none => simp [hread] at h
    | some text =>
      simp only [hread] at h
      obtain ⟨hpaths, hfiles⟩ := ih (by simpa [SourceFile.ofText] using hnodup) h
      refine ⟨by simpa [SourceFile.ofText] using hpaths, fun f hf => ?_⟩
      rcases hfiles f hf with hf | hf
      · rcases List.mem_append.1 hf with hf | hf
        · exact .inl hf
        · rw [List.mem_singleton.1 hf]
          exact .inr ⟨text, hread, rfl⟩
      · exact .inr hf

/-- Files that are all in the store can be read from it. -/
theorem exists_rootFiles {store : FileStore} {roots : List String}
    (h : ∀ path ∈ roots, (store.read? path).isSome) (files : List SourceFile) :
    ∃ new, rootFiles store files roots = .ok new := by
  induction roots generalizing files with
  | nil => exact ⟨files, rfl⟩
  | cons path roots ih =>
    have hrest := fun p hp => h p (List.mem_cons_of_mem path hp)
    obtain ⟨text, htext⟩ := Option.isSome_iff_exists.1 (h path (List.mem_cons_self ..))
    simp only [rootFiles, htext]
    split
    · exact ih hrest files
    · exact ih hrest _

/-- What an environment over files of a store is. -/
theorem of_ofRoots {store : FileStore} {roots : List String} {config : Config}
    (h : ofRoots store roots config = .ok e) :
    e.Sound ∧ e.paths = roots.eraseDups ∧ (∀ path ∈ roots, e.text? path = store.read? path) ∧
      ∀ f ∈ e.files, f.reading = .never := by
  have hnew := isNew_of_ofRoots h
  have hfiles := hnew.files
  rw [← rootFiles_eraseDups] at hfiles
  obtain ⟨hpaths, hfiles⟩ := files_of_rootFiles (by simpa using nodup_eraseDups roots) hfiles
  replace hpaths : e.paths = roots.eraseDups := hpaths
  replace hfiles : ∀ f ∈ e.files, ∃ text, store.read? f.path = some text ∧
      f = .ofText f.path text := fun f hf => (hfiles f hf).resolve_left List.not_mem_nil
  refine ⟨⟨hnew.coherent, fun f hf => ?_, hnew.options⟩, hpaths, fun path hp => ?_, fun f hf => ?_⟩
  · obtain ⟨text, -, hf⟩ := hfiles f hf
    rw [hf]
    exact SourceFile.isFaithful_ofText _ _
  · rw [← List.mem_eraseDups, ← hpaths] at hp
    obtain ⟨f, hf, rfl⟩ := List.mem_map.1 hp
    obtain ⟨text, hread, htext⟩ := hfiles f hf
    rw [hread]
    exact hnew.coherent.text?_eq_some_iff.2 ⟨f, hf, rfl, by rw [htext]; rfl⟩
  · obtain ⟨text, -, hf⟩ := hfiles f hf
    rw [hf]
    rfl

/-- An environment over files that are all in the store fails exactly when the configuration is
wrong. -/
theorem ofRoots_eq_error_iff {store : FileStore} {roots : List String}
    (h : ∀ path ∈ roots, (store.read? path).isSome) (config : Config) (error : EnvironmentError) :
    ofRoots store roots config = .error error ↔
      ∃ cause, Config.Options.ofConfig config = .error cause ∧ error = .invalidConfig cause := by
  obtain ⟨files, hfiles⟩ := exists_rootFiles h []
  rw [ofRoots_eq_error_iff_of_files, hfiles]
  simp

/-! ### Programs of an environment -/

/-- A program holds every file as its present text is read. -/
theorem program?_snapshot (h : e.Sound) :
    e.snapshot.program? =
      if e.files.isEmpty then none
      else some (.ofFiles e.options (e.files.map fun f => .ofText f.path f.text)) := by
  have hread : e.files.map (fun f => f.read.1) = e.files.map fun f => .ofText f.path f.text :=
    List.map_congr_left fun f hf => SourceFile.read_eq_ofText (h.faithful f hf)
  rw [program?_eq h.coherent, hread]

end Environment

end ScriptAnalysis.Project

namespace ScriptAnalysis.Semantics.Program

/-- The file that answers for a path is the one that has it, when no two have one path. -/
theorem file?_eq_some_iff {p : Program} (h : p.rootFileNames.Nodup) {path : String}
    {file : ProgramFile} : p.file? path = some file ↔ file ∈ p.files ∧ file.path = path := by
  have hrev : (p.files.reverse.map (·.path)).Nodup := by
    rw [List.map_reverse]
    exact List.nodup_reverse.2 h
  rw [file?, Project.find?_key_eq_some_iff hrev, List.mem_reverse]

end ScriptAnalysis.Semantics.Program

namespace ScriptAnalysis.Project.Environment

open Semantics (ProgramFile Program)

/-- The file that a program of an environment holds under a path. -/
theorem file?_program {e : Environment} (h : e.Sound) {p : Program}
    (hp : e.snapshot.program? = some p) (path : String) :
    p.file? path = (e.text? path).map (ProgramFile.ofText path) := by
  rw [program?_snapshot h] at hp
  split at hp
  · cases hp
  obtain rfl := Option.some.inj hp
  have hnames : (Program.ofFiles e.options
      (e.files.map fun f => .ofText f.path f.text)).rootFileNames = e.paths := by
    simp only [Program.rootFileNames, Program.ofFiles, List.map_map]
    rfl
  refine Option.ext fun file => ?_
  rw [Program.file?_eq_some_iff (by rw [hnames]; exact h.nodup)]
  simp only [Program.ofFiles, Option.map_eq_some_iff, h.coherent.text?_eq_some_iff, List.mem_map]
  constructor
  · rintro ⟨⟨f, hf, rfl⟩, rfl⟩
    exact ⟨f.text, ⟨f, hf, rfl, rfl⟩, rfl⟩
  · rintro ⟨text, ⟨f, hf, rfl, rfl⟩, rfl⟩
    exact ⟨⟨f, hf, rfl⟩, rfl⟩

end ScriptAnalysis.Project.Environment

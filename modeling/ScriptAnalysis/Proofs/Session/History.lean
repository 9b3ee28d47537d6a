import ScriptAnalysis.Proofs.Project.Files
import ScriptAnalysis.Session.Requests

/-!
# Sessions after any requests

A session goes through requests one after the other; one that fails may have changed the session all the
same. `Sound` is what holds after any requests (`sound_run`): the environment is sound, and its files are
the registered ones. `exists_parse` says what one request to read a file does to a sound session.
-/

namespace ScriptAnalysis.Session

open Project (Environment EnvironmentError FileStore)
open Semantics (Program ProgramFile)

/-! ### The registry -/

namespace FileRegistry

/-- The list and the set hold the same paths, each once. -/
structure Coherent (r : FileRegistry) : Prop where
  nodup : r.paths.Nodup
  contains_iff : ∀ path, r.contains path = true ↔ path ∈ r.paths

theorem coherent_empty : Coherent {} where
  nodup := List.nodup_nil
  contains_iff := by simp [contains]

variable {r : FileRegistry}

theorem Coherent.add_of_mem (h : r.Coherent) {path : String} (hmem : path ∈ r.paths) :
    r.add path = (false, r) := if_pos ((h.contains_iff path).2 hmem)

/-- A new path comes last in the list, and into the set. -/
theorem Coherent.add_of_notMem (h : r.Coherent) {path : String} (hnot : path ∉ r.paths) :
    r.add path = (true, ⟨r.paths ++ [path], r.known.insert path ()⟩) := by
  rw [← h.contains_iff] at hnot
  exact if_neg hnot

theorem Coherent.paths_add (h : r.Coherent) (path : String) :
    (r.add path).2.paths = if path ∈ r.paths then r.paths else r.paths ++ [path] := by
  split
  · rename_i hmem
    rw [h.add_of_mem hmem]
  · rename_i hnot
    rw [h.add_of_notMem hnot]

theorem Coherent.add (h : r.Coherent) (path : String) : (r.add path).2.Coherent := by
  by_cases hmem : path ∈ r.paths
  · rw [h.add_of_mem hmem]
    exact h
  · rw [h.add_of_notMem hmem]
    constructor
    · rw [← List.concat_eq_append]
      exact h.nodup.concat hmem
    · intro other
      have hold := h.contains_iff other
      simp only [contains] at hold
      simp only [contains, Table.get?_insert, List.mem_append, List.mem_singleton, ← hold]
      by_cases ho : other = path
      · simp [ho]
      · simp [ho]

end FileRegistry

/-! ### Requests -/

/-- What a session can be asked for. -/
inductive Request where
  /-- To read a file. -/
  | parse (text : String) (options : ParserOptions)
  /-- To take another configuration. -/
  | updateConfig (config : Config)

/-- The session after a request, which may have failed. -/
def perform (s : Session) : Request → Session
  | .parse text options => (s.parse text options).2
  | .updateConfig config => (s.updateConfig config).2

/-- The session after requests, the first one first. -/
def run (s : Session) (requests : List Request) : Session := requests.foldl perform s

@[simp] theorem run_nil (s : Session) : s.run [] = s := rfl

theorem run_concat (s : Session) (requests : List Request) (request : Request) :
    s.run (requests ++ [request]) = (s.run requests).perform request := by
  simp [run]

/-- The environment is sound and has the registered files, in the order of the registry. -/
structure Sound (s : Session) : Prop where
  environment : s.environment.Sound
  registry : s.registry.Coherent
  paths : s.environment.paths = s.registry.paths

/-- `s'` is `s` after a text has been given for a file. -/
structure Put (s : Session) (path text : String) (s' : Session) : Prop where
  sound : s'.Sound
  registry : s'.registry = (s.registry.add path).2
  store : s'.environment.store = s.environment.store.write path text
  config : s'.environment.config = s.environment.config
  options : s'.environment.options = s.environment.options
  text? : ∀ other, s'.environment.text? other =
    if other = path then some text else s.environment.text? other

variable {s : Session}

/-- A registered file is updated, and the registry stays as it is. -/
theorem putFile_of_mem (h : s.Sound) {path : String} (hmem : path ∈ s.registry.paths) (text : String) :
    s.putFile path text = (.ok (), { s with environment := (s.environment.updateFile path text).2 }) := by
  have hc : s.registry.contains path = true := (h.registry.contains_iff path).2 hmem
  have hu := Environment.updateFile_of_mem h.environment.coherent
    (h.paths ▸ hmem : path ∈ s.environment.paths) text
  simp only [putFile, if_pos hc, hu]

/-- Any other file is registered and created. -/
theorem putFile_of_notMem (h : s.Sound) {path : String} (hnot : path ∉ s.registry.paths)
    (text : String) : s.putFile path text = (.ok (), { s with
      environment := s.environment.createFile path text
      registry := (s.registry.add path).2 }) := by
  rw [← h.registry.contains_iff] at hnot
  exact if_neg hnot

/-- In a sound session every file can be given a text. -/
theorem exists_putFile (h : s.Sound) (path text : String) :
    ∃ s', s.putFile path text = (.ok (), s') ∧ Put s path text s' := by
  have hcoherent := h.environment.coherent
  have hcreated := h.environment.createFile path text
  have hpaths := Environment.paths_createFile hcoherent path text
  rw [h.paths, ← h.registry.paths_add] at hpaths
  have htext := Environment.text?_createFile hcoherent path text
  by_cases hmem : path ∈ s.registry.paths
  · have hupdated := h.environment.updateFile path text
    have hadd := congrArg Prod.snd (h.registry.add_of_mem hmem)
    rw [hadd] at hpaths
    refine ⟨_, putFile_of_mem h hmem text, ?_⟩
    rw [Environment.updateFile_of_mem hcoherent (h.paths ▸ hmem)] at hupdated ⊢
    exact ⟨⟨hupdated, h.registry, hpaths⟩, hadd.symm, Environment.store_createFile ..,
      Environment.config_createFile .., Environment.options_createFile .., htext⟩
  · exact ⟨_, putFile_of_notMem h hmem text, ⟨hcreated, h.registry.add path, hpaths⟩, rfl,
      Environment.store_createFile .., Environment.config_createFile ..,
      Environment.options_createFile .., htext⟩

/-- Making a program changes nothing that was put. -/
theorem Put.snapshot {path text : String} {s' : Session} (h : Put s path text s') :
    Put s path text { s' with environment := s'.environment.snapshot.environment } := by
  have hcoherent := h.sound.environment.coherent
  refine ⟨⟨h.sound.environment.snapshot, h.sound.registry, ?_⟩, h.registry, ?_, ?_, ?_, ?_⟩
  · rw [Environment.paths_snapshot hcoherent, h.sound.paths]
  · rw [Environment.store_snapshot, h.store]
  · rw [Environment.config_snapshot, h.config]
  · rw [Environment.options_snapshot, h.options]
  · intro other
    rw [Environment.text?_snapshot hcoherent, h.text?]

/-- Making something known changes nothing that was put. -/
theorem Put.events {path text : String} {s' : Session} (h : Put s path text s')
    (events : List Event) : Put s path text { s' with events } :=
  ⟨⟨h.sound.environment, h.sound.registry, h.sound.paths⟩, h.registry, h.store, h.config, h.options,
    h.text?⟩

/-- The answer about a file that a program holds. -/
theorem answer_eq {program : Program} {path text : String}
    (h : program.file? path = some (.ofText path text)) (options : ParserOptions) :
    answer program path text options =
      match Ast.Conversion.ofTree (.parse path text) { code := text, filePath := path } with
      | .error e => .error (.conversion e)
      | .ok conversion => .ok
          { ast := conversion.tree
            scopes := .ofTree options.scoping conversion.tree
            services := ⟨program, .parse path text, conversion.maps⟩ } := by
  have htree : (ProgramFile.ofText path text).tree = .parse path text := rfl
  simp only [answer, h, htree, bind, Except.bind, Except.mapError]
  cases Ast.Conversion.ofTree (.parse path text) { code := text, filePath := path } <;> rfl

/-- What a request to read a file does: the answer is that of a program which holds the file as the
text of the request is read, and the file has that text afterwards, whatever the answer is. -/
theorem exists_parse (h : s.Sound) (text : String) (options : ParserOptions) :
    ∃ files, (Program.ofFiles s.environment.options files).file? options.path =
        some (.ofText options.path (sourceText text)) ∧
      (s.parse text options).1 = answer (.ofFiles s.environment.options files) options.path
        (sourceText text) options ∧
      Put s options.path (sourceText text) (s.parse text options).2 := by
  obtain ⟨s', hs', hput⟩ := exists_putFile h options.path (sourceText text)
  have htext : s'.environment.text? options.path = some (sourceText text) := by
    rw [hput.text?, if_pos rfl]
  have hprogram := Environment.program?_snapshot hput.sound.environment
  obtain ⟨f, hf, -⟩ := hput.sound.environment.coherent.text?_eq_some_iff.1 htext
  have hne : s'.environment.files.isEmpty = false := by
    cases hfiles : s'.environment.files with
    | nil => simp [hfiles] at hf
    | cons => rfl
  rw [if_neg (by simp [hne]), hput.options] at hprogram
  refine ⟨s'.environment.files.map fun f => .ofText f.path f.text, ?_, ?_, ?_⟩
  · rw [Environment.file?_program hput.sound.environment hprogram, htext]
    rfl
  · simp only [parse, hs', hprogram]
    split
    · rename_i e he
      exact he.symm
    · rename_i a ha
      exact ha.symm
  · simp only [parse, hs', hprogram]
    split
    · exact hput.snapshot
    · exact hput.snapshot.events _

section
variable {config : Config}

/-- A configuration is taken when an environment over the registered files can be made with it. -/
theorem updateConfig_of_ok {e : Environment}
    (h : Environment.ofRoots s.environment.store s.registry.paths config = .ok e) :
    s.updateConfig config = (.ok (), { s with environment := e }) := by
  simp only [updateConfig, Environment.create_eq, h]

/-- One that is refused leaves the session, and the store that the environment has, as they are. -/
theorem updateConfig_of_error {error : EnvironmentError}
    (h : Environment.ofRoots s.environment.store s.registry.paths config = .error error) :
    s.updateConfig config = (.error error, s) := by
  simp only [updateConfig, Environment.create_eq, h]

theorem fst_updateConfig_eq_ok_iff : (s.updateConfig config).1 = .ok () ↔
    ∃ e, Environment.ofRoots s.environment.store s.registry.paths config = .ok e := by
  cases h : Environment.ofRoots s.environment.store s.registry.paths config with
  | error error => simp [updateConfig_of_error h]
  | ok e => simp [updateConfig_of_ok h]

theorem fst_updateConfig_eq_error_iff {error : EnvironmentError} :
    (s.updateConfig config).1 = .error error ↔
      Environment.ofRoots s.environment.store s.registry.paths config = .error error := by
  cases h : Environment.ofRoots s.environment.store s.registry.paths config with
  | error error => simp [updateConfig_of_error h]
  | ok e => simp [updateConfig_of_ok h]

/-- What another configuration does to a session, if it is taken. -/
theorem of_updateConfig (h : s.Sound) (htaken : (s.updateConfig config).1 = .ok ()) :
    let s' := (s.updateConfig config).2
    s'.Sound ∧ s'.registry = s.registry ∧ s'.environment.store = s.environment.store ∧
      s'.environment.config = config ∧
      ∀ path ∈ s.registry.paths, s'.environment.text? path = s.environment.store.read? path := by
  obtain ⟨e, he⟩ := fst_updateConfig_eq_ok_iff.1 htaken
  obtain ⟨hsound, hpaths, htext, -⟩ := Environment.of_ofRoots he
  have hnew := Environment.isNew_of_ofRoots he
  rw [eraseDups_of_nodup h.registry.nodup] at hpaths
  rw [updateConfig_of_ok he]
  exact ⟨⟨hsound, h.registry, hpaths⟩, rfl, hnew.store, hnew.config, htext⟩

/-- A configuration is taken, or the session stays as it is. -/
theorem updateConfig_taken_or_refused (s : Session) (config : Config) :
    (s.updateConfig config).1 = .ok () ∨ (s.updateConfig config).2 = s := by
  cases h : Environment.ofRoots s.environment.store s.registry.paths config with
  | error error =>
    rw [updateConfig_of_error h]
    exact .inr rfl
  | ok e =>
    rw [updateConfig_of_ok h]
    exact .inl rfl

end

@[simp] theorem registry_updateConfig (s : Session) (config : Config) :
    (s.updateConfig config).2.registry = s.registry := by
  simp only [updateConfig]
  split
  · rfl
  · rfl

@[simp] theorem events_updateConfig (s : Session) (config : Config) :
    (s.updateConfig config).2.events = s.events := by
  simp only [updateConfig]
  split
  · rfl
  · rfl

theorem sound_perform (h : s.Sound) (request : Request) : (s.perform request).Sound := by
  cases request with
  | parse text options =>
    obtain ⟨_, -, -, hput⟩ := exists_parse h text options
    exact hput.sound
  | updateConfig config =>
    rcases updateConfig_taken_or_refused s config with htaken | hrefused
    · exact (of_updateConfig h htaken).1
    · rw [perform, hrefused]
      exact h

theorem sound_run_of_sound (h : s.Sound) (requests : List Request) : (s.run requests).Sound := by
  induction requests generalizing s with
  | nil => exact h
  | cons request requests ih => exact ih (sound_perform h request)

/-- A new session has no files, and the store and the configuration it was made with; nothing has been
counted or made known. -/
theorem of_ofConfig {store : FileStore} {config : Config} (h : ofConfig store config = .ok s) :
    s.Sound ∧ s.registry.paths = [] ∧ s.environment.IsNew store [] config ∧ s.events = [] := by
  cases he : Environment.ofRoots store [] config with
  | error e => simp [ofConfig, he, bind, Except.bind] at h
  | ok e =>
    simp only [ofConfig, he, bind, Except.bind, pure, Except.pure, Except.ok.injEq] at h
    subst h
    obtain ⟨hsound, hpaths, -⟩ := Environment.of_ofRoots he
    exact ⟨⟨hsound, FileRegistry.coherent_empty, hpaths⟩, rfl, Environment.isNew_of_ofRoots he, rfl⟩

theorem sound_run {store : FileStore} {config : Config} (h : ofConfig store config = .ok s)
    (requests : List Request) : (s.run requests).Sound :=
  sound_run_of_sound (of_ofConfig h).1 requests

end ScriptAnalysis.Session

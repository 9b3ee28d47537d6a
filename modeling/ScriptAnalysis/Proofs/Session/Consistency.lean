import ScriptAnalysis.Proofs.Session.History

/-!
# What a session keeps about its files

The paths of the files are kept in the registry, in the environment and in every program, and their
texts in the environment, in the store and in the trees of a program. `Records s requests` says that all
of them agree with the requests: the paths are those of the requests to read a file, in the order of the
first such request, and the text of each is that of the last one. `consistent_run` says that this holds
after any requests over a store that can be written and that nobody else writes, together with what
follows for the next request.
-/

namespace ScriptAnalysis.Session

open Project (Environment EnvironmentError FileStore)
open Semantics (Program ProgramFile)

/-! ### What was asked for -/

namespace Request

/-- The path and the text that a file gets by a request. -/
def text? : Request → Option (String × String)
  | parse text options => some (options.path, sourceText text)
  | updateConfig _ => none

end Request

/-- The texts that files got by requests, each with the path of the file. -/
def requestedTexts (requests : List Request) : List (String × String) := requests.filterMap (·.text?)

/-- The paths of the files that were asked for, in the order of the first request for each. -/
def requestedPaths (requests : List Request) : List String :=
  ((requestedTexts requests).map (·.1)).eraseDups

/-- The text of the last request for a file. -/
def lastText? (requests : List Request) (path : String) : Option String :=
  (requestedTexts requests).reverse.lookup path

section
variable (requests : List Request) (text : String) (options : ParserOptions) (config : Config)

theorem requestedTexts_concat_parse :
    requestedTexts (requests ++ [.parse text options]) =
      requestedTexts requests ++ [(options.path, sourceText text)] := by
  simp [requestedTexts, Request.text?]

theorem requestedTexts_concat_updateConfig :
    requestedTexts (requests ++ [.updateConfig config]) = requestedTexts requests := by
  simp [requestedTexts, Request.text?]

theorem requestedPaths_concat_parse :
    requestedPaths (requests ++ [.parse text options]) =
      if options.path ∈ requestedPaths requests then requestedPaths requests
      else requestedPaths requests ++ [options.path] := by
  have hmem : options.path ∈ requestedPaths requests ↔
      options.path ∈ (requestedTexts requests).map (·.1) := List.mem_eraseDups
  rw [requestedPaths, requestedTexts_concat_parse, List.map_append]
  simp only [hmem]
  exact eraseDups_concat _ _

theorem lastText?_concat_parse (path : String) :
    lastText? (requests ++ [.parse text options]) path =
      if path = options.path then some (sourceText text) else lastText? requests path := by
  rw [lastText?, requestedTexts_concat_parse, List.reverse_append]
  by_cases h : path = options.path
  · simp [h]
  · have hne : (path == options.path) = false := by simpa using h
    simp [h, lastText?, List.lookup_cons, hne]

theorem requestedPaths_concat_updateConfig :
    requestedPaths (requests ++ [.updateConfig config]) = requestedPaths requests := by
  rw [requestedPaths, requestedTexts_concat_updateConfig, requestedPaths]

theorem lastText?_concat_updateConfig :
    lastText? (requests ++ [.updateConfig config]) = lastText? requests := by
  funext path
  rw [lastText?, requestedTexts_concat_updateConfig, lastText?]

/-- Exactly the files that were asked for have a last text. -/
theorem lastText?_isSome_iff (path : String) :
    (lastText? requests path).isSome = true ↔ path ∈ requestedPaths requests := by
  rw [requestedPaths, List.mem_eraseDups, lastText?]
  simp [Option.isSome_iff_ne_none, List.lookup_eq_none_iff]

end

/-! ### The record of a session -/

/-- The registry, the environment and the store agree with the requests. -/
structure Records (s : Session) (requests : List Request) : Prop where
  sound : s.Sound
  isReadOnly : s.environment.store.isReadOnly = false
  paths : s.registry.paths = requestedPaths requests
  text : ∀ path ∈ s.registry.paths, s.environment.text? path = lastText? requests path
  store : ∀ path ∈ s.registry.paths, s.environment.store.read? path = lastText? requests path

namespace Records

variable {s : Session} {requests : List Request}

/-- A request to read a file is recorded. -/
theorem parse (h : s.Records requests) (text : String) (options : ParserOptions) :
    (s.parse text options).2.Records (requests ++ [.parse text options]) := by
  obtain ⟨_, -, -, hput⟩ := exists_parse h.sound text options
  have hpaths := hput.registry ▸ h.sound.registry.paths_add options.path
  have hold : ∀ path ∈ (s.parse text options).2.registry.paths, path ≠ options.path →
      path ∈ s.registry.paths := by
    intro path hmem hne
    rw [hpaths] at hmem
    split at hmem
    · exact hmem
    · exact (List.mem_append.1 hmem).resolve_right fun hp => hne (List.mem_singleton.1 hp)
  refine ⟨hput.sound, ?_, ?_, fun path hmem => ?_, fun path hmem => ?_⟩
  · rw [hput.store, FileStore.write]
    split
    · exact h.isReadOnly
    · exact h.isReadOnly
  · rw [hpaths, requestedPaths_concat_parse, h.paths]
  · rw [hput.text?, lastText?_concat_parse]
    split
    · rfl
    · rename_i hne
      exact h.text path (hold path hmem hne)
  · rw [hput.store, FileStore.read?_write h.isReadOnly, lastText?_concat_parse]
    split
    · rfl
    · rename_i hne
      exact h.store path (hold path hmem hne)

/-- Every recorded file is in the store. -/
theorem isSome_read? (h : s.Records requests) {path : String} (hp : path ∈ s.registry.paths) :
    (s.environment.store.read? path).isSome = true := by
  rw [h.store path hp, lastText?_isSome_iff, ← h.paths]
  exact hp

/-- Another configuration is refused exactly when it is wrong. -/
theorem updateConfig_eq_error_iff (h : s.Records requests) (config : Config)
    (error : EnvironmentError) : (s.updateConfig config).1 = .error error ↔
      ∃ cause, Config.Options.ofConfig config = .error cause ∧ error = .invalidConfig cause := by
  rw [fst_updateConfig_eq_error_iff]
  exact Environment.ofRoots_eq_error_iff (fun path hp => h.isSome_read? hp) config error

/-- A request for another configuration is recorded, as one that says nothing of any file. -/
theorem updateConfig (h : s.Records requests) (config : Config) :
    (s.updateConfig config).2.Records (requests ++ [.updateConfig config]) := by
  have hpaths := requestedPaths_concat_updateConfig requests config
  have htext := lastText?_concat_updateConfig requests config
  rcases updateConfig_taken_or_refused s config with htaken | hrefused
  · obtain ⟨hsound, hregistry, hstore, -, hnew⟩ := of_updateConfig h.sound htaken
    refine ⟨hsound, hstore ▸ h.isReadOnly, by rw [hregistry, hpaths, h.paths], ?_, ?_⟩
    · intro path hp
      rw [hregistry] at hp
      rw [hnew path hp, htext, h.store path hp]
    · intro path hp
      rw [hregistry] at hp
      rw [hstore, htext, h.store path hp]
  · rw [hrefused]
    exact ⟨h.sound, h.isReadOnly, hpaths ▸ h.paths, htext ▸ h.text, htext ▸ h.store⟩

/-- Every request is recorded. -/
theorem perform (h : s.Records requests) (request : Request) :
    (s.perform request).Records (requests ++ [request]) := by
  cases request with
  | parse text options => exact h.parse text options
  | updateConfig config => exact h.updateConfig config

/-- The paths and the texts of a program are the recorded ones, and there is a program unless there
are no files. -/
theorem program (h : s.Records requests) :
    (s.environment.snapshot.program? = none ↔ requestedPaths requests = []) ∧
      ∀ p, s.environment.snapshot.program? = some p →
        p.rootFileNames = requestedPaths requests ∧
          ∀ path ∈ requestedPaths requests,
            (p.file? path).map (·.tree.text) = lastText? requests path := by
  have hpaths : s.environment.paths = requestedPaths requests := h.sound.paths.trans h.paths
  have hprogram := Environment.program?_snapshot h.sound.environment
  constructor
  · rw [hprogram, ← hpaths, Environment.paths]
    cases s.environment.files <;> simp
  · intro p hp
    refine ⟨?_, fun path hmem => ?_⟩
    · rw [hprogram] at hp
      split at hp
      · cases hp
      · obtain rfl := Option.some.inj hp
        rw [← hpaths]
        simp only [Program.rootFileNames, Program.ofFiles, List.map_map]
        rfl
    · rw [Environment.file?_program h.sound.environment hp, Option.map_map,
        h.text path (h.paths ▸ hmem)]
      cases lastText? requests path <;> rfl

end Records

theorem records_ofConfig {s : Session} {files : Table String} {config : Config}
    (h : ofConfig { files } config = .ok s) : s.Records [] := by
  obtain ⟨hsound, hpaths, hnew, -⟩ := of_ofConfig h
  refine ⟨hsound, by rw [hnew.store], hpaths, fun path hp => ?_, fun path hp => ?_⟩
  · rw [hpaths] at hp
    cases hp
  · rw [hpaths] at hp
    cases hp

theorem records_run_of_records {s : Session} {before : List Request} (h : s.Records before)
    (requests : List Request) : (s.run requests).Records (before ++ requests) := by
  induction requests generalizing s before with
  | nil => simpa using h
  | cons request requests ih =>
    have := ih (h.perform request)
    rwa [List.append_assoc] at this

/-! ### Everything agrees -/

/-- All that is kept about the files of a session agrees with the requests, and so the next request
can only fail for what it says itself. -/
structure Consistent (s : Session) (requests : List Request) : Prop where
  /-- No file is there twice. -/
  nodup : (requestedPaths requests).Nodup
  /-- The registered files are those that were asked for. -/
  registry : s.registry.paths = requestedPaths requests
  /-- So are the members of the set that the registry keeps. -/
  known : ∀ path, s.registry.contains path = true ↔ path ∈ requestedPaths requests
  /-- They are the files of the environment. -/
  environment : s.environment.paths = requestedPaths requests
  /-- So are those that the environment has under paths. -/
  contains : ∀ path, s.environment.contains path = true ↔ path ∈ requestedPaths requests
  /-- There is a program as soon as there is a file. -/
  program? : s.environment.snapshot.program? = none ↔ requestedPaths requests = []
  /-- A program has the same files. -/
  rootFileNames : ∀ p, s.environment.snapshot.program? = some p →
    p.rootFileNames = requestedPaths requests
  /-- The text of a file, in the environment, in the store and in a program, is the last one. -/
  text : ∀ path ∈ requestedPaths requests, ∃ text, lastText? requests path = some text ∧
    s.environment.text? path = some text ∧ s.environment.store.read? path = some text ∧
      ∀ p, s.environment.snapshot.program? = some p → (p.file? path).map (·.tree.text) = some text
  /-- A request to read a file fails with a syntax error or not at all. -/
  parse : ∀ text options, (∃ a, (s.parse text options).1 = .ok a) ∨
    ∃ e, (s.parse text options).1 = .error (.conversion e)
  /-- A configuration is refused exactly when it is wrong. -/
  updateConfig : ∀ config error, (s.updateConfig config).1 = .error error ↔
    ∃ cause, Config.Options.ofConfig config = .error cause ∧ error = .invalidConfig cause
  /-- A configuration that is refused leaves the registry, the environment with its store and its
  counts, and what has been made known, as they are. -/
  refused : ∀ config error, (s.updateConfig config).1 = .error error → (s.updateConfig config).2 = s

/-- A request to read a file of a sound session fails with a syntax error or not at all. -/
theorem parse_eq_ok_or_conversion {s : Session} (h : s.Sound) (text : String)
    (options : ParserOptions) : (∃ a, (s.parse text options).1 = .ok a) ∨
      ∃ e, (s.parse text options).1 = .error (.conversion e) := by
  obtain ⟨files, hfile, hanswer, -⟩ := exists_parse h text options
  rw [hanswer, answer_eq hfile]
  cases Ast.Conversion.ofTree (.parse options.path (sourceText text))
      { code := sourceText text, filePath := options.path } with
  | error e => exact .inr ⟨e, rfl⟩
  | ok conversion => exact .inl ⟨_, rfl⟩

theorem Records.consistent {s : Session} {requests : List Request} (h : s.Records requests) :
    s.Consistent requests where
  nodup := h.paths ▸ h.sound.registry.nodup
  registry := h.paths
  known := fun path => by rw [h.sound.registry.contains_iff, h.paths]
  environment := h.sound.paths.trans h.paths
  contains := fun path => by
    rw [h.sound.environment.coherent.contains_iff, h.sound.paths, h.paths]
  program? := h.program.1
  rootFileNames := fun p hp => (h.program.2 p hp).1
  text := by
    intro path hmem
    obtain ⟨text, htext⟩ := Option.isSome_iff_exists.1 ((lastText?_isSome_iff requests path).2 hmem)
    have hregistered : path ∈ s.registry.paths := h.paths ▸ hmem
    refine ⟨text, htext, ?_, ?_, fun p hp => ?_⟩
    · rw [h.text path hregistered, htext]
    · rw [h.store path hregistered, htext]
    · rw [(h.program.2 p hp).2 path hmem, htext]
  parse := parse_eq_ok_or_conversion h.sound
  updateConfig := h.updateConfig_eq_error_iff
  refused := by
    intro config error herror
    rw [updateConfig_of_error (fst_updateConfig_eq_error_iff.1 herror)]

/-- **Everything that a session keeps agrees with its requests**, whichever came before and whether
they failed or not, over a store that starts with any files. -/
theorem consistent_run {s : Session} {files : Table String} {config : Config}
    (h : ofConfig { files } config = .ok s) (requests : List Request) :
    (s.run requests).Consistent requests := by
  have := records_run_of_records (records_ofConfig h) requests
  rw [List.nil_append] at this
  exact this.consistent

/-- Two files, a syntax error, an empty text, and configurations of which one is refused. -/
theorem consistent_run_two_files :
    ∃ s : Session, ofConfig { files := Table.ofList [("/b.ts", "old")] } Table.empty = .ok s ∧
      (s.run [.parse "let a" {}, .parse "let" { filePath? := some "/b.ts" },
        .updateConfig (Table.ofList [("strict", .string "yes")]), .parse "" {},
        .updateConfig (Table.ofList [("strict", .bool true)])]).Consistent
        [.parse "let a" {}, .parse "let" { filePath? := some "/b.ts" },
          .updateConfig (Table.ofList [("strict", .string "yes")]), .parse "" {},
          .updateConfig (Table.ofList [("strict", .bool true)])] := by
  obtain ⟨s, hnew⟩ : ∃ s, ofConfig { files := Table.ofList [("/b.ts", "old")] } Table.empty =
      .ok s := ⟨_, rfl⟩
  exact ⟨s, hnew, consistent_run hnew _⟩

end ScriptAnalysis.Session

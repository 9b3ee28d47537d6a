import Mathlib.Data.List.Induction
import ScriptAnalysis.Proofs.Session.Consistency

/-!
# Creations, updates and events

The first request for a file creates it in the environment, and every other one updates it, also in an
environment that took the place of the one it was created in. The counts of an environment start again
when it is replaced, the registry does not. `exists_route` says what one request does; `routed_run` says
which routes the requests of a session take, what the counts are after them, and what has been made known.
-/

namespace ScriptAnalysis.Session

open Project (Environment EnvironmentError FileStore)

/-! ### Routes -/

/-- How the text of a request comes into the environment. -/
inductive Route where
  /-- The file is created. -/
  | create
  /-- The file is updated. -/
  | update
  deriving DecidableEq, Repr

/-- Whether a file could be given a text, and the environment afterwards. -/
def Route.put (e : Environment) (path text : String) :
    Route → Except EnvironmentError Unit × Environment
  | create => (.ok (), e.createFile path text)
  | update => e.updateFile path text

/-- A request to read a file brings its text into the environment on a route, whatever its answer is. -/
def Takes (s : Session) (text : String) (options : ParserOptions) (route : Route) : Prop :=
  ∃ e, route.put s.environment options.path (sourceText text) = (.ok (), e) ∧
    (s.parse text options).2.environment = e.snapshot.environment

/-- The route of a request for a file: the first one creates it. -/
def routeAfter (before : List Request) (path : String) : Route :=
  if path ∈ requestedPaths before then .update else .create

/-- The routes of the requests to read a file, in order, after earlier requests. -/
def routes (before : List Request) : List Request → List Route
  | [] => []
  | .parse text options :: requests =>
    routeAfter before options.path :: routes (before ++ [.parse text options]) requests
  | .updateConfig config :: requests => routes (before ++ [.updateConfig config]) requests

example : routes []
    [.parse "let a" {}, .parse "let" { filePath? := some "/b.ts" }, .updateConfig .empty,
      .parse "let b" { filePath? := some "/b.ts" }, .parse "" { filePath? := some "/c.ts" }] =
    [.create, .create, .update, .create] := by decide

/-! ### What is answered -/

/-- The answer that a request gets, if it is one to read a file and does not fail. -/
def answer? (s : Session) : Request → Option Answer
  | .parse text options => (s.parse text options).1.toOption
  | .updateConfig _ => none

/-- The answers to requests, in order. -/
def answers (s : Session) : List Request → List Answer
  | [] => []
  | request :: requests => (s.answer? request).toList ++ answers (s.perform request) requests

/-! ### Other environments -/

/-- Another configuration is not refused. -/
def Accepts (s : Session) (config : Config) : Prop := (s.updateConfig config).1 = .ok ()

/-- The last of the requests `before` replaced the environment, or there are none; none of the requests
`recent` after them did. -/
structure LastReplaced (s : Session) (before recent : List Request) : Prop where
  replaced : before = [] ∨ ∃ earlier config, before = earlier ++ [.updateConfig config] ∧
    (s.run earlier).Accepts config
  kept : ∀ earlier config, earlier ++ [.updateConfig config] <+: recent →
    ¬(s.run (before ++ earlier)).Accepts config

/-! ### One request -/

section
variable {s : Session} (text : String) (options : ParserOptions)

/-- A request leaves what putting its text and making a program leaves, and makes its answer known. -/
theorem parse_of_putFile {s' : Session}
    (h : s.putFile options.path (sourceText text) = (.ok (), s')) :
    (s.parse text options).2.environment = s'.environment.snapshot.environment ∧
      (s.parse text options).2.events =
        s'.events ++ (s.answer? (.parse text options)).toList.map Answer.event := by
  simp only [answer?, parse, h]
  split
  · exact ⟨rfl, by simp [Except.toOption]⟩
  · split
    · exact ⟨rfl, by simp [Except.toOption]⟩
    · exact ⟨rfl, by simp [Except.toOption]⟩

/-- What a request to read a file does: a file that is not registered is created, one that is registered
is updated, and exactly an answer is made known. -/
theorem exists_route (h : s.Sound) :
    s.Takes text options (if options.path ∈ s.registry.paths then .update else .create) ∧
      (s.parse text options).2.events =
        s.events ++ (s.answer? (.parse text options)).toList.map Answer.event := by
  by_cases hmem : options.path ∈ s.registry.paths
  · obtain ⟨henv, hevents⟩ := parse_of_putFile text options (putFile_of_mem h hmem (sourceText text))
    have hu := Environment.updateFile_of_mem h.environment.coherent
      (h.paths ▸ hmem : options.path ∈ s.environment.paths) (sourceText text)
    have hok := congrArg Prod.fst hu
    rw [if_pos hmem]
    exact ⟨⟨(s.environment.updateFile options.path (sourceText text)).2, Prod.ext hok rfl, henv⟩, hevents⟩
  · obtain ⟨henv, hevents⟩ := parse_of_putFile text options (putFile_of_notMem h hmem (sourceText text))
    rw [if_neg hmem]
    exact ⟨⟨_, rfl, henv⟩, hevents⟩

/-- The counts tell which route was taken. -/
theorem Takes.counts {route : Route} (h : s.Takes text options route) :
    (s.parse text options).2.environment.created =
        s.environment.created + [route].count .create ∧
      (s.parse text options).2.environment.updated =
        s.environment.updated + [route].count .update := by
  obtain ⟨e, he, henv⟩ := h
  rw [henv, Environment.created_snapshot, Environment.updated_snapshot]
  cases route with
  | create =>
    obtain ⟨-, rfl⟩ := Prod.mk.inj he
    exact ⟨Environment.created_createFile .., Environment.updated_createFile ..⟩
  | update =>
    simp only [Route.put, Environment.updateFile] at he
    split at he
    · cases (Prod.mk.inj he).1
    · obtain ⟨-, rfl⟩ := Prod.mk.inj he
      exact ⟨rfl, rfl⟩

theorem Takes.unique {text : String} {options : ParserOptions} {route route' : Route}
    (h : s.Takes text options route)
    (h' : s.Takes text options route') : route = route' := by
  have hcount := (h.counts text options).1.symm.trans (h'.counts text options).1
  cases route <;> cases route' <;> simp at hcount ⊢

end

/-- An environment that has just taken the place of another one has counted nothing. -/
theorem counts_of_updateConfig {s : Session} {config : Config} (h : s.Accepts config) :
    (s.updateConfig config).2.environment.created = 0 ∧
      (s.updateConfig config).2.environment.updated = 0 := by
  obtain ⟨e, he⟩ := fst_updateConfig_eq_ok_iff.1 h
  have hnew := Environment.isNew_of_ofRoots he
  rw [updateConfig_of_ok he]
  exact ⟨hnew.created, hnew.updated⟩

/-- Every request makes its answer known, and nothing else. -/
theorem events_perform {s : Session} (h : s.Sound) (request : Request) :
    (s.perform request).events = s.events ++ (s.answer? request).toList.map Answer.event := by
  cases request with
  | parse text options => exact (exists_route text options h).2
  | updateConfig config =>
    have hnone : (s.answer? (.updateConfig config)).toList.map Answer.event = [] := rfl
    simp only [perform, hnone, List.append_nil]
    exact events_updateConfig s config

/-! ### Any requests -/

/-- What has been made known after requests is what was known before, and their answers. -/
theorem events_run {s : Session} (h : s.Sound) (requests : List Request) :
    (s.run requests).events = s.events ++ (answers s requests).map Answer.event := by
  induction requests generalizing s with
  | nil => simp [answers]
  | cons request requests ih =>
    have hstep := ih (sound_perform h request)
    rw [events_perform h request] at hstep
    simpa [answers, run] using hstep

/-- The registry knows the files that were asked for. -/
theorem paths_run {s : Session} {store : FileStore} {config : Config}
    (h : ofConfig store config = .ok s) (requests : List Request) :
    (s.run requests).registry.paths = requestedPaths requests := by
  induction requests using List.reverseRecOn with
  | nil => exact (of_ofConfig h).2.1
  | append_singleton requests request ih =>
    rw [run_concat]
    cases request with
    | parse text options =>
      obtain ⟨_, -, -, hput⟩ := exists_parse (sound_run h requests) text options
      rw [perform, hput.registry, (sound_run h requests).registry.paths_add,
        requestedPaths_concat_parse, ih]
    | updateConfig config =>
      rw [requestedPaths_concat_updateConfig, ← ih, perform, registry_updateConfig]

/-- The route that a request takes depends on the requests before it. -/
theorem takes_routeAfter {s : Session} {store : FileStore} {config : Config}
    (h : ofConfig store config = .ok s) (before : List Request) (text : String)
    (options : ParserOptions) : (s.run before).Takes text options (routeAfter before options.path) := by
  rw [routeAfter, ← paths_run h before]
  exact (exists_route text options (sound_run h before)).1

/-- As long as the environment is not replaced, its counts grow with the routes. -/
theorem counts_run {s : Session} {store : FileStore} {config : Config}
    (h : ofConfig store config = .ok s) (before recent : List Request)
    (hkept : ∀ earlier config, earlier ++ [.updateConfig config] <+: recent →
      ¬(s.run (before ++ earlier)).Accepts config) :
    (s.run (before ++ recent)).environment.created =
        (s.run before).environment.created + (routes before recent).count .create ∧
      (s.run (before ++ recent)).environment.updated =
        (s.run before).environment.updated + (routes before recent).count .update := by
  induction recent generalizing before with
  | nil => simp [routes]
  | cons request recent ih =>
    have hrest := ih (before ++ [request]) fun earlier config hprefix => by
      rw [List.append_assoc]
      exact hkept (request :: earlier) config (List.cons_prefix_cons.2 ⟨rfl, hprefix⟩)
    rw [List.append_assoc, List.singleton_append, run_concat] at hrest
    cases request with
    | parse text options =>
      have hcounts := (takes_routeAfter h before text options).counts text options
      rw [perform, hcounts.1, hcounts.2] at hrest
      simp only [routes, List.count_cons, List.count_nil] at hrest ⊢
      omega
    | updateConfig config =>
      -- the configuration is refused, so the session stays as it is
      have hrefused := hkept [] config (List.cons_prefix_cons.2 ⟨rfl, List.nil_prefix⟩)
      rw [List.append_nil] at hrefused
      have hsame : (s.run before).perform (.updateConfig config) = s.run before :=
        (updateConfig_taken_or_refused _ config).resolve_left hrefused
      rw [hsame] at hrest
      exact hrest

/-- There always is a last replacement, if any. -/
theorem exists_lastReplaced (s : Session) (requests : List Request) :
    ∃ before recent, requests = before ++ recent ∧ s.LastReplaced before recent := by
  induction requests using List.reverseRecOn with
  | nil =>
    refine ⟨[], [], rfl, .inl rfl, fun earlier config hprefix => ?_⟩
    simp at hprefix
  | append_singleton requests request ih =>
    obtain ⟨before, recent, rfl, hlast⟩ := ih
    by_cases hreplaces : ∃ config, request = .updateConfig config ∧
        (s.run (before ++ recent)).Accepts config
    · obtain ⟨config, rfl, haccepts⟩ := hreplaces
      refine ⟨before ++ recent ++ [.updateConfig config], [], by simp,
        .inr ⟨_, config, rfl, haccepts⟩, fun earlier config' hprefix => ?_⟩
      simp at hprefix
    · refine ⟨before, recent ++ [request], by simp, hlast.replaced, fun earlier config hprefix => ?_⟩
      rcases List.prefix_concat_iff.1 hprefix with heq | hprefix
      · obtain ⟨rfl, hrequest⟩ := List.append_inj' heq rfl
        obtain rfl := List.singleton_inj.1 hrequest
        exact fun haccepts => hreplaces ⟨config, rfl, haccepts⟩
      · exact hlast.kept earlier config hprefix

/-- What the requests of a session do to its environments, and what is made known of them. -/
structure Routed (s : Session) (requests : List Request) : Prop where
  /-- The first request for a file creates it, every other one updates it. -/
  route : ∀ before text options, before ++ [.parse text options] <+: requests → ∀ route,
    (s.run before).Takes text options route ↔ route = routeAfter before options.path
  /-- So no two requests create one file. -/
  once : ∀ before text options before' text' options',
    before ++ [.parse text options] <+: requests → before' ++ [.parse text' options'] <+: requests →
      options.path = options'.path → (s.run before).Takes text options .create →
        (s.run before').Takes text' options' .create → before = before'
  /-- Some request was the last one that replaced the environment, or none did. -/
  replaced : ∃ before recent, requests = before ++ recent ∧ s.LastReplaced before recent
  /-- The first requests since then are counted as creations. -/
  created : ∀ before recent, requests = before ++ recent → s.LastReplaced before recent →
    (s.run requests).environment.created = (routes before recent).count .create
  /-- The other ones are counted as updates. -/
  updated : ∀ before recent, requests = before ++ recent → s.LastReplaced before recent →
    (s.run requests).environment.updated = (routes before recent).count .update
  /-- The answers have been made known, in order, and nothing else. -/
  events : (s.run requests).events = (answers s requests).map fun a =>
    ⟨a.services.tree, a.ast, a.scopes, a.services.program⟩

/-- A file that was asked for before is not created again. -/
theorem routeAfter_eq_update {before before' : List Request} {text : String}
    {options : ParserOptions} (h : before ++ [.parse text options] <+: before') :
    routeAfter before' options.path = .update := by
  obtain ⟨rest, rfl⟩ := h
  refine if_pos (List.mem_eraseDups.2 ?_)
  simp [requestedTexts, Request.text?]

/-- The counts of an environment are zero when it takes its place. -/
theorem LastReplaced.counts {s : Session} {store : FileStore} {config : Config}
    (h : ofConfig store config = .ok s) {before recent : List Request}
    (hlast : s.LastReplaced before recent) :
    (s.run before).environment.created = 0 ∧ (s.run before).environment.updated = 0 := by
  rcases hlast.replaced with rfl | ⟨earlier, config, rfl, haccepts⟩
  · have hnew := (of_ofConfig h).2.2.1
    exact ⟨hnew.created, hnew.updated⟩
  · rw [run_concat]
    exact counts_of_updateConfig haccepts

/-- **The first request for a file creates it and all others update it**, over the whole life of a
session; its environment counts those since it was last replaced, and the answers are what has been made
known, whichever requests failed and whichever configurations were refused. -/
theorem routed_run {s : Session} {store : FileStore} {config : Config}
    (h : ofConfig store config = .ok s) (requests : List Request) : s.Routed requests where
  route := by
    intro before text options _ route
    have htakes := takes_routeAfter h before text options
    constructor
    · intro hroute
      exact hroute.unique htakes
    · rintro rfl
      exact htakes
  once := by
    intro before text options before' text' options' hprefix hprefix' hpath hcreate hcreate'
    have hfirst : ∀ {before before' : List Request} {text text' : String}
        {options options' : ParserOptions}, (s.run before').Takes text' options' .create →
          options.path = options'.path → ¬before ++ [.parse text options] <+: before' := by
      intro before before' text text' options options' hcreate hpath hlonger
      have hupdate := routeAfter_eq_update hlonger
      rw [hpath] at hupdate
      have := hcreate.unique (hupdate ▸ takes_routeAfter h before' text' options')
      cases this
    -- of two different positions one lies behind the other
    rcases Nat.lt_trichotomy before.length before'.length with hlt | heq | hlt
    · refine absurd (List.prefix_of_prefix_length_le hprefix
        ((List.prefix_append ..).trans hprefix') ?_) (hfirst hcreate' hpath)
      rw [List.length_append, List.length_singleton]
      omega
    · refine List.IsPrefix.eq_of_length (List.prefix_of_prefix_length_le
        ((List.prefix_append ..).trans hprefix) ((List.prefix_append ..).trans hprefix') ?_) heq
      omega
    · refine absurd (List.prefix_of_prefix_length_le hprefix'
        ((List.prefix_append ..).trans hprefix) ?_) (hfirst hcreate hpath.symm)
      rw [List.length_append, List.length_singleton]
      omega
  replaced := exists_lastReplaced s requests
  created := by
    rintro before recent rfl hlast
    rw [(counts_run h before recent hlast.kept).1, (hlast.counts h).1, Nat.zero_add]
  updated := by
    rintro before recent rfl hlast
    rw [(counts_run h before recent hlast.kept).2, (hlast.counts h).2, Nat.zero_add]
  events := by
    rw [events_run (of_ofConfig h).1, (of_ofConfig h).2.2.2, List.nil_append]
    rfl

/-- Two files, a syntax error, and configurations of which one is refused. -/
theorem routed_run_two_files :
    ∃ s : Session, ofConfig { files := Table.ofList [("/b.ts", "old")] } Table.empty = .ok s ∧
      s.Routed [.parse "let a" {}, .parse "let" { filePath? := some "/b.ts" }, .parse "a" {},
        .updateConfig (Table.ofList [("strict", .string "yes")]),
        .updateConfig (Table.ofList [("strict", .bool true)]),
        .parse "let b" { filePath? := some "/b.ts" }, .parse "" { filePath? := some "/c.ts" }] := by
  obtain ⟨s, hnew⟩ : ∃ s, ofConfig { files := Table.ofList [("/b.ts", "old")] } Table.empty =
      .ok s := ⟨_, rfl⟩
  exact ⟨s, hnew, routed_run hnew _⟩

end ScriptAnalysis.Session

import ScriptAnalysis.Project.Environment
import ScriptAnalysis.Scoping.Analysis
import ScriptAnalysis.Session.FileRegistry
import ScriptAnalysis.Session.ParserOptions
import ScriptAnalysis.Session.Services

/-!
# Sessions

A session serves requests to read a file. The text of a request becomes the text of the file in the
session's environment; the answer is the common tree of the file, its scopes and the services of a
program of all files met so far. Every answer is an event. Another configuration replaces the
environment by one over the same files, which have their latest texts in the store.

A request that fails with a syntax error has changed the file all the same. A configuration that is
refused changes nothing.
-/

namespace ScriptAnalysis

open Project (Environment EnvironmentError FileStore)
open Scoping (ScopeGraph)

namespace Session

/-- Why a request has no answer. -/
inductive Error where
  /-- The environment cannot be made or changed. -/
  | environment (error : EnvironmentError)
  /-- The environment has no files. -/
  | programUnavailable
  /-- The program does not hold the file. -/
  | missingSourceFile (path : String)
  /-- The file has a syntax error. -/
  | conversion (error : Ast.ConversionError)
  deriving DecidableEq, Repr

/-- The sentence that reports the error. -/
def Error.message : Error → String
  | environment error => error.message
  | programUnavailable => "failed to get program"
  | missingSourceFile path => "program has no source file '" ++ path ++ "'"
  | conversion error =>
    error.filePath ++ "(" ++ toString error.position.line ++ "," ++ toString error.position.column ++
      "): " ++ error.message

/-- The answer to a request. -/
structure Answer where
  /-- The common tree of the file. -/
  ast : Ast.Tree
  /-- Its scopes. -/
  scopes : ScopeGraph
  /-- The services for its nodes. -/
  services : Services

/-- What is made known of an answer. -/
structure Event where
  /-- The file's own tree. -/
  tree : Syntax.Tree
  /-- The common tree of the file. -/
  ast : Ast.Tree
  /-- Its scopes. -/
  scopes : ScopeGraph
  /-- The program. -/
  program : Semantics.Program

/-- What is made known of an answer. -/
def Answer.event (a : Answer) : Event := ⟨a.services.tree, a.ast, a.scopes, a.services.program⟩

/-- The text that a file gets from the text of a request; a file is not empty. -/
def sourceText (text : String) : String := if text = "" then "\n" else text

end Session

/-- An environment, the files it is made over, and what has been made known. -/
structure Session where
  /-- The environment. -/
  environment : Environment
  /-- The files that have been met. -/
  registry : Session.FileRegistry := {}
  /-- What has been made known, in order. -/
  events : List Session.Event := []

namespace Session

/-- A session without files. -/
def ofConfig (store : FileStore) (config : Config) : Except EnvironmentError Session := do
  let environment ← Environment.ofRoots store [] config
  pure { environment }

/-- Whether a file could be given a text, by creating or updating it, and the session afterwards. -/
def putFile (s : Session) (path text : String) : Except EnvironmentError Unit × Session :=
  if s.registry.contains path then
    let (result, environment) := s.environment.updateFile path text
    (result, { s with environment })
  else
    let s := { s with registry := (s.registry.add path).2 }
    (.ok (), { s with environment := s.environment.createFile path text })

/-- The answer to a request about a file of a program. -/
def answer (program : Semantics.Program) (path text : String) (options : ParserOptions) :
    Except Error Answer := do
  let file ← match program.file? path with
    | some file => .ok file
    | none => .error (.missingSourceFile path)
  let conversion ← (Ast.Conversion.ofTree file.tree { code := text, filePath := path }).mapError
    .conversion
  pure
    { ast := conversion.tree
      scopes := .ofTree options.scoping conversion.tree
      services := ⟨program, file.tree, conversion.maps⟩ }

/-- The answer to a request, and the session afterwards. -/
def parse (s : Session) (text : String) (options : ParserOptions) :
    Except Error Answer × Session :=
  let text := sourceText text
  match s.putFile options.path text with
  | (.error e, s) => (.error (.environment e), s)
  | (.ok (), s) =>
    let snapshot := s.environment.snapshot
    let s := { s with environment := snapshot.environment }
    match snapshot.program? with
    | none => (.error .programUnavailable, s)
    | some program =>
      match answer program options.path text options with
      | .error e => (.error e, s)
      | .ok a => (.ok a, { s with events := s.events ++ [a.event] })

/-- Whether another configuration is taken, and the session afterwards. An environment that cannot be made
does not take the place of the present one, which has the same store. -/
def updateConfig (s : Session) (config : Config) : Except EnvironmentError Unit × Session :=
  match Environment.create s.environment.store s.registry.paths config with
  | (.error e, store) => (.error e, { s with environment := { s.environment with store } })
  | (.ok environment, _) => (.ok (), { s with environment })

end Session

end ScriptAnalysis

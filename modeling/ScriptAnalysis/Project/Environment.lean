import ScriptAnalysis.Project.FileStore
import ScriptAnalysis.Semantics.Check

/-!
# Environments

The files of a project under a configuration, over a store that every change is written to. A program
is made of the current texts of all files. What a file was read as is kept, so that making a program
again only reads the files whose text has been given since: reading and binding are one query each, and
a text that is the same as before is read but not bound again.

A file is kept in a storage and known by a handle. An environment keeps the handles twice, in the order
of their registration and under the paths of the files; nothing but its operations keeps these in step
with each other and with the store, which other environments share.
-/

namespace ScriptAnalysis.Project

open Semantics (ProgramFile Program)

/-! ### Files -/

/-- What is known about the tree and the binding of a file. -/
inductive Reading where
  /-- Nothing: the file has not been read. -/
  | never
  /-- What its text was read as. -/
  | current (file : ProgramFile)
  /-- What a text was read as that was given before the present one. -/
  | outdated (file : ProgramFile)

/-- A file of an environment. -/
structure SourceFile where
  /-- The path of the file. -/
  path : String
  /-- Its text. -/
  text : String
  /-- What is known about its tree and its binding. -/
  reading : Reading

namespace SourceFile

/-- A file that has not been read. -/
def ofText (path text : String) : SourceFile := ⟨path, text, .never⟩

/-- The file with another text, or with the same one given again. -/
def setText (f : SourceFile) (text : String) : SourceFile :=
  { f with
    text
    reading := match f.reading with
      | .never => .never
      | .current file | .outdated file => .outdated file }

/-- The file read and bound, with the number of queries that this takes. -/
def read (f : SourceFile) : ProgramFile × Nat :=
  match f.reading with
  | .never => (.ofText f.path f.text, 2)
  | .current file => (file, 0)
  | .outdated file =>
    let tree := Syntax.Tree.parse f.path f.text
    if tree.text = file.tree.text then (⟨tree, file.binding⟩, 1)
    else (⟨tree, .ofTree tree⟩, 2)

/-- The file with what it is read as. -/
def withReading (f : SourceFile) : SourceFile := { f with reading := .current f.read.1 }

@[simp] theorem read_withReading (f : SourceFile) : f.withReading.read = (f.read.1, 0) := rfl

instance : Inhabited SourceFile := ⟨.ofText "" ""⟩

end SourceFile

/-! ### Storages -/

/-- The handle of a file in a storage. -/
structure FileId where
  /-- How many files were made before. -/
  index : Nat
  deriving DecidableEq, Repr

/-- The files that can be read, by their handles. -/
structure Storage where
  /-- The files in the order in which they were made. -/
  inputs : List SourceFile := []

namespace Storage

/-- The file of a handle. Handles are only had from `make`, so there always is one. -/
def get (s : Storage) (id : FileId) : SourceFile := s.inputs[id.index]?.getD default

/-- A new file's handle, and the storage with the file. -/
def make (s : Storage) (path text : String) : FileId × Storage :=
  (⟨s.inputs.length⟩, ⟨s.inputs ++ [.ofText path text]⟩)

/-- The storage with one file changed. -/
def modify (s : Storage) (id : FileId) (change : SourceFile → SourceFile) : Storage :=
  ⟨s.inputs.modify id.index change⟩

/-- What the files of some handles are read as, one after the other, with the number of queries and the
storage that knows what they answered. -/
def readAll (s : Storage) : List FileId → (List ProgramFile × Nat) × Storage
  | [] => (([], 0), s)
  | id :: ids =>
    let (file, queries) := (s.get id).read
    let ((files, others), s) := (s.modify id (·.withReading)).readAll ids
    ((file :: files, queries + others), s)

end Storage

/-! ### Environments -/

/-- Why an environment cannot be made or changed. -/
inductive EnvironmentError where
  /-- The configuration is wrong. -/
  | invalidConfig (error : Config.Error)
  /-- A file to begin with is not in the store. -/
  | missingRootFile (path : String)
  /-- A file that is to be changed does not belong to the environment. -/
  | unknownFile (path : String)
  deriving DecidableEq, Repr

/-- The sentence that reports the error. -/
def EnvironmentError.message : EnvironmentError → String
  | invalidConfig error => "invalid compiler configuration: " ++ error.message
  | missingRootFile path => "root file '" ++ path ++ "' does not exist in the virtual file system"
  | unknownFile path => "file '" ++ path ++ "' is not part of the environment"

/-- The files of a project under a configuration. -/
structure Environment where
  /-- The files. -/
  storage : Storage := {}
  /-- The store that changes are written to. -/
  store : FileStore
  /-- The handles of the files in the order of their registration. -/
  handles : List FileId := []
  /-- The handles of the files by their paths. -/
  byPath : Table FileId := .empty
  /-- The configuration. -/
  config : Config
  /-- The options that it writes. -/
  options : Config.Options
  /-- How often a file was created. -/
  created : Nat := 0
  /-- How often a file was updated. -/
  updated : Nat := 0

/-- A program of an environment, the number of queries it took, and the environment that knows what
they answered. -/
structure Snapshot where
  /-- The program; there is none without files. -/
  program? : Option Program
  /-- The number of queries. -/
  queries : Nat
  /-- The environment afterwards. -/
  environment : Environment

namespace Environment

/-- The files in the order of their registration. -/
def files (e : Environment) : List SourceFile := e.handles.map e.storage.get

/-- The paths of the files in the order of their registration. -/
def paths (e : Environment) : List String := e.files.map (·.path)

/-- Whether a file belongs to the environment. -/
def contains (e : Environment) (path : String) : Bool := (e.byPath.get? path).isSome

/-- The text of a file. -/
def text? (e : Environment) (path : String) : Option String :=
  (e.byPath.get? path).map fun id => (e.storage.get id).text

/-- The environment with a new file. -/
def register (e : Environment) (path text : String) : Environment :=
  let (id, storage) := e.storage.make path text
  let e := { e with storage, handles := e.handles ++ [id] }
  { e with byPath := e.byPath.insert path id }

/-- The environment with a file, which may have been there. -/
def createFile (e : Environment) (path text : String) : Environment :=
  let e := { e with store := e.store.write path text }
  let e := { e with created := e.created + 1 }
  match e.byPath.get? path with
  | some id => { e with storage := e.storage.modify id (·.setText text) }
  | none => e.register path text

/-- Whether a file could be given another text, and the environment afterwards. -/
def updateFile (e : Environment) (path text : String) : Except EnvironmentError Unit × Environment :=
  match e.byPath.get? path with
  | none => (.error (.unknownFile path), e)
  | some id =>
    let e := { e with store := e.store.write path text }
    let e := { e with updated := e.updated + 1 }
    (.ok (), { e with storage := e.storage.modify id (·.setText text) })

/-- The files of the store are registered one after the other, each path once; one that is not in the
store ends it. -/
def registerRoots (e : Environment) : List String → Except EnvironmentError Unit × Environment
  | [] => (.ok (), e)
  | path :: paths =>
    if e.contains path then e.registerRoots paths
    else match e.store.read? path with
      | none => (.error (.missingRootFile path), e)
      | some text => (e.register path text).registerRoots paths

/-- An environment with files of a store, and the store, which others may hold, afterwards. The
configuration is looked at first. -/
def create (store : FileStore) (roots : List String) (config : Config) :
    Except EnvironmentError Environment × FileStore :=
  match Config.Options.ofConfig config with
  | .error e => (.error (.invalidConfig e), store)
  | .ok options =>
    match registerRoots { store, config, options } roots with
    | (.error e, environment) => (.error e, environment.store)
    | (.ok (), environment) => (.ok environment, environment.store)

/-- An environment with files of a store. -/
def ofRoots (store : FileStore) (roots : List String) (config : Config) :
    Except EnvironmentError Environment := (create store roots config).1

/-- The program of all files. -/
def snapshot (e : Environment) : Snapshot :=
  if e.handles.isEmpty then ⟨none, 0, e⟩
  else
    let ((files, queries), storage) := e.storage.readAll e.handles
    ⟨some (.ofFiles e.options files), queries, { e with storage }⟩

end Environment

end ScriptAnalysis.Project

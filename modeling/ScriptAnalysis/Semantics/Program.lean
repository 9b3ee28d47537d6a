import ScriptAnalysis.Config.Options
import ScriptAnalysis.Semantics.Binding
import ScriptAnalysis.Semantics.Globals

/-!
# Programs

A program is a number of files that are read and bound, under options and with the names of an
environment. Of several files with one path the last answers for it.
-/

namespace ScriptAnalysis.Semantics

open Syntax (Tree)

/-- A file of a program. -/
structure ProgramFile where
  /-- The tree of the file. -/
  tree : Tree
  /-- Its binding. -/
  binding : Binding

namespace ProgramFile

/-- Reads and binds a file. -/
def ofText (path text : String) : ProgramFile :=
  let tree := Tree.parse path text
  ⟨tree, .ofTree tree⟩

/-- The path of the file. -/
def path (f : ProgramFile) : String := f.tree.fileName

end ProgramFile

/-- Files under options and with the names of an environment. -/
structure Program where
  /-- The options. -/
  options : Config.Options
  /-- The names of the environment. -/
  globals : Globals
  /-- The files in order. -/
  files : List ProgramFile

namespace Program

/-- The program of some files under options. -/
def ofFiles (options : Config.Options) (files : List ProgramFile) : Program :=
  { options, files, globals := .ofLibs options.effectiveLibs }

/-- The file that answers for a path. -/
def file? (p : Program) (path : String) : Option ProgramFile :=
  p.files.reverse.find? (·.path == path)

/-- The paths of the files in order. -/
def rootFileNames (p : Program) : List String := p.files.map (·.path)

/-- The reports of the syntax errors of the file of a path. -/
def syntacticDiagnostics (p : Program) (path : String) : List Diagnostic :=
  match p.file? path with
  | some file => file.tree.errors.map .ofSyntaxError
  | none => []

end Program

end ScriptAnalysis.Semantics

import ScriptAnalysis.Table

/-!
# Registered files

The paths of the files that a session has met, in the order of their first registration. A registry
only grows. The paths are kept a second time as a set, which is what tells whether a path is registered.
-/

namespace ScriptAnalysis.Session

/-- The paths that have been registered. -/
structure FileRegistry where
  /-- The paths in the order of their registration. -/
  paths : List String := []
  /-- The set of the paths. -/
  known : Table Unit := .empty

namespace FileRegistry

/-- Whether a path is registered. -/
def contains (r : FileRegistry) (path : String) : Bool := (r.known.get? path).isSome

/-- How many paths are registered. -/
def size (r : FileRegistry) : Nat := r.paths.length

/-- Whether no path is registered. -/
def isEmpty (r : FileRegistry) : Bool := r.paths.isEmpty

/-- Whether a path is new, and the registry with it; one that is registered already keeps its place. -/
def add (r : FileRegistry) (path : String) : Bool × FileRegistry :=
  if r.contains path then (false, r)
  else
    let r := { r with known := r.known.insert path () }
    (true, { r with paths := r.paths ++ [path] })

end FileRegistry

end ScriptAnalysis.Session

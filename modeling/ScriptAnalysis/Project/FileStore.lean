import ScriptAnalysis.Table

/-!
# File stores

The texts of files by their paths. A store that can only be read drops what is written to it and does
not say which paths it holds.
-/

namespace ScriptAnalysis.Project

/-- The texts of files by their paths. -/
structure FileStore where
  /-- The texts. -/
  files : Table String := .empty
  /-- Whether the store can only be read. -/
  isReadOnly : Bool := false

namespace FileStore

/-- The text of a file. -/
def read? (s : FileStore) (path : String) : Option String := s.files.get? path

/-- Whether there is a file. -/
def contains (s : FileStore) (path : String) : Bool := (s.read? path).isSome

/-- The store after a text has been written for a file. -/
def write (s : FileStore) (path text : String) : FileStore :=
  if s.isReadOnly then s else { s with files := s.files.insert path text }

/-- The paths of the files in order. -/
def paths? (s : FileStore) : Option (List String) :=
  if s.isReadOnly then none else some s.files.names

/-- What is written is read back, and every other file keeps its text. -/
theorem read?_write {s : FileStore} (h : s.isReadOnly = false) (path other text : String) :
    (s.write path text).read? other = if other = path then some text else s.read? other := by
  simp [write, h, read?, Table.get?_insert]

end FileStore

end ScriptAnalysis.Project

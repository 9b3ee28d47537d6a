import ScriptAnalysis.Scoping.Options

/-!
# Options of a request

What a request to read a file may say about the file, and how that is written. `ofValue?_toValue` says
that what is written is read back.
-/

namespace ScriptAnalysis.Session

open Ast (SourceType)
open Config (Value)

/-- The features of the language that a request asks for. -/
structure Features where
  /-- Whether the program is the body of a function. -/
  globalReturn : Bool := false
  /-- Whether markup is expected; the language has none. -/
  jsx : Bool := false
  deriving DecidableEq, Repr

namespace Features

/-- The names of the features in order. -/
def names : List String := ["globalReturn", "jsx"]

/-- The features that a value writes. -/
def ofValue? (value : Value) : Option Features := do
  let field ← value.record? names
  let globalReturn ← Config.flag? false (field "globalReturn")
  let jsx ← Config.flag? false (field "jsx")
  pure { globalReturn, jsx }

/-- The value that writes features. -/
def toValue (f : Features) : Value :=
  .object [("globalReturn", .bool f.globalReturn), ("jsx", .bool f.jsx)]

@[simp] theorem ofValue?_toValue (f : Features) : ofValue? f.toValue = some f := rfl

end Features

/-- What a request says about a file. -/
structure ParserOptions where
  /-- The path of the file. -/
  filePath? : Option String := none
  /-- How the program is run. -/
  sourceType? : Option SourceType := none
  /-- The features that are asked for. -/
  features : Features := {}
  deriving DecidableEq, Repr

namespace ParserOptions

/-- The path of a file of which a request says none. -/
def defaultPath : String := "/file.ts"

/-- The path of the file. -/
def path (o : ParserOptions) : String := o.filePath?.getD defaultPath

/-- How the scopes of the file are analysed. -/
def scoping (o : ParserOptions) : Scoping.Options :=
  { globalReturn := o.features.globalReturn, sourceType := o.sourceType?.getD .module }

/-- The names of the options in order. -/
def names : List String := ["filePath", "sourceType", "ecmaFeatures"]

/-- The options that a value writes. -/
def ofValue? (value : Value) : Option ParserOptions := do
  let field ← value.record? names
  let filePath? ← match field "filePath" with
    | none | some .null => some none
    | some (.string path) => some (some path)
    | some _ => none
  let sourceType? ← match field "sourceType" with
    | none | some .null => some none
    | some value => (SourceType.ofValue? value).map some
  let features ← match field "ecmaFeatures" with
    | none => some {}
    | some value => Features.ofValue? value
  pure { filePath?, sourceType?, features }

/-- The value that writes options. -/
def toValue (o : ParserOptions) : Value :=
  .object [("filePath", o.filePath?.elim .null .string),
    ("sourceType", o.sourceType?.elim .null fun t => .string t.spelling),
    ("ecmaFeatures", o.features.toValue)]

/-- Options that are written are read back. -/
theorem ofValue?_toValue (o : ParserOptions) : ofValue? o.toValue = some o := by
  obtain ⟨path?, type?, features⟩ := o
  rcases path? with _ | path <;> rcases type? with _ | _ | _ <;> rfl

end ParserOptions

end ScriptAnalysis.Session

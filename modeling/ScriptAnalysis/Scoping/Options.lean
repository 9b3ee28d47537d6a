import ScriptAnalysis.Ast.Tree
import ScriptAnalysis.Config.Value

/-!
# Options of scope analysis

How a program is analysed, and how that is written.
-/

namespace ScriptAnalysis

/-- The way of running a program that a value stands for: a word, or the word as the name of the only
field of an object, without a value. -/
def Ast.SourceType.ofValue? : Config.Value → Option Ast.SourceType
  | .string name => ofName? name
  | .object [(name, .null)] => ofName? name
  | _ => none

namespace Scoping

open Ast (SourceType)
open Config (Value)

/-- How a program is analysed. -/
structure Options where
  /-- Whether the program is the body of a function. -/
  globalReturn : Bool := false
  /-- How the program is run. -/
  sourceType : SourceType := .module
  deriving DecidableEq, Repr

namespace Options

/-- The names of the options in order. -/
def names : List String := ["globalReturn", "sourceType"]

/-- The options that a value writes. -/
def ofValue? (value : Value) : Option Options := do
  let field ← value.record? names
  let globalReturn ← Config.flag? false (field "globalReturn")
  let sourceType ← match field "sourceType" with
    | none => some .module
    | some value => SourceType.ofValue? value
  pure { globalReturn, sourceType }

end Options

end Scoping

end ScriptAnalysis

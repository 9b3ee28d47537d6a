import ScriptAnalysis.Config.Choice
import ScriptAnalysis.Semantics.Symbol
import ScriptAnalysis.Types.Basic

/-!
# Names of the environment

The names that are there without being declared. `undefined` always is; the language brings its own
names along and so does the host a program runs in. Objects are numbered in the order in which they
come along, and a name that is there already is not brought along again.
-/

namespace ScriptAnalysis.Semantics

open Config (Lib)

/-- A name of the environment. -/
structure Global where
  /-- The name. -/
  name : String
  /-- What it is. -/
  kind : SymbolKind
  /-- Its type. -/
  type : Ty
  deriving DecidableEq

/-- What a name of the environment is before objects are numbered. -/
inductive Ambient where
  /-- Something of a type. -/
  | value (type : Ty)
  /-- An object with the name of its type and its members. -/
  | object (typeName : String) (members : List (String × Ty))

/-- The names of the environment. -/
structure Globals where
  /-- The names in the order in which they came along. -/
  all : List Global
  /-- How many objects there are. -/
  objectCount : Nat
  deriving DecidableEq

/-! ### What there is -/

namespace Ambient

/-- A parameter that needs an argument. -/
def required (name : String) (type : Ty) : Param Ty := { name, type }

/-- A parameter that may be left out. -/
def optional (name : String) (type : Ty) : Param Ty := { name, type, optional := true }

/-- A parameter for all further arguments. -/
def rest (name : String) (element : Ty) : Param Ty := { name, type := .array element, rest := true }

/-- A function of one number. -/
def unaryMath : Ty := .function [required "x" .number] .number

/-- A function of any number of numbers. -/
def variadicMath : Ty := .function [rest "values" .number] .number

/-- A function that prints its arguments. -/
def print : Ty := .function [rest "data" .any] .void

/-- The names of the language. -/
def language : List (String × Ambient) :=
  [("NaN", .value .number),
    ("Infinity", .value .number),
    ("parseInt",
      .value (.function [required "string" .string, optional "radix" .number] .number)),
    ("parseFloat", .value (.function [required "string" .string] .number)),
    ("isNaN", .value (.function [required "number" .number] .boolean)),
    ("Math", .object "Math"
      [("PI", .number), ("E", .number), ("abs", unaryMath), ("floor", unaryMath),
        ("ceil", unaryMath), ("max", variadicMath), ("min", variadicMath),
        ("random", .function [] .number)]),
    ("JSON", .object "JSON"
      [("stringify", .function [required "value" .any] .string),
        ("parse", .function [required "text" .string] .any)]),
    ("Number", .object "NumberConstructor"
      [("MAX_SAFE_INTEGER", .number),
        ("isInteger", .function [required "number" .unknown] .boolean)]),
    ("String", .object "StringConstructor"
      [("fromCharCode", .function [rest "codes" .number] .string)])]

/-- The name for printing. -/
def console : List (String × Ambient) :=
  [("console", .object "Console" [("log", print), ("error", print), ("warn", print)])]

/-- The names of a host with documents. -/
def document : List (String × Ambient) :=
  console ++
    [("document", .object "Document" [("title", .string)]),
      ("window", .object "Window" [("name", .string), ("innerWidth", .number)]),
      ("alert", .value (.function [optional "message" .any] .void))]

end Ambient

namespace Globals

/-- The place and the entry of a name from an index on. -/
def findFrom? (name : String) (index : Nat) : List Global → Option (Nat × Global)
  | [] => none
  | g :: gs => if g.name = name then some (index, g) else findFrom? name (index + 1) gs

/-- The place and the entry of a name. -/
def get? (globals : Globals) (name : String) : Option (Nat × Global) :=
  findFrom? name 0 globals.all

/-- Whether there is a name. -/
def contains (globals : Globals) (name : String) : Bool := (globals.get? name).isSome

/-- The kind of a name of a type. -/
def kindOf : Ty → SymbolKind
  | .function _ _ => .function
  | _ => .functionVariable

/-- The names with one more, unless it is there already. -/
def define (globals : Globals) (entry : String × Ambient) : Globals :=
  if globals.contains entry.1 then globals
  else
    match entry.2 with
    | .value type => { globals with all := globals.all ++ [⟨entry.1, kindOf type, type⟩] }
    | .object typeName members =>
      let type := .object globals.objectCount typeName members
      ⟨globals.all ++ [⟨entry.1, kindOf type, type⟩], globals.objectCount + 1⟩

/-- The names that are always there. -/
def initial : Globals := ⟨[⟨"undefined", .functionVariable, .undefined⟩], 0⟩

/-- The names that some sets bring along. -/
def ofLibs (libs : List Lib) : Globals :=
  let has (p : Lib → Bool) (entries : List (String × Ambient)) := if libs.any p then entries else []
  let entries :=
    has Lib.isLanguage Ambient.language ++
    has (fun lib => lib == .dom || lib == .domIterable) Ambient.document ++
    has (fun lib => lib == .webWorker || lib == .scriptHost) Ambient.console
  entries.foldl define initial

/-- The symbol of a name. -/
def symbol? (globals : Globals) (name : String) : Option Symbol :=
  (globals.get? name).map fun (index, g) => ⟨.ambient index, g.name, g.kind, []⟩

/-- The symbol of a member of an object. -/
def memberSymbol? (object : Nat) (members : List (String × Ty)) (name : String) : Option Symbol :=
  (Ty.member? members name).map fun (index, type) =>
    let kind := match type with
      | .function _ _ => SymbolKind.method
      | _ => SymbolKind.property
    ⟨.member object index, name, kind, []⟩

end Globals

end ScriptAnalysis.Semantics

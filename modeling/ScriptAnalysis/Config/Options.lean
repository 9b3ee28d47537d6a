import ScriptAnalysis.Config.Choice
import ScriptAnalysis.Config.Value

/-!
# Options

A configuration gives values to settings. Each setting says how its value is written; a value is
checked against that and becomes part of the options. A setting that is absent or null keeps its
default. The fields are examined in the order of their names, and the first that is wrong is the error.
-/

namespace ScriptAnalysis.Config

/-- What can be set. -/
inductive Setting where
  /-- The language version. -/
  | target
  /-- The module system. -/
  | moduleKind
  /-- The names of the environment. -/
  | lib
  /-- The treatment of markup. -/
  | jsx
  /-- The default of the settings for stricter checks. -/
  | strict
  /-- Whether null and undefined are types of their own. -/
  | strictNullChecks
  /-- Whether a parameter needs a type. -/
  | noImplicitAny
  /-- Whether code after a return is tolerated. -/
  | allowUnreachableCode
  deriving DecidableEq, Repr

/-- How the value of a setting is written. -/
inductive ValueShape where
  /-- A truth value. -/
  | boolean
  /-- One word of a set. -/
  | word (names : List String)
  /-- A list of words of a set. -/
  | words (names : List String)
  deriving DecidableEq, Repr

namespace Setting

/-- All settings, in the order in which they are listed. -/
def all : List Setting :=
  [target, moduleKind, lib, jsx, strict, strictNullChecks, noImplicitAny, allowUnreachableCode]

/-- The name of the setting in a configuration. -/
def name : Setting → String
  | target => "target"
  | moduleKind => "module"
  | lib => "lib"
  | jsx => "jsx"
  | strict => "strict"
  | strictNullChecks => "strictNullChecks"
  | noImplicitAny => "noImplicitAny"
  | allowUnreachableCode => "allowUnreachableCode"

/-- How the value of the setting is written. -/
def shape : Setting → ValueShape
  | target => .word (Choice.names Target)
  | moduleKind => .word (Choice.names ModuleKind)
  | lib => .words (Choice.names Lib)
  | jsx => .word (Choice.names Jsx)
  | strict | strictNullChecks | noImplicitAny | allowUnreachableCode => .boolean

/-- The group the setting is listed in. -/
def category : Setting → String
  | target | lib | jsx => "Language and Environment"
  | moduleKind => "Modules"
  | strict | strictNullChecks | noImplicitAny | allowUnreachableCode => "Type Checking"

/-- What the setting does. -/
def description : Setting → String
  | target => "Set the JavaScript language version for emitted JavaScript and include compatible " ++
    "library declarations."
  | moduleKind => "Specify what module code is generated."
  | lib => "Specify a set of bundled library declaration files that describe the target runtime " ++
    "environment."
  | jsx => "Specify what JSX code is generated."
  | strict => "Enable all strict type-checking options."
  | strictNullChecks => "When type checking, take into account 'null' and 'undefined'."
  | noImplicitAny =>
    "Enable error reporting for expressions and declarations with an implied 'any' type."
  | allowUnreachableCode => "Disable error reporting for unreachable code."

/-- The setting with a name. -/
def ofName? (name : String) : Option Setting := all.find? (·.name == name)

/-- A name belongs to a setting exactly when it is its name. -/
theorem ofName?_eq_some_iff (name : String) (s : Setting) :
    ofName? name = some s ↔ name = s.name := by
  constructor
  · intro h
    have := List.find?_some h
    exact (beq_iff_eq.1 this).symm
  · rintro rfl
    cases s <;> decide

end Setting

/-- What is wrong with a configuration. -/
inductive Error where
  /-- No setting has this name. -/
  | unknownOption (name : String)
  /-- The value of the setting is not of the type it needs. -/
  | expectedType (setting : Setting) (expected : String)
  /-- The word is not among those allowed for the setting. -/
  | invalidValue (setting : Setting) (value : String) (allowed : List String)
  deriving DecidableEq, Repr

namespace Error

/-- The number that reports the error. -/
def code : Error → Nat
  | unknownOption _ => 5023
  | expectedType .. => 5024
  | invalidValue .. => 6046

/-- The sentence that reports the error. -/
def message : Error → String
  | unknownOption name => "Unknown compiler option '" ++ name ++ "'."
  | expectedType setting expected =>
    "Compiler option '" ++ setting.name ++ "' requires a value of type " ++ expected ++ "."
  | invalidValue setting _ allowed =>
    "Argument for '--" ++ setting.name ++ "' option must be: " ++
      String.intercalate ", " (allowed.map fun name => "'" ++ name ++ "'") ++ "."

end Error

/-- A checked value of a setting. -/
inductive SettingValue where
  /-- The language version. -/
  | target (t : Target)
  /-- The module system. -/
  | moduleKind (m : ModuleKind)
  /-- The names of the environment. -/
  | lib (libs : List Lib)
  /-- The treatment of markup. -/
  | jsx (j : Jsx)
  /-- The default of the settings for stricter checks. -/
  | strict (b : Bool)
  /-- Whether null and undefined are types of their own. -/
  | strictNullChecks (b : Bool)
  /-- Whether a parameter needs a type. -/
  | noImplicitAny (b : Bool)
  /-- Whether code after a return is tolerated. -/
  | allowUnreachableCode (b : Bool)
  deriving DecidableEq, Repr

namespace Setting

/-- The truth value written for the setting. -/
def boolean (s : Setting) : Value → Except Error Bool
  | .bool b => .ok b
  | _ => .error (.expectedType s "boolean")

/-- The choice written for the setting. -/
def choice (s : Setting) (α : Type) [Choice α] : Value → Except Error α
  | .string word =>
    match Choice.ofName? α word with
    | some a => .ok a
    | none => .error (.invalidValue s word (Choice.names α))
  | _ => .error (.expectedType s "string")

/-- The choices written for the setting. -/
def choices (s : Setting) (α : Type) [Choice α] : Value → Except Error (List α)
  | .list items => items.mapM (s.choice α)
  | _ => .error (.expectedType s "list")

/-- The checked value of what is written for the setting. -/
def convert (s : Setting) (value : Value) : Except Error SettingValue :=
  match s with
  | target => .target <$> s.choice Target value
  | moduleKind => .moduleKind <$> s.choice ModuleKind value
  | lib => .lib <$> s.choices Lib value
  | jsx => .jsx <$> s.choice Jsx value
  | strict => .strict <$> s.boolean value
  | strictNullChecks => .strictNullChecks <$> s.boolean value
  | noImplicitAny => .noImplicitAny <$> s.boolean value
  | allowUnreachableCode => .allowUnreachableCode <$> s.boolean value

end Setting

/-- The options under which programs are checked. -/
structure Options where
  /-- The language version. -/
  target : Target := .esNext
  /-- The module system. -/
  moduleKind? : Option ModuleKind := none
  /-- The names of the environment. -/
  libs? : Option (List Lib) := none
  /-- The treatment of markup. -/
  jsx? : Option Jsx := none
  /-- The default of the settings for stricter checks. -/
  strict : Bool := false
  /-- Whether null and undefined are types of their own, where it is set. -/
  strictNullChecks? : Option Bool := none
  /-- Whether a parameter needs a type, where it is set. -/
  noImplicitAny? : Option Bool := none
  /-- Whether code after a return is tolerated, where it is set. -/
  allowUnreachableCode? : Option Bool := none
  deriving DecidableEq, Repr

namespace Options

/-- The options with one value set. -/
def apply (o : Options) : SettingValue → Options
  | .target t => { o with target := t }
  | .moduleKind m => { o with moduleKind? := some m }
  | .lib libs => { o with libs? := some libs }
  | .jsx j => { o with jsx? := some j }
  | .strict b => { o with strict := b }
  | .strictNullChecks b => { o with strictNullChecks? := some b }
  | .noImplicitAny b => { o with noImplicitAny? := some b }
  | .allowUnreachableCode b => { o with allowUnreachableCode? := some b }

/-- The options with what one field of a configuration sets; null sets nothing. -/
def applyField (o : Options) (field : String × Value) : Except Error Options :=
  match Setting.ofName? field.1 with
  | none => .error (.unknownOption field.1)
  | some s =>
    match field.2 with
    | .null => .ok o
    | value => o.apply <$> s.convert value

/-- The options that a configuration writes. -/
def ofConfig (config : Config) : Except Error Options := config.entries.foldlM applyField {}

/-- Whether null and undefined are types of their own. -/
def strictNullChecks (o : Options) : Bool := o.strictNullChecks?.getD o.strict

/-- Whether a parameter needs a type. -/
def noImplicitAny (o : Options) : Bool := o.noImplicitAny?.getD o.strict

/-- The names that the language version brings along. -/
def languageLib (o : Options) : Lib :=
  match o.target with
  | .es3 | .es5 => .es5
  | .es2015 => .es2015
  | .es2016 => .es2016
  | .es2017 => .es2017
  | .es2018 => .es2018
  | .es2019 => .es2019
  | .es2020 => .es2020
  | .es2021 => .es2021
  | .es2022 => .es2022
  | .esNext => .esNext

/-- The names of the environment: those that are set, or else those of the language version and of a
document host. -/
def effectiveLibs (o : Options) : List Lib := o.libs?.getD [o.languageLib, .dom, .scriptHost]

end Options

end ScriptAnalysis.Config

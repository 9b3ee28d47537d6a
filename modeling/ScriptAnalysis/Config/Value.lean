import ScriptAnalysis.Table

/-!
# Configuration values

The data that configurations and options are written in. A configuration is a table of such values. A
record of options is written by the names of its fields, or as the list of its fields in order.
-/

namespace ScriptAnalysis.Config

/-- A value as written in a configuration. -/
inductive Value where
  /-- Nothing. -/
  | null
  /-- A truth value. -/
  | bool (b : Bool)
  /-- A number as written. -/
  | number (text : String)
  /-- A string. -/
  | string (s : String)
  /-- A list of values. -/
  | list (items : List Value)
  /-- Named values. -/
  | object (fields : List (String × Value))
  deriving Repr, Inhabited

/-- The fields of a record by their names. Fields may be missing, at the end of a list too; a name of
no field is passed over, but a list that is too long is refused. -/
def Value.record? (names : List String) : Value → Option (String → Option Value)
  | .object fields => some fun name => fields.lookup name
  | .list items =>
    if items.length ≤ names.length then some fun name => (names.zip items).lookup name else none
  | _ => none

/-- The truth value of a field of a record, which is given for a missing one; nothing but a truth
value is accepted. -/
def flag? (missing : Bool) : Option Value → Option Bool
  | none => some missing
  | some (.bool b) => some b
  | some _ => none

end Config

/-- A configuration: values under the names of options. -/
abbrev Config := Table Config.Value

end ScriptAnalysis

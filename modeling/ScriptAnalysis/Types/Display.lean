import ScriptAnalysis.Decimal.Read
import ScriptAnalysis.Decimal.Shortest
import ScriptAnalysis.Text.Quoted
import ScriptAnalysis.Types.Basic

/-!
# Written types

The written form of a type. Functions are put in parentheses inside a union, functions and unions
before the brackets of a list.
-/

namespace ScriptAnalysis.Ty

/-- The type of one number by a text that writes it; `number` when the text writes none. -/
def ofNumeral (text : String) : Ty :=
  match Decimal.read? text.toList with
  | some value => numberLiteral value.text
  | none => number

/-- Whether a type needs parentheses inside a union. -/
def needsParensInUnion : Ty → Bool
  | function _ _ => true
  | _ => false

/-- Whether a type needs parentheses before brackets. -/
def needsParensInArray : Ty → Bool
  | function _ _ | union _ => true
  | _ => false

/-- A written form, in parentheses where they are needed. -/
def parenthesized (needed : Bool) (text : String) : String :=
  if needed then "(" ++ text ++ ")" else text

mutual

/-- The written form of a type. -/
def display : Ty → String
  | .any => "any"
  | .unknown => "unknown"
  | .never => "never"
  | .void => "void"
  | .undefined => "undefined"
  | .null => "null"
  | .number => "number"
  | .string => "string"
  | .boolean => "boolean"
  | .numberLiteral text => text
  | .stringLiteral value => Text.quoted value
  | .booleanLiteral value => if value then "true" else "false"
  | .array element => parenthesized element.needsParensInArray (display element) ++ "[]"
  | .union members => String.intercalate " | " (displayMembers members)
  | .function params ret =>
    "(" ++ String.intercalate ", " (displayParams params) ++ ") => " ++ display ret
  | .object _ name _ => name

/-- The written forms of the members of a union. -/
def displayMembers : List Ty → List String
  | [] => []
  | t :: ts => parenthesized t.needsParensInUnion (display t) :: displayMembers ts

/-- The written forms of parameters. -/
def displayParams : List (Param Ty) → List String
  | [] => []
  | ⟨name, type, optional, rest⟩ :: ps =>
    ((if rest then "..." else "") ++ name ++ (if optional then "?" else "") ++ ": " ++ display type)
      :: displayParams ps

end

end ScriptAnalysis.Ty

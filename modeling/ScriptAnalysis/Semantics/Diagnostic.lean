import ScriptAnalysis.Syntax.Error
import ScriptAnalysis.Types.Display

/-!
# Diagnostics

What is reported about a file: its syntax errors, and what is wrong with its names and types.
-/

namespace ScriptAnalysis.Semantics

/-- How serious a report is. -/
inductive Category where
  /-- Something is wrong. -/
  | error
  /-- Something may be wrong. -/
  | warning
  /-- Something could be better. -/
  | suggestion
  deriving DecidableEq, Repr

/-- What is reported. -/
inductive Cause where
  /-- A syntax error. -/
  | syntaxError (cause : Syntax.ErrorCause)
  /-- Two functions of one name in one scope. -/
  | duplicateFunction
  /-- A variable of a block whose name is declared again. -/
  | redeclaredBlockVariable (name : String)
  /-- A name that is declared twice. -/
  | duplicateIdentifier (name : String)
  /-- A name that stands for nothing. -/
  | nameNotFound (name : String)
  /-- A value whose type does not fit. -/
  | notAssignable (source target : Ty)
  /-- An assignment to a constant. -/
  | constantAssigned (name : String)
  /-- A parameter without a type. -/
  | implicitAny (name : String)
  /-- Statements after a return. -/
  | unreachableCode
  deriving DecidableEq

namespace Cause

/-- The number that reports the cause. -/
def code : Cause → Nat
  | syntaxError cause => cause.code
  | duplicateFunction => 2393
  | redeclaredBlockVariable _ => 2451
  | duplicateIdentifier _ => 2300
  | nameNotFound _ => 2304
  | notAssignable _ _ => 2322
  | constantAssigned _ => 2588
  | implicitAny _ => 7006
  | unreachableCode => 7027

/-- The sentence that reports the cause. -/
def message : Cause → String
  | syntaxError cause => cause.message
  | duplicateFunction => "Duplicate function implementation."
  | redeclaredBlockVariable name => "Cannot redeclare block-scoped variable '" ++ name ++ "'."
  | duplicateIdentifier name => "Duplicate identifier '" ++ name ++ "'."
  | nameNotFound name => "Cannot find name '" ++ name ++ "'."
  | notAssignable source target =>
    "Type '" ++ source.display ++ "' is not assignable to type '" ++ target.display ++ "'."
  | constantAssigned name => "Cannot assign to '" ++ name ++ "' because it is a constant."
  | implicitAny name => "Parameter '" ++ name ++ "' implicitly has an 'any' type."
  | unreachableCode => "Unreachable code detected."

end Cause

/-- A report about a place in a file. -/
structure Diagnostic where
  /-- What is reported. -/
  cause : Cause
  /-- Where. -/
  span : Span
  /-- How serious it is. -/
  category : Category := .error
  deriving DecidableEq

namespace Diagnostic

/-- The report of a syntax error. -/
def ofSyntaxError (e : Syntax.Error) : Diagnostic := { cause := .syntaxError e.cause, span := e.span }

/-- The order of reports: by place, and at one place by number. -/
def le (a b : Diagnostic) : Bool :=
  a.span.start < b.span.start || (a.span.start == b.span.start && a.cause.code ≤ b.cause.code)

/-- Reports in order; those that are equal in the order stay as they are. -/
def inOrder (ds : List Diagnostic) : List Diagnostic := ds.mergeSort le

end Diagnostic

end ScriptAnalysis.Semantics

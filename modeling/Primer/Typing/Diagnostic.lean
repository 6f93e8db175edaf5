import Primer.Operator
import Primer.Text.Location
import Primer.Ty

/-!
The problems that checking a program can find.
-/

namespace Primer

inductive Diagnostic.Cause where
  | undefinedIdentifier (name : String)
  | undefinedFunction (name : String)
  | undefinedStructure (name : String)
  | undefinedMember (structureName member : String)
  | undefinedMethod (type : Ty) (name : String)
  | typeMismatch (expected given : Ty)
  | notAVector (type : Ty)
  | notAStructure (type : Ty) (member : String)
  | numberOfArguments (name : String) (expected given : Nat)
  | noValue (name : String)
  | invalidOperands (operator : Operator) (left right : Ty)
  | invalidNegation (type : Ty)
  | notWritable (name : String)
  | notScalar (type : Ty)
  | notAnInstruction
  | resultInProcedure (name : String)
  | invalidCounter (name : String)
  | notConstant (name : String)
  | duplicate (name : String)
  | shadowsDeclaration (name : String)
  | missingEntry (name : String)
  | invalidEntrySignature (name : String)
  | reservedProgramName (name : String)
deriving DecidableEq, Repr

/-- A cause and the place it concerns. -/
structure Diagnostic where
  position : Position
  cause : Diagnostic.Cause
deriving DecidableEq, Repr

namespace Diagnostic

def Cause.message : Cause → String
  | undefinedIdentifier name => "Undefined identifier '" ++ name ++ "'"
  | undefinedFunction name => "Undefined function '" ++ name ++ "'"
  | undefinedStructure name => "Undefined structure '" ++ name ++ "'"
  | undefinedMember structureName member =>
    "Structure '" ++ structureName ++ "' has no member '" ++ member ++ "'"
  | undefinedMethod type name => "Type " ++ type.text ++ " has no method '" ++ name ++ "'"
  | typeMismatch expected given => "Expected type " ++ expected.text ++ ", got " ++ given.text
  | notAVector type => "Cannot index value of non-vector type " ++ type.text
  | notAStructure type member =>
    "Cannot access member '" ++ member ++ "' of non-structure type " ++ type.text
  | numberOfArguments name expected given =>
    "Invalid number of arguments. '" ++ name ++ "' expects " ++ toString expected ++ ", got " ++
      toString given
  | noValue name => "'" ++ name ++ "' does not yield a value"
  | invalidOperands operator left right =>
    "Operator '" ++ operator.text ++ "' cannot be applied to " ++ left.text ++ " and " ++ right.text
  | invalidNegation type => "Operator 'not' cannot be applied to " ++ type.text
  | notWritable name => "Cannot write to '" ++ name ++ "'"
  | notScalar type => "Cannot print or read value of type " ++ type.text
  | notAnInstruction => "Expression has no effect. Only calls may be used as instructions"
  | resultInProcedure name => "Procedure '" ++ name ++ "' cannot return a value"
  | invalidCounter name => "Loop variable '" ++ name ++ "' must be a writable integral variable"
  | notConstant name =>
    "Constant initializer may only refer to previously declared constants, found '" ++ name ++ "'"
  | duplicate name => "Duplicate declaration of '" ++ name ++ "'"
  | shadowsDeclaration name =>
    "'" ++ name ++ "' shadows a structure, function or procedure of the same name"
  | missingEntry name => "Entry function '" ++ name ++ "' is not defined"
  | invalidEntrySignature name =>
    "Entry function must be declared as 'function " ++ name ++
      "(in args : vector of string) : integer'"
  | reservedProgramName name => "Program name '" ++ name ++ "' is reserved"

/-- The message, with the place if a text to find it in is given. -/
def message (d : Diagnostic) (text? : Option String) : String :=
  d.cause.message ++ ((text?.bind d.position.locate?).map Location.text).getD ""

/-- All messages, one a line. -/
def messages (ds : List Diagnostic) (text? : Option String) : String :=
  "\n".intercalate (ds.map (·.message text?))

end Diagnostic

end Primer

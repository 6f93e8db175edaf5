import Primer.Grammar.Declaration

/-!
Reading a whole text as a program or as an expression.
-/

namespace Primer

namespace Grammar

open Primer.Parser

def program : Parser Program := do
  blank
  expect "'program'" (word "program")
  let ident ← expect "program name" (afterSpace ident)
  expect "end of line after program name" lineEnd
  let declarations ← declarations
  expect "declaration" atEnd
  return .ofDeclarations ident declarations

/-- An expression with nothing but space around it. -/
def wholeExpression : Parser Expr := do
  let e ← spaced expression
  atEnd
  return e

end Grammar

/-- Reads the text. Where it misses, the error stands at the furthest mark. -/
def Parser.read (p : Parser α) (text : String) : Except ReadError α :=
  let start := Cursor.ofString text
  match p start with
  | .done a _ _ => .ok a
  | .miss mark => .error ⟨.noMatch, ⟨mark.getD start.bytes⟩⟩
  | .halt e => .error e

/-- Reads the text of a program. -/
def Program.parse (text : String) : Except ReadError Program :=
  Grammar.program.read text

/-- Reads the text of a single expression. -/
def Expr.parse (text : String) : Except ReadError Expr :=
  Grammar.wholeExpression.read text

namespace ReadError

def Cause.message : Cause → String
  | noMatch => "Syntax error"
  | expected item => "Expected " ++ item
  | numberOutOfRange => "Invalid numeric value"
  | nameTooLong => "Identifier exceeds " ++ toString maxNameLength ++ " characters"
  | undefinedStructure name => "Undefined structure '" ++ name ++ "'"

/-- The message with the place in the text that was read. -/
def message (e : ReadError) (text : String) : String :=
  e.cause.message ++ ((e.position.locate? text).map Location.text).getD ""

end ReadError

end Primer

import Primer.Grammar.Expr
import Primer.Instruction

/-!
The grammar of instructions. Each ends with its line; blocks end before the keyword that closes them.
-/

namespace Primer.Grammar

open Primer.Parser

/-- Instructions up to one of the words. -/
def block (instruction : Parser Instruction) (ends : List String) : Parser (List Instruction) :=
  many do
    notFollowedBy (ahead ends)
    instruction

def print : Parser Instruction := do
  let start ← here
  word "print"
  let exprs ← expect "expression after 'print'"
    (afterSpace (sepBy1 expression (spaced (char ','))))
  expect "end of line after print" lineEnd
  return .print start.position exprs

def read : Parser Instruction := do
  word "read"
  let target ← expect "value reference after 'read'" (afterSpace (path expression))
  expect "end of line after read" lineEnd
  return .read target

def result : Parser Instruction := do
  let start ← here
  word "return"
  let value ← expect "expression after 'return'" (afterSpace expression)
  expect "end of line after return" lineEnd
  return .result start.position value

/-- What follows the keyword of a conditional block. -/
def conditionalBlock (instruction : Parser Instruction) (keyword : String) :
    Parser (Expr × List Instruction) := do
  let condition ← expect ("condition after '" ++ keyword ++ "'") (afterSpace expression)
  expect "'then' after condition" (afterSpace (word "then"))
  expect "end of line after 'then'" lineEnd
  let body ← block instruction ["elsif", "else", "endif"]
  return (condition, body)

def elsif (instruction : Parser Instruction) : Parser (Alternatives → Alternatives) := do
  let start ← here
  word "elsif"
  let (condition, body) ← conditionalBlock instruction "elsif"
  return .elsif start.position condition body

def otherwise (instruction : Parser Instruction) : Parser Alternatives := do
  word "else"
  expect "end of line after 'else'" lineEnd
  return .otherwise (← block instruction ["endif"])

def branch (instruction : Parser Instruction) : Parser Instruction := do
  let start ← here
  word "if"
  let (condition, body) ← conditionalBlock instruction "if"
  let elsifs ← many (elsif instruction)
  let final ← maybe (otherwise instruction)
  expect "'endif'" (word "endif")
  expect "end of line after 'endif'" lineEnd
  return .branch start.position condition body (elsifs.foldr (· ·) (final.getD .none))

def whileLoop (instruction : Parser Instruction) : Parser Instruction := do
  let start ← here
  word "while"
  let condition ← expect "condition after 'while'" (afterSpace expression)
  expect "end of line after condition" lineEnd
  let body ← block instruction ["endwhile"]
  expect "'endwhile'" (word "endwhile")
  expect "end of line after 'endwhile'" lineEnd
  return .whileLoop start.position condition body

def untilLoop (instruction : Parser Instruction) : Parser Instruction := do
  let start ← here
  word "loop"
  expect "end of line after 'loop'" lineEnd
  let body ← block instruction ["until"]
  expect "'until'" (word "until")
  let condition ← expect "condition after 'until'" (afterSpace expression)
  expect "end of line after condition" lineEnd
  return .untilLoop start.position body condition

def forLoop (instruction : Parser Instruction) : Parser Instruction := do
  let start ← here
  word "for"
  let counter ← expect "loop variable after 'for'" (afterSpace ident)
  expect "'in' after loop variable" (afterSpace (word "in"))
  let first ← expect "range start after 'in'" (afterSpace expression)
  expect "'to' after range start" (afterSpace (word "to"))
  let last ← expect "range end after 'to'" (afterSpace expression)
  expect "'do' after range" (afterSpace (word "do"))
  expect "end of line after 'do'" lineEnd
  let body ← block instruction ["endfor"]
  expect "'endfor'" (word "endfor")
  expect "end of line after 'endfor'" lineEnd
  return .forLoop start.position counter first last body

def guarded (instruction : Parser Instruction) : Parser Instruction := do
  let start ← here
  word "on"
  let condition ← expect "condition after 'on'" (afterSpace expression)
  expect "'do' after condition" (afterSpace (word "do"))
  let body ← expect "instruction after 'do'" (afterSpace instruction)
  return .guarded start.position condition body

/-- The sign of an assignment, which is not that of a comparison. -/
def assignSign : Parser Unit := do
  discard <| char '='
  notFollowedBy (char '=')

def assign : Parser Instruction := do
  let start ← here
  let target ← path expression
  afterSpace assignSign
  let value ← expect "expression after '='" (afterSpace expression)
  expect "end of line after assignment" lineEnd
  return .assign start.position target value

def evaluate : Parser Instruction := do
  let e ← expression
  expect "end of line after expression" lineEnd
  return .evaluate e

def instruction : Parser Instruction :=
  fix fun instruction =>
    print <|> read <|> result <|> branch instruction <|> whileLoop instruction <|>
      untilLoop instruction <|> forLoop instruction <|> guarded instruction <|> assign <|> evaluate

end Primer.Grammar

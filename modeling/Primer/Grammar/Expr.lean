import Primer.Grammar.Chain
import Primer.Grammar.Literal

/-!
The grammar of expressions. The productions that contain expressions take the parser of those as an
argument; `expression` ties them together.
-/

namespace Primer.Grammar

open Primer.Parser

def callArguments (expression : Parser Expr) : Parser (List Expr) := do
  discard <| char '('
  let args ←
    (do discard <| lookAhead (afterSpace (char ')')); return []) <|>
      sepBy1 (spaced expression) (char ',')
  discard <| expect "')' after call arguments" (afterSpace (char ')'))
  return args

def index (expression : Parser Expr) : Parser Expr := do
  discard <| char '['
  let e ← expect "index expression" (spaced expression)
  discard <| expect "']' after index" (char ']')
  return e

def segment (expression : Parser Expr) : Parser Segment := do
  let ident ← ident
  let args ← maybe (callArguments expression)
  let indices ← many (index expression)
  return ⟨ident, args, indices⟩

def path (expression : Parser Expr) : Parser Path := do
  let first ← segment expression
  let others ← many do
    discard <| char '.'
    expect "member name after '.'" (segment expression)
  return others.foldl (fun p s => s.extend p) first.start

def value (expression : Parser Expr) : Parser Expr :=
  (do return .literal (← literal)) <|> (do return .path (← path expression))

/-- An operator; a division sign that starts a comment is none. -/
def operatorSign : Operator → Parser Unit
  | .divide => do
    text Operator.divide.text
    notFollowedBy (oneOf ['/', '*'])
  | .and => word Operator.and.text
  | .or => word Operator.or.text
  | o => text o.text

def operator : Parser Operator :=
  choice <| Operator.all.map fun o => do
    operatorSign o
    return o

def parenthesized (expression : Parser Expr) : Parser Expr := do
  discard <| char '('
  let e ← expect "expression after '('" (spaced expression)
  discard <| expect "closing ')'" (char ')')
  return e

def negation (operand : Parser Expr) : Parser Expr := do
  let start ← here
  word "not"
  let e ← expect "operand after 'not'" (afterSpace operand)
  return .not start.position e

def operand (expression : Parser Expr) : Parser Expr :=
  fix fun operand => negation operand <|> parenthesized expression <|> value expression

def link (expression : Parser Expr) : Parser Link := do
  space
  let start ← here
  let o ← operator
  let e ← expect "operand after operator" (afterSpace (operand expression))
  return ⟨start.position, o, e⟩

def expression : Parser Expr :=
  fix fun expression => do
    let first ← operand expression
    let links ← many (link expression)
    return Expr.ofChain first links

end Primer.Grammar

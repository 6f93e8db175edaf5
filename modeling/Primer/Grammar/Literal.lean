import Primer.Grammar.Lexical

/-!
Literals: strings in quotes, reals with a point and digits on both sides of it, whole numbers and the
two truth values.
-/

namespace Primer

/-- The literal for a whole number: an integer if it fits into 64 bits with a sign, or else a natural
number if it fits into 64 bits without one. -/
def Literal.ofInt? (value : Int) : Option Literal :=
  if leastInteger ≤ value ∧ value ≤ greatestInteger then some (integer value)
  else if 0 ≤ value ∧ value ≤ greatestNatural then some (natural value.toNat)
  else none

namespace Grammar

open Primer.Parser

/-- A character of a string as it is written: a plain one, or an escape of two. -/
def stringItem : Parser (List Char) :=
  (do
    let c ← noneOf ['\\', '"', '\r', '\n']
    return [c]) <|>
  do
    let backslash ← char '\\'
    let c ← oneOf ['"', '\\', 'n', 'r', 't', '0']
    return [backslash, c]

def string : Parser Literal := do
  discard <| char '"'
  expect "closing '\"'" do
    let items ← many stringItem
    discard <| char '"'
    return .string (String.ofList items.flatten)

/-- A sign; tells whether it is a minus. -/
def sign : Parser Bool := do
  let c ← maybe (oneOf ['+', '-'])
  return c == some '-'

def digits : Parser (List Char) := takeWhile1 Char.isDigit

def real : Parser Literal := do
  let negative ← sign
  let whole ← digits
  discard <| char '.'
  let fraction ← digits
  notFollowedBy (char '.')
  return .real ⟨negative, Binary64.ofDecimal (Decimal.ofParts whole fraction)⟩

def integer : Parser Literal := do
  let start ← here
  let negative ← sign
  let magnitude := ofDigits (← digits)
  match Literal.ofInt? (if negative then -(magnitude : Int) else magnitude) with
  | some literal => return literal
  | none => haltAt start .numberOutOfRange

def boolean : Parser Literal :=
  (do word "true"; return .boolean true) <|> (do word "false"; return .boolean false)

def literal : Parser Literal := string <|> real <|> integer <|> boolean

end Grammar

end Primer

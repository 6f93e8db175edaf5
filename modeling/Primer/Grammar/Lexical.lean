import Primer.Expr
import Primer.Grammar.Parser

/-!
Space, comments, line ends, keywords and names. Line ends separate instructions and so are no space.
-/

namespace Primer

/-- The words that cannot be names. -/
def keywords : List String :=
  ["program", "structure", "constant", "global", "local", "function", "procedure", "end",
    "if", "then", "elsif", "else", "endif", "while", "endwhile", "loop", "until",
    "for", "in", "to", "do", "endfor", "on", "print", "read", "return",
    "boolean", "integer", "natural", "real", "char", "string", "vector", "of",
    "true", "false", "and", "or", "not", "out", "inout"]

def isKeyword (word : String) : Bool := keywords.contains word

/-- The most characters that a name may have. -/
def maxNameLength : Nat := 64

def isNameStart (c : Char) : Bool := c.isAlpha || c == '_'

def isNameChar (c : Char) : Bool := c.isAlphanum || c == '_'

/-- Space that does not end a line. -/
def isInlineSpace (c : Char) : Bool := c == ' ' || c == '\t' || c == '\r'

def isSpace (c : Char) : Bool := c == ' ' || c == '\t' || c == '\r' || c == '\n'

namespace Grammar

open Primer.Parser

def lineComment : Parser Unit := do
  text "//"
  discard <| takeWhile fun c => c != '\r' && c != '\n'

def blockComment : Parser Unit := do
  text "/*"
  skipUntil "*/"
  text "*/"

/-- Space and block comments within a line. -/
def space : Parser Unit :=
  discard <| many (discard (takeWhile1 isInlineSpace) <|> blockComment)

/-- Space, line ends and comments. -/
def blank : Parser Unit :=
  discard <| many (discard (takeWhile1 isSpace) <|> lineComment <|> blockComment)

/-- The rest of a line, its end, and the blank lines that follow. -/
def lineEnd : Parser Unit := do
  space
  discard <| maybe lineComment
  discard (char '\n') <|> atEnd
  blank

/-- The place behind the space that follows. -/
def behindSpace (i : Cursor) : Cursor :=
  match space i with
  | .done _ rest _ => rest
  | _ => i

/-- Halts where the item is expected if the parser misses. -/
def expect (item : String) (p : Parser α) : Parser α := fun i =>
  match p i with
  | .miss _ => haltAt (behindSpace i) (.expected item) i
  | reply => reply

/-- The parser with space before it. -/
def afterSpace (p : Parser α) : Parser α := do
  space
  p

/-- The parser with space around it. -/
def spaced (p : Parser α) : Parser α := do
  space
  let a ← p
  space
  return a

/-- A word that is not the beginning of a longer one. -/
def word (w : String) : Parser Unit := do
  text w
  notFollowedBy (satisfy isNameChar)

/-- Whether one of the words stands here. -/
def ahead (words : List String) : Parser Unit :=
  lookAhead <| choice (words.map word)

/-- The characters of a name, which may be a keyword. -/
def label : Parser String := do
  let first ← satisfy isNameStart
  let others ← takeWhile isNameChar
  return String.ofList (first :: others)

/-- A name. -/
def ident : Parser Ident := do
  let start ← here
  let name ← label
  if isKeyword name then missAt start
  else if maxNameLength < name.length then haltAt start .nameTooLong
  else return ⟨start.position, name⟩

end Grammar

end Primer

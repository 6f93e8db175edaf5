import Primer.Text.Cursor

/-!
Places in a text. A `Position` counts the bytes from a place to the end of the text it belongs to; a
`Location` is the line and column a reader sees. Lines end at a line feed, at a carriage return, or
at the two together, and columns count characters.
-/

namespace Primer

/-- A place in a text, given by the number of bytes from there to the end. The number has no bound here. One
of 32 bits holds it as long as the text has fewer than `2 ^ 32` bytes, and in a longer text it would not name
the place. -/
structure Position where
  toEnd : Nat
deriving DecidableEq, Repr, Inhabited

/-- A line and a column, both counted from one. Neither has a bound here; in a text of fewer than
`2 ^ 32 - 1` bytes both fit in 32 bits. -/
structure Location where
  line : Nat
  column : Nat
deriving DecidableEq, Repr

def Cursor.position (i : Cursor) : Position := ⟨i.bytes⟩

namespace Location

def start : Location := ⟨1, 1⟩

/-- The location reached by reading the characters from `l`. -/
def after (l : Location) : List Char → Location
  | [] => l
  | '\r' :: '\n' :: cs => after ⟨l.line + 1, 1⟩ cs
  | c :: cs =>
    if c = '\n' ∨ c = '\r' then after ⟨l.line + 1, 1⟩ cs else after ⟨l.line, l.column + 1⟩ cs

/-- How a location is named at the end of a message. -/
def text (l : Location) : String :=
  " at line " ++ toString l.line ++ ", column " ++ toString l.column

end Location

/-- The characters that fill the first `n` bytes, or all of them if there are fewer bytes. There are
none such if the `n`-th byte ends within a character. -/
def charsWithin? : Nat → List Char → Option (List Char)
  | 0, _ => some []
  | _, [] => some []
  | n, c :: cs =>
    if c.utf8Size ≤ n then (charsWithin? (n - c.utf8Size) cs).map (c :: ·) else none

/-- Line and column of a position in the text. A position further from the end than the text is long
is its start; one within a character has no location. -/
def Position.locate? (p : Position) (text : String) : Option Location :=
  (charsWithin? (byteCount text.toList - p.toEnd) text.toList).map Location.start.after

end Primer

import Primer.Text.Location

/-!
Parsers with ordered choice. A parser either reads something, or misses, so that an alternative may be
tried at the same place, or halts with an error that ends the reading. Every match that fails leaves a
mark at the place where it was tried, also one whose failure another alternative or a look-ahead makes
up for; a reply carries the furthest of them.
-/

namespace Primer

/-- Why a text cannot be read. -/
inductive ReadError.Cause where
  /-- Nothing that may stand here was found. -/
  | noMatch
  /-- A construct was begun and lacks a part. -/
  | expected (item : String)
  | numberOutOfRange
  | nameTooLong
  | undefinedStructure (name : String)
deriving DecidableEq, Repr

/-- A cause and the place where it was found. -/
structure ReadError where
  cause : ReadError.Cause
  position : Position
deriving DecidableEq, Repr

/-- The furthest place where a match failed, as the number of bytes that follow it. -/
abbrev Mark := Option Nat

/-- The further one of two marks. -/
def Mark.join : Mark → Mark → Mark := Option.merge min

/-- What a parser answers. -/
inductive Reply (α : Type) where
  | done (value : α) (rest : Cursor) (mark : Mark)
  | miss (mark : Mark)
  | halt (error : ReadError)

/-- The reply of a parser that ran after one which left the mark. -/
def Reply.after (mark : Mark) : Reply α → Reply α
  | done value rest m => done value rest (mark.join m)
  | miss m => miss (mark.join m)
  | halt e => halt e

def Parser (α : Type) := Cursor → Reply α

namespace Parser

protected def pure (a : α) : Parser α := fun i => .done a i none

/-- Runs `p`, and then what `f` makes of its value where `p` ended. -/
protected def bind (p : Parser α) (f : α → Parser β) : Parser β := fun i =>
  match p i with
  | .done a rest mark => (f a rest).after mark
  | .miss mark => .miss mark
  | .halt e => .halt e

instance : Monad Parser where
  pure := Parser.pure
  bind := Parser.bind

/-- Runs `q` where `p` was tried if `p` misses. -/
protected def orElse (p : Parser α) (q : Unit → Parser α) : Parser α := fun i =>
  match p i with
  | .miss mark => (q () i).after mark
  | reply => reply

instance : OrElse (Parser α) := ⟨Parser.orElse⟩

/-- The place that has been reached. -/
def here : Parser Cursor := fun i => .done i i none

/-- Misses, with a mark at the given place. -/
def missAt (i : Cursor) : Parser α := fun _ => .miss (some i.bytes)

/-- Halts, with an error at the given place. -/
def haltAt (i : Cursor) (cause : ReadError.Cause) : Parser α := fun _ => .halt ⟨cause, i.position⟩

/-- Reads one character with the property. -/
def satisfy (p : Char → Bool) : Parser Char := fun i =>
  match i.chars with
  | c :: _ => if p c then .done c (i.skip 1) none else missAt i i
  | [] => missAt i i

def char (c : Char) : Parser Char := satisfy (· == c)

/-- Reads one of the characters. -/
def oneOf (cs : List Char) : Parser Char := satisfy cs.contains

/-- Reads one character that is none of these. -/
def noneOf (cs : List Char) : Parser Char := satisfy fun c => !cs.contains c

/-- Reads exactly this text. -/
def text (s : String) : Parser Unit := fun i =>
  if s.toList.isPrefixOf i.chars then .done () (i.skip s.toList.length) none else missAt i i

/-- Reads the characters with the property, as many as there are. -/
def takeWhile (p : Char → Bool) : Parser (List Char) := fun i =>
  let taken := i.chars.takeWhile p
  .done taken (i.skip taken.length) none

/-- Reads the characters with the property, at least one. -/
def takeWhile1 (p : Char → Bool) : Parser (List Char) := fun i =>
  let taken := i.chars.takeWhile p
  if taken.isEmpty then missAt i i else .done taken (i.skip taken.length) none

/-- Moves to the first place where the text stands. -/
def skipUntil (s : String) : Parser Unit := fun i =>
  match firstIndex? s.toList i.chars with
  | some n => .done () (i.skip n) none
  | none => missAt i i

/-- Succeeds where nothing remains. -/
def atEnd : Parser Unit := fun i =>
  if i.chars.isEmpty then .done () i none else missAt i i

/-- Runs the parser and returns to where it started. -/
def lookAhead (p : Parser α) : Parser α := fun i =>
  match p i with
  | .done a _ mark => .done a i mark
  | reply => reply

/-- Succeeds where the parser misses, and reads nothing. -/
def notFollowedBy (p : Parser α) : Parser Unit := fun i =>
  match p i with
  | .done _ _ mark => (missAt i i).after mark
  | .miss mark => .done () i mark
  | .halt e => .halt e

/-- Runs the parser if it does not miss. -/
def maybe (p : Parser α) : Parser (Option α) := fun i =>
  match p i with
  | .done a rest mark => .done (some a) rest mark
  | .miss mark => .done none i mark
  | .halt e => .halt e

/-- Tries the parsers in turn. -/
def choice : List (Parser α) → Parser α
  | [] => fun i => missAt i i
  | p :: ps => p <|> choice ps

/-- At most `n` items, each read by a parser that knows the earlier ones, latest first. -/
def manyWithin (p : List α → Parser α) : Nat → List α → Parser (List α)
  | 0, _, i => missAt i i
  | n + 1, earlier, i =>
    match p earlier i with
    | .done a rest mark =>
      if rest.bytes = i.bytes then (missAt i i).after mark
      else
        match manyWithin p n (a :: earlier) rest with
        | .done as rest m => .done (a :: as) rest (mark.join m)
        | .miss m => .miss (mark.join m)
        | .halt e => .halt e
    | .miss mark => .done [] i mark
    | .halt e => .halt e

/-- Items as long as there are any, each read by a parser that knows the earlier ones, latest first.
An item takes a byte at least, so that their number is bounded by what remains; one that takes nothing
makes the whole miss. -/
def manyWith (p : List α → Parser α) : Parser (List α) := fun i =>
  manyWithin p (i.bytes + 1) [] i

/-- Items as long as there are any. -/
def many (p : Parser α) : Parser (List α) := manyWith fun _ => p

/-- One item or more with separators between them. A separator that no item follows is not read. -/
def sepBy1 (p : Parser α) (separator : Parser β) : Parser (List α) := do
  let first ← p
  let others ← many (separator >>= fun _ => p)
  return first :: others

/-- The parser that unfolds `f`, at most `n` times deep. -/
def fixWithin (f : Parser α → Parser α) : Nat → Cursor → Reply α
  | 0, i => missAt i i
  | n + 1, i => f (fixWithin f n) i

/-- The parser that refers to itself as `f` says. It has to read something before it does, so that the
depth is bounded by what remains. -/
def fix (f : Parser α → Parser α) : Parser α := fun i => fixWithin f (i.bytes + 1) i

end Parser

end Primer

/-!
Text laid out in lines. A script of steps is written on a page, which indents every line to the depth
at which it begins and passes what it writes on to a sink. A sink may refuse a part of what it is
given; nothing is written after that.
-/

namespace Primer

/-- Something that takes text. -/
class Sink (σ : Type) where
  /-- Takes as much of the text as it can, and tells whether that is all of it. -/
  put : σ → String → σ × Bool

/-- A text takes everything. -/
instance : Sink String where
  put s text := (s ++ text, true)

/-- A buffer for a limited number of bytes. -/
structure Buffer where
  capacity : Nat
  stored : ByteArray

namespace Buffer

def empty (capacity : Nat) : Buffer := ⟨capacity, ByteArray.empty⟩

/-- A buffer takes the bytes that still fit. -/
def put (b : Buffer) (text : String) : Buffer × Bool :=
  let room := b.capacity - b.stored.size
  ({ b with stored := b.stored ++ text.toUTF8.extract 0 room }, decide (text.utf8ByteSize ≤ room))

end Buffer

instance : Sink Buffer := ⟨Buffer.put⟩

/-- A sink with the state of the line that is being written. -/
structure Page (σ : Type) where
  sink : σ
  /-- The number of spaces for each level of depth. The margin of a line has as many as the product of this
  and the depth. Neither has a bound here; machine words give the same margins as long as that product fits
  in one. -/
  indentWidth : Nat
  depth : Nat := 0
  /-- Whether nothing has been written on the line. -/
  atLineStart : Bool := true

namespace Page

variable [Sink σ]

/-- Passes the text on. -/
def put (page : Page σ) (text : String) : Page σ × Bool :=
  let (sink, fits) := Sink.put page.sink text
  ({ page with sink := sink }, fits)

/-- Indents the line if it is empty. -/
def margin (page : Page σ) : Page σ × Bool :=
  if page.atLineStart then
    let (page, fits) := page.put ("".pushn ' ' (page.depth * page.indentWidth))
    ({ page with atLineStart := !fits }, fits)
  else (page, true)

/-- Writes text on the line. Writing no text leaves the line as it is. -/
def write (page : Page σ) (text : String) : Page σ × Bool :=
  if text.isEmpty then (page, true)
  else
    let (page, fits) := page.margin
    if fits then page.put text else (page, false)

/-- Ends the line. -/
def newline (page : Page σ) : Page σ × Bool :=
  { page with atLineStart := true }.put "\n"

def indent (page : Page σ) : Page σ := { page with depth := page.depth + 1 }

def dedent (page : Page σ) : Page σ := { page with depth := page.depth - 1 }

end Page

/-- One step of writing. -/
inductive Step where
  | write (text : String)
  | newline
  | indent
  | dedent
  /-- Steps one level deeper. -/
  | indented (steps : List Step)

namespace Step

/-- A whole line. -/
def line (text : String) : List Step := [write text, newline]

mutual
/-- Carries out a step. Tells whether the sink took everything. -/
def run [Sink σ] : Step → Page σ → Page σ × Bool
  | write text, page => page.write text
  | newline, page => page.newline
  | indent, page => (page.indent, true)
  | dedent, page => (page.dedent, true)
  | indented steps, page =>
    let (page, fits) := runAll steps page.indent
    (page.dedent, fits)

/-- Carries out the steps up to the first that does not fit. -/
def runAll [Sink σ] : List Step → Page σ → Page σ × Bool
  | [], page => (page, true)
  | step :: steps, page =>
    let (page, fits) := step.run page
    if fits then runAll steps page else (page, false)
end

/-- The text that the steps write. -/
def render (steps : List Step) (indentWidth : Nat) : String :=
  (runAll steps { sink := "", indentWidth : Page String }).1.sink

/-- Writes the text of the steps into a buffer of that capacity. Tells whether all of it fits. -/
def renderWithin (steps : List Step) (indentWidth capacity : Nat) : Buffer × Bool :=
  let page : Page Buffer := { sink := Buffer.empty capacity, indentWidth }
  let (page, fits) := runAll steps page
  (page.sink, fits)

end Step

end Primer

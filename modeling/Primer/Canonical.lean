import Primer.Layout
import Primer.Program

/-!
The canonical text of a program: one blank, one line and one level of four spaces wherever the
language leaves a choice, and every operand that is not a single value in parentheses.
-/

namespace Primer

/-- The operand's text, in parentheses unless the operand is a single value. -/
def Expr.parenthesize (e : Expr) (text : String) : String :=
  if e.isLeaf then text else "(" ++ text ++ ")"

/-- The spaces for a level of depth unless something else is asked for. -/
def defaultIndentWidth : Nat := 4

namespace Canonical

def literal : Literal → String
  | .string text => "\"" ++ text ++ "\""
  | .real value => value.literalText
  | .integer value => toString value
  | .natural value => toString value
  | .boolean value => toString value

mutual
def expr : Expr → String
  | .literal value => literal value
  | .path p => path p
  | .not _ e => "not " ++ e.parenthesize (expr e)
  | .binary _ o left right =>
    left.parenthesize (expr left) ++ " " ++ o.text ++ " " ++ right.parenthesize (expr right)

def path : Path → String
  | .var x => x.name
  | .call f args => f.name ++ "(" ++ ", ".intercalate (exprs args) ++ ")"
  | .index base i => path base ++ "[" ++ expr i ++ "]"
  | .member base x => path base ++ "." ++ x.name
  | .method base m args => path base ++ "." ++ m.name ++ "(" ++ ", ".intercalate (exprs args) ++ ")"

def exprs : List Expr → List String
  | [] => []
  | e :: es => expr e :: exprs es
end

def operand (e : Expr) : String := e.parenthesize (expr e)

def symbol (s : Symbol) : String := s.name ++ " : " ++ s.type.text

mutual
def instruction : Instruction → List Step
  | .print _ es => Step.line ("print " ++ ", ".intercalate (exprs es))
  | .read target => Step.line ("read " ++ path target)
  | .result _ value => Step.line ("return " ++ expr value)
  | .evaluate e => Step.line (expr e)
  | .assign _ target value => Step.line (path target ++ " = " ++ expr value)
  | .branch _ condition body otherwise =>
    Step.line ("if " ++ expr condition ++ " then") ++ [.indented (block body)] ++
      alternatives otherwise ++ Step.line "endif"
  | .whileLoop _ condition body =>
    Step.line ("while " ++ expr condition) ++ [.indented (block body)] ++ Step.line "endwhile"
  | .untilLoop _ body condition =>
    Step.line "loop" ++ [.indented (block body)] ++ Step.line ("until " ++ expr condition)
  | .forLoop _ counter first last body =>
    Step.line ("for " ++ counter.name ++ " in " ++ expr first ++ " to " ++ expr last ++ " do") ++
      [.indented (block body)] ++ Step.line "endfor"
  -- the instruction goes on on the same line
  | .guarded _ condition i => .write ("on " ++ expr condition ++ " do ") :: instruction i

def alternatives : Alternatives → List Step
  | .none => []
  | .otherwise body => Step.line "else" ++ [.indented (block body)]
  | .elsif _ condition body next =>
    Step.line ("elsif " ++ expr condition ++ " then") ++ [.indented (block body)] ++
      alternatives next

def block : List Instruction → List Step
  | [] => []
  | i :: is => instruction i ++ block is
end

def parameter (p : Parameter) : String := p.mode.text ++ " " ++ symbol p.symbol

/-- The first line of a routine. -/
def signature (r : Routine) : String :=
  let params := "(" ++ ", ".intercalate (r.params.map parameter) ++ ")"
  match r.result with
  | some type => "function " ++ r.name ++ params ++ " : " ++ type.text
  | none => "procedure " ++ r.name ++ params

def routine (r : Routine) : List Step :=
  .newline :: Step.line (signature r) ++
    [.indented (r.locals.flatMap (fun s => Step.line ("local " ++ symbol s)) ++ block r.body)] ++
    Step.line "end"

def structureDeclaration (s : Structure) : List Step :=
  .newline :: Step.line ("structure " ++ s.name) ++
    [.indented (s.members.flatMap fun m => Step.line (symbol m))] ++ Step.line "end"

/-- A blank line before the constants and globals if there are any. -/
def gap (p : Program) : List Step :=
  if p.constants.isEmpty && p.globals.isEmpty then [] else [.newline]

def program (p : Program) : List Step :=
  Step.line ("program " ++ p.name) ++ p.structures.flatMap structureDeclaration ++ gap p ++
    p.constants.flatMap (fun c =>
      Step.line ("constant " ++ symbol c.symbol ++ " = " ++ expr c.value)) ++
    p.globals.flatMap (fun s => Step.line ("global " ++ symbol s)) ++
    p.routines.flatMap routine

end Canonical

/-- The canonical text of a program. -/
def Program.canonicalText (p : Program) : String :=
  Step.render (Canonical.program p) defaultIndentWidth

/-- Writes the canonical text into a buffer of that capacity. Tells whether all of it fits. -/
def Program.writeCanonical (p : Program) (capacity : Nat) : Buffer × Bool :=
  Step.renderWithin (Canonical.program p) defaultIndentWidth capacity

end Primer

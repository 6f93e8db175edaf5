import Primer.Instruction
import Primer.Ty

/-!
Programs: a name and five collections of declarations, each in the order of the text. A look-up by
name finds the first item of that name.
-/

namespace Primer

/-- A named and typed item: a parameter, local, member, global or constant. -/
structure Symbol where
  ident : Ident
  type : Ty
deriving DecidableEq, Repr

def Symbol.name (s : Symbol) : String := s.ident.name

structure Structure where
  ident : Ident
  members : List Symbol
deriving DecidableEq, Repr

/-- How an argument is handed to a routine. -/
inductive Mode where
  | input
  | output
  | both
deriving DecidableEq, Repr

namespace Mode

/-- All modes. One whose keyword starts another's stands after it. -/
def all : List Mode := [both, input, output]

def text : Mode → String
  | input => "in"
  | output => "out"
  | both => "inout"

def ofKeyword? (word : String) : Option Mode :=
  all.find? (·.text == word)

/-- Whether the routine may write the argument. -/
def isWritable (m : Mode) : Bool := m != input

end Mode

structure Parameter where
  mode : Mode
  symbol : Symbol
deriving DecidableEq, Repr

/-- A function, or a procedure if it has no result type. -/
structure Routine where
  ident : Ident
  params : List Parameter
  locals : List Symbol
  body : List Instruction
  result : Option Ty
deriving DecidableEq

structure Constant where
  symbol : Symbol
  value : Expr
deriving DecidableEq

structure Program where
  ident : Ident
  structures : List Structure
  constants : List Constant
  globals : List Symbol
  functions : List Routine
  procedures : List Routine
deriving DecidableEq

/-- A declaration of a program. -/
inductive Declaration where
  | ofStructure (s : Structure)
  | ofConstant (c : Constant)
  | ofGlobal (s : Symbol)
  | ofRoutine (r : Routine)

namespace Structure

def name (s : Structure) : String := s.ident.name

def member? (s : Structure) (name : String) : Option Symbol :=
  s.members.find? (·.name == name)

end Structure

def Parameter.name (p : Parameter) : String := p.symbol.name

def Constant.name (c : Constant) : String := c.symbol.name

namespace Routine

def name (r : Routine) : String := r.ident.name

def isProcedure (r : Routine) : Bool := r.result.isNone

def param? (r : Routine) (name : String) : Option Parameter :=
  r.params.find? (·.name == name)

def local? (r : Routine) (name : String) : Option Symbol :=
  r.locals.find? (·.name == name)

end Routine

namespace Program

def name (p : Program) : String := p.ident.name

def structure? (p : Program) (name : String) : Option Structure :=
  p.structures.find? (·.name == name)

def constant? (p : Program) (name : String) : Option Constant :=
  p.constants.find? (·.name == name)

def global? (p : Program) (name : String) : Option Symbol :=
  p.globals.find? (·.name == name)

def function? (p : Program) (name : String) : Option Routine :=
  p.functions.find? (·.name == name)

def procedure? (p : Program) (name : String) : Option Routine :=
  p.procedures.find? (·.name == name)

/-- The function or else the procedure of that name. -/
def routine? (p : Program) (name : String) : Option Routine :=
  p.function? name <|> p.procedure? name

def routines (p : Program) : List Routine := p.functions ++ p.procedures

/-- The function that shares the name of the program. -/
def entry? (p : Program) : Option Routine := p.function? p.name

def empty (ident : Ident) : Program := ⟨ident, [], [], [], [], []⟩

/-- Adds a declaration at the end of its collection. -/
def declare (p : Program) : Declaration → Program
  | .ofStructure s => { p with structures := p.structures ++ [s] }
  | .ofConstant c => { p with constants := p.constants ++ [c] }
  | .ofGlobal s => { p with globals := p.globals ++ [s] }
  | .ofRoutine r =>
    if r.isProcedure then { p with procedures := p.procedures ++ [r] }
    else { p with functions := p.functions ++ [r] }

/-- The program of that name with those declarations. -/
def ofDeclarations (ident : Ident) (declarations : List Declaration) : Program :=
  declarations.foldl declare (empty ident)

end Program

end Primer

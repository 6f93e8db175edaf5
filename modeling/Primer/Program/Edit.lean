import Primer.Program

/-!
Changes to a program as a whole: joining two programs, and removing, turning round or retyping what
one declares.
-/

namespace Primer

/-- One of the five collections of a program. -/
inductive Collection where
  | structures
  | constants
  | globals
  | functions
  | procedures
deriving DecidableEq, Repr

namespace Program

/-- The sizes of the collections. -/
def counts (p : Program) : List Nat :=
  [p.structures.length, p.constants.length, p.globals.length, p.functions.length,
    p.procedures.length]

/-- Adds the declarations of `q` after those of `p`. -/
def append (p q : Program) : Program where
  ident := p.ident
  structures := p.structures ++ q.structures
  constants := p.constants ++ q.constants
  globals := p.globals ++ q.globals
  functions := p.functions ++ q.functions
  procedures := p.procedures ++ q.procedures

def rename (p : Program) (name : String) : Program :=
  { p with ident := { p.ident with name := name } }

/-- Turns one collection round. -/
def reverse (p : Program) : Collection → Program
  | .structures => { p with structures := p.structures.reverse }
  | .constants => { p with constants := p.constants.reverse }
  | .globals => { p with globals := p.globals.reverse }
  | .functions => { p with functions := p.functions.reverse }
  | .procedures => { p with procedures := p.procedures.reverse }

/-- Whether the collection has an item of that name. -/
def declares (p : Program) (name : String) : Collection → Bool
  | .structures => (p.structure? name).isSome
  | .constants => (p.constant? name).isSome
  | .globals => (p.global? name).isSome
  | .functions => (p.function? name).isSome
  | .procedures => (p.procedure? name).isSome

/-- Removes the first item of that name from the collection. -/
def drop (p : Program) (name : String) : Collection → Program
  | .structures => { p with structures := p.structures.eraseP (·.name == name) }
  | .constants => { p with constants := p.constants.eraseP (·.name == name) }
  | .globals => { p with globals := p.globals.eraseP (·.name == name) }
  | .functions => { p with functions := p.functions.eraseP (·.name == name) }
  | .procedures => { p with procedures := p.procedures.eraseP (·.name == name) }

/-- Gives the first routine of that name another result type. -/
def retypeFirst (name : String) (result : Option Ty) : List Routine → List Routine
  | [] => []
  | r :: rs =>
    if r.name == name then { r with result := result } :: rs
    else r :: retypeFirst name result rs

/-- Gives the function, or else the procedure, of that name another result type. It stays in its
collection. -/
def retype (p : Program) (name : String) (result : Option Ty) : Program :=
  if (p.function? name).isSome then { p with functions := retypeFirst name result p.functions }
  else { p with procedures := retypeFirst name result p.procedures }

end Program

end Primer

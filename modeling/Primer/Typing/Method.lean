import Primer.Ty

/-!
The methods of vectors.
-/

namespace Primer

namespace Method

/-- What a method takes. -/
inductive Param where
  /-- A place within the vector, of either whole number type. -/
  | index
  /-- A value of the element type. -/
  | element
deriving DecidableEq, Repr

/-- What a method gives. -/
inductive Yield where
  | nothing
  | element
  | size
deriving DecidableEq, Repr

end Method

structure Method where
  name : String
  params : List Method.Param
  yield : Method.Yield
  /-- Whether the method changes the vector. -/
  mutates : Bool
deriving DecidableEq, Repr

namespace Method

def all : List Method :=
  [⟨"push", [.element], .nothing, true⟩,
    ⟨"insert", [.index, .element], .nothing, true⟩,
    ⟨"remove", [.index], .nothing, true⟩,
    ⟨"pop", [], .element, true⟩,
    ⟨"clear", [], .nothing, true⟩,
    ⟨"size", [], .size, false⟩,
    ⟨"at", [.index], .element, false⟩]

def ofName? (name : String) : Option Method :=
  all.find? (·.name == name)

/-- The type of the result on a vector with that element type. -/
def result? (m : Method) (element : Ty) : Option Ty :=
  match m.yield with
  | .nothing => none
  | .element => some element
  | .size => some .natural

end Method

end Primer

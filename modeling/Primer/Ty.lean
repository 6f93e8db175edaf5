/-!
The types of the language: six scalar types, vectors, and the structures a program declares.
-/

namespace Primer

/-- The type of a symbol or an expression. -/
inductive Ty where
  | boolean
  | integer
  | natural
  | real
  | char
  | string
  | vector (element : Ty)
  /-- A structure that the program declares. -/
  | named (name : String)
deriving DecidableEq, Repr

namespace Ty

/-- The types named by a single keyword. -/
def scalars : List Ty := [boolean, integer, natural, real, char, string]

/-- How a type is written. -/
def text : Ty → String
  | boolean => "boolean"
  | integer => "integer"
  | natural => "natural"
  | real => "real"
  | char => "char"
  | string => "string"
  | vector element => "vector of " ++ element.text
  | named name => name

/-- The scalar type that the keyword names. -/
def ofKeyword? (word : String) : Option Ty :=
  scalars.find? (·.text == word)

/-- The element type of a vector. -/
def element? : Ty → Option Ty
  | vector element => some element
  | _ => none

/-- The name of the structure that the type refers to. -/
def structureName? : Ty → Option String
  | named name => some name
  | _ => none

def isIntegral : Ty → Bool
  | integer | natural => true
  | _ => false

def isNumeric : Ty → Bool
  | integer | natural | real => true
  | _ => false

def isTextual : Ty → Bool
  | string | char => true
  | _ => false

/-- Whether values of the type can be printed and read. -/
def isScalar : Ty → Bool
  | vector _ | named _ => false
  | _ => true

end Ty

end Primer

import Primer.Operator
import Primer.Ty

/-!
Which values a location accepts, and the types that operators work on and give.
-/

namespace Primer

namespace Ty

/-- Whether a location of the type takes a value of the type `given`: one of the same type, a whole
number of the other kind, a whole number for a real, and a character for a string. -/
def accepts (target given : Ty) : Bool :=
  target == given ||
    match target, given with
    | integer, natural | natural, integer | string, char => true
    | real, given => given.isIntegral
    | _, _ => false

/-- The wider one of two numeric types. -/
def wider (left right : Ty) : Ty :=
  if left == real || right == real then real
  else if left == integer || right == integer then integer
  else natural

end Ty

namespace Operator

/-- The type of the result for operands of the given types, if the operator takes them. -/
def result? (o : Operator) (left right : Ty) : Option Ty :=
  let numeric := left.isNumeric && right.isNumeric
  if o.isBoolean then
    if left == .boolean && right == .boolean then some .boolean else none
  else if o.isEquality then
    if numeric || (left == right && left.isScalar) then some .boolean else none
  else if o.isOrdering then
    if numeric || (left == right && left.isTextual) then some .boolean else none
  else if o == remainder then
    if left.isIntegral && right.isIntegral then some (left.wider right) else none
  else if numeric then some (left.wider right)
  else if o == add && left.isTextual && right.isTextual && (left == .string || right == .string) then
    some .string
  else none

/-- The type that numeric operands are converted to before the operator is applied. -/
def operandType? (o : Operator) (left right : Ty) : Option Ty :=
  if !o.isBoolean && left.isNumeric && right.isNumeric then some (left.wider right) else none

end Operator

/-- The type of a negated operand, if it can be negated. -/
def Ty.negated? (t : Ty) : Option Ty :=
  if t == .boolean then some .boolean else none

end Primer

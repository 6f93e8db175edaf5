import Primer.Canonical
import Primer.Target.Name

/-!
Expressions in C++. An operand that is not a single value stands in parentheses, so no grouping hangs
on the precedence of C++. Where C++ would convert a signed operand to unsigned, the unsigned one is
converted explicitly.
-/

namespace Primer.Target

def literal : Literal → String
  | .string text => "\"" ++ text ++ "\"s"
  | .real value => value.literalText
  | .integer value =>
    -- the digits of the least integer alone are no number of its type
    if value = leastInteger then "(" ++ toString (value + 1) ++ "LL - 1)" else toString value ++ "LL"
  | .natural value => toString value ++ "ULL"
  | .boolean value => toString value

def operator : Operator → String
  | .and => "&&"
  | .or => "||"
  | o => o.text

/-- The type that a natural operand is converted to for an operation on the type `common`. -/
def conversion? (type? common : Option Ty) : Option String :=
  match type?, common with
  | some .natural, some .integer => some (type .integer)
  | some .natural, some .real => some (type .real)
  | _, _ => none

/-- The type that both operands are converted to, if both have types and the operator converts. -/
def commonType? (o : Operator) (left right : Option Ty) : Option Ty := do
  o.operandType? (← left) (← right)

def cast (type text : String) : String := "static_cast<" ++ type ++ ">(" ++ text ++ ")"

/-- The text of an operand, converted to the type of the operation where needed. -/
def converted (e : Expr) (text : String) (type? common : Option Ty) : String :=
  match conversion? type? common with
  | some target => cast target text
  | none => e.parenthesize text

mutual
def expr (cx : Scope) : Expr → String
  | .literal value => literal value
  | .path p => path cx p
  | .not _ e => "!" ++ e.parenthesize (expr cx e)
  | .binary _ o left right =>
    let l := (cx.typeOf left).toOption
    let r := (cx.typeOf right).toOption
    let common := commonType? o l r
    converted left (expr cx left) l common ++ " " ++ operator o ++ " " ++
      converted right (expr cx right) r common

/-- A path. A method call becomes a call of its helper on all that stands before it. -/
def path (cx : Scope) : Path → String
  | .var x => name x.name
  | .call f args => name f.name ++ "(" ++ ", ".intercalate (exprs cx args) ++ ")"
  | .index base i => path cx base ++ ".at(" ++ expr cx i ++ ")"
  | .member base x => path cx base ++ "." ++ name x.name
  | .method base m args =>
    helperStem ++ m.name ++ "(" ++ ", ".intercalate (path cx base :: exprs cx args) ++ ")"

def exprs (cx : Scope) : List Expr → List String
  | [] => []
  | e :: es => expr cx e :: exprs cx es
end

def operand (cx : Scope) (e : Expr) : String := e.parenthesize (expr cx e)

end Primer.Target

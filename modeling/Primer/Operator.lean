/-!
The binary operators, their spelling, and how tightly they bind.
-/

namespace Primer

/-- An operator between two operands. -/
inductive Operator where
  | add
  | subtract
  | multiply
  | divide
  | remainder
  | less
  | greater
  | lessOrEqual
  | greaterOrEqual
  | equal
  | notEqual
  | and
  | or
deriving DecidableEq, Repr

namespace Operator

/-- All operators. One whose spelling starts another's stands after it. -/
def all : List Operator :=
  [lessOrEqual, greaterOrEqual, equal, notEqual, less, greater, add, subtract, multiply, divide,
    remainder, and, or]

/-- How an operator is written. -/
def text : Operator → String
  | add => "+"
  | subtract => "-"
  | multiply => "*"
  | divide => "/"
  | remainder => "%"
  | less => "<"
  | greater => ">"
  | lessOrEqual => "<="
  | greaterOrEqual => ">="
  | equal => "=="
  | notEqual => "!="
  | and => "and"
  | or => "or"

def ofText? (word : String) : Option Operator :=
  all.find? (·.text == word)

/-- Operators of lower weight bind tighter; those of equal weight group from the left. -/
def weight : Operator → Nat
  | multiply | divide | remainder => 3
  | add | subtract => 4
  | less | greater | lessOrEqual | greaterOrEqual => 6
  | equal | notEqual => 7
  | and => 11
  | or => 12

def isArithmetic : Operator → Bool
  | add | subtract | multiply | divide | remainder => true
  | _ => false

def isOrdering : Operator → Bool
  | less | greater | lessOrEqual | greaterOrEqual => true
  | _ => false

def isEquality : Operator → Bool
  | equal | notEqual => true
  | _ => false

def isBoolean : Operator → Bool
  | and | or => true
  | _ => false

end Operator

end Primer

import Primer.Expr

/-!
Chains of operands with operators between them, and the trees they stand for. The operators that still
wait for their right operand form a stack, the tightest on top; an operator first completes those on
the stack that bind no less tightly than it does. What the trees are made of and how heavy the operators
are is left to a `Joining`.
-/

namespace Primer

/-- An operator and the operand that follows it. -/
structure Link where
  position : Position
  operator : Operator
  operand : Expr

/-- How a chain is joined into one tree: the tree of an operand, the tree of an operator between two
others, and the weights by which the operators compete for what stands between them. -/
structure Joining (α : Type) where
  operand : Expr → α
  node : Position → Operator → α → α → α
  weight : Operator → Nat

/-- An operator and the tree to its left. -/
structure Pending (α : Type) where
  left : α
  position : Position
  operator : Operator

namespace Joining

variable (j : Joining α)

def complete (p : Pending α) (right : α) : α := j.node p.position p.operator p.left right

/-- Completes the pending operators of at most that weight. -/
def reduce (limit : Nat) : List (Pending α) → α → List (Pending α) × α
  | [], t => ([], t)
  | p :: ps, t => if j.weight p.operator ≤ limit then reduce limit ps (j.complete p t) else (p :: ps, t)

/-- Completes all pending operators. -/
def reduceAll (pending : List (Pending α)) (t : α) : α :=
  pending.foldl (fun t p => j.complete p t) t

/-- The tree of a chain that goes on from the tree `t` under the pending operators. -/
def ofLinks (pending : List (Pending α)) (t : α) : List Link → α
  | [] => j.reduceAll pending t
  | l :: ls =>
    let (pending, left) := j.reduce (j.weight l.operator) pending t
    ofLinks (⟨left, l.position, l.operator⟩ :: pending) (j.operand l.operand) ls

/-- The tree of a chain of operands. Tighter operators stand deeper in it, and operators of equal
weight group from the left. -/
def ofChain (first : Expr) (links : List Link) : α :=
  j.ofLinks [] (j.operand first) links

end Joining

/-- Operands are joined into expressions, by the weights of the operators. -/
def Expr.joining : Joining Expr where
  operand := id
  node := .binary
  weight := Operator.weight

/-- The expression of a chain of operands. -/
def Expr.ofChain (first : Expr) (links : List Link) : Expr :=
  Expr.joining.ofChain first links

end Primer

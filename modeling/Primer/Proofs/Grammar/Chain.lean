import Mathlib.Data.List.Basic
import Primer.Grammar.Chain

/-!
The trees of chains. A chain is an operand followed by operators with further operands; a tree over it has
the operands as leaves, which it does not look into, and the operators as nodes. A tree is nested if at each
node the operator on top of the left part binds at least as tightly, and the one on top of the right part
more tightly. For every table of weights there is one nested tree of a chain, and the stack of pending
operators builds it. Main statement: `Expr.ofChain_nested`.
-/

namespace Primer

/-! ## Trees of one kind for those of another -/

def Pending.map (place : Position → Position) (tree : α → β) (p : Pending α) : Pending β :=
  ⟨tree p.left, place p.position, p.operator⟩

/-- What stands in a chain goes over to other places and operands by `place` and `expr`, and trees joined
of the one to trees joined of the other by `tree`. The operators and their weights stay. -/
structure Joining.Carries (j : Joining α) (k : Joining β) (place : Position → Position)
    (expr : Expr → Expr) (tree : α → β) : Prop where
  operand : ∀ e, tree (j.operand e) = k.operand (expr e)
  node : ∀ i o left right, tree (j.node i o left right) = k.node (place i) o (tree left) (tree right)
  weight : ∀ o, k.weight o = j.weight o

namespace Joining.Carries

variable {j : Joining α} {k : Joining β} {place : Position → Position} {expr : Expr → Expr} {tree : α → β}
variable (h : j.Carries k place expr tree)
include h

theorem complete (p : Pending α) (t : α) :
    tree (j.complete p t) = k.complete (p.map place tree) (tree t) := h.node _ _ _ _

/-- The same operators are completed on both sides, since their weights are the same. -/
theorem reduce (limit : Nat) (pending : List (Pending α)) (t : α) :
    k.reduce limit (pending.map (Pending.map place tree)) (tree t) =
      ((j.reduce limit pending t).1.map (Pending.map place tree), tree (j.reduce limit pending t).2) := by
  induction pending generalizing t with
  | nil => rfl
  | cons p pending ih =>
    have hweight : k.weight (p.map place tree).operator = j.weight p.operator := h.weight p.operator
    rw [List.map_cons, Joining.reduce, Joining.reduce, hweight]
    split
    · rw [← h.complete, ih]
    · rw [List.map_cons]

theorem reduceAll (pending : List (Pending α)) (t : α) :
    tree (j.reduceAll pending t) = k.reduceAll (pending.map (Pending.map place tree)) (tree t) := by
  induction pending generalizing t with
  | nil => rfl
  | cons p pending ih =>
    refine (ih (j.complete p t)).trans ?_
    rw [h.complete]
    rfl

theorem ofLinks (pending : List (Pending α)) (t : α) (links : List Link) :
    tree (j.ofLinks pending t links) =
      k.ofLinks (pending.map (Pending.map place tree)) (tree t)
        (links.map fun l => ⟨place l.position, l.operator, expr l.operand⟩) := by
  induction links generalizing pending t with
  | nil => exact h.reduceAll pending t
  | cons l links ih =>
    rw [List.map_cons, Joining.ofLinks, Joining.ofLinks, ih, h.operand, h.weight, h.reduce]
    rfl

/-- The tree of a chain goes over to the tree of the chain that has gone over. -/
theorem ofChain (first : Expr) (links : List Link) :
    tree (j.ofChain first links) = k.ofChain (expr first)
      (links.map fun l => ⟨place l.position, l.operator, expr l.operand⟩) := by
  rw [Joining.ofChain, h.ofLinks, h.operand]
  rfl

end Joining.Carries

/-! ## Trees over the operands -/

/-- What stands in a chain. -/
inductive ChainPart where
  | operand (e : Expr)
  | operator (position : Position) (o : Operator)

/-- The operator and the operand of a link. -/
def Link.parts (l : Link) : List ChainPart := [.operator l.position l.operator, .operand l.operand]

/-- A chain as it is written. -/
def chainParts (first : Expr) (links : List Link) : List ChainPart :=
  .operand first :: links.flatMap Link.parts

theorem operand_mem_chainParts {e first : Expr} {links : List Link} :
    .operand e ∈ chainParts first links ↔ e = first ∨ ∃ l ∈ links, e = l.operand := by
  simp [chainParts, Link.parts]

/-- A tree with operands at the leaves and operators at the nodes. -/
inductive ChainTree where
  | operand (e : Expr)
  | node (position : Position) (o : Operator) (left right : ChainTree)

namespace ChainTree

def toExpr : ChainTree → Expr
  | operand e => e
  | node position o left right => .binary position o left.toExpr right.toExpr

/-- The operands and operators of the tree, from left to right. -/
def parts : ChainTree → List ChainPart
  | operand e => [.operand e]
  | node position o left right => left.parts ++ .operator position o :: right.parts

/-- The operator on top of the tree. -/
def top? : ChainTree → Option Operator
  | operand _ => none
  | node _ o _ _ => some o

variable (weight : Operator → Nat)

/-- At every node the operator on top of the left part is at most as heavy, and the one on top of the right
part is lighter. -/
def Nested : ChainTree → Prop
  | operand _ => True
  | node _ o left right => (∀ q ∈ left.top?, weight q ≤ weight o) ∧
    (∀ q ∈ right.top?, weight q < weight o) ∧ left.Nested ∧ right.Nested

/-- Operands and operators are joined into trees over them, under any table of weights. -/
def joining : Joining ChainTree := ⟨operand, node, weight⟩

@[simp] theorem joining_operand (e : Expr) : (joining weight).operand e = operand e := rfl

@[simp] theorem joining_weight (o : Operator) : (joining weight).weight o = weight o := rfl

/-- The tree of a chain under a table of weights. -/
def ofChain (first : Expr) (links : List Link) : ChainTree :=
  (joining weight).ofChain first links

/-- The chains of the grammar are read by the weights of the operators. -/
theorem toExpr_ofChain (first : Expr) (links : List Link) :
    (ofChain Operator.weight first links).toExpr = Expr.ofChain first links := by
  have hcarries : (joining Operator.weight).Carries Expr.joining id id toExpr :=
    ⟨fun _ => rfl, fun _ _ _ _ => rfl, fun _ => rfl⟩
  have hchain := hcarries.ofChain first links
  rwa [show (fun l : Link => (⟨id l.position, l.operator, id l.operand⟩ : Link)) = id from rfl,
    List.map_id] at hchain

/-! ## Nothing is lost, added or moved -/

/-- What the pending operators and their left parts stand for, the last one on the stack first. -/
def pendingParts : List (Pending ChainTree) → List ChainPart
  | [] => []
  | p :: ps => pendingParts ps ++ (p.left.parts ++ [.operator p.position p.operator])

theorem parts_complete (p : Pending ChainTree) (ps : List (Pending ChainTree)) (t : ChainTree) :
    pendingParts ps ++ ((joining weight).complete p t).parts = pendingParts (p :: ps) ++ t.parts := by
  simp [Joining.complete, joining, parts, pendingParts]

theorem parts_reduce (limit : Nat) (pending : List (Pending ChainTree)) (t : ChainTree) :
    pendingParts ((joining weight).reduce limit pending t).1 ++
        ((joining weight).reduce limit pending t).2.parts = pendingParts pending ++ t.parts := by
  induction pending generalizing t with
  | nil => rfl
  | cons p pending ih =>
    rw [Joining.reduce]
    split
    · rw [ih, parts_complete]
    · rfl

theorem parts_reduceAll (pending : List (Pending ChainTree)) (t : ChainTree) :
    ((joining weight).reduceAll pending t).parts = pendingParts pending ++ t.parts := by
  induction pending generalizing t with
  | nil => rfl
  | cons p pending ih => exact (ih ((joining weight).complete p t)).trans (parts_complete weight p pending t)

theorem parts_ofLinks (pending : List (Pending ChainTree)) (t : ChainTree) (links : List Link) :
    ((joining weight).ofLinks pending t links).parts =
      pendingParts pending ++ t.parts ++ links.flatMap Link.parts := by
  induction links generalizing pending t with
  | nil => rw [Joining.ofLinks, parts_reduceAll, List.flatMap_nil, List.append_nil]
  | cons l links ih =>
    rw [Joining.ofLinks, ih, List.flatMap_cons, ← parts_reduce weight (weight l.operator) pending t]
    simp [pendingParts, parts, Link.parts]

/-- The tree of a chain holds the chain. -/
theorem parts_ofChain (first : Expr) (links : List Link) :
    (ofChain weight first links).parts = chainParts first links :=
  parts_ofLinks weight [] (operand first) links

/-! ## The tree is nested -/

/-- The tree is lighter than the next pending operator, and when that has been completed the next one, and
so on; in the end the tree is nested. -/
def Fits : List (Pending ChainTree) → ChainTree → Prop
  | [], t => t.Nested weight
  | p :: ps, t => (∀ q ∈ t.top?, weight q < weight p.operator) ∧ Fits ps ((joining weight).complete p t)

namespace Fits

variable {weight} {pending : List (Pending ChainTree)} {t u : ChainTree}

theorem nested (h : Fits weight pending t) : t.Nested weight := by
  induction pending generalizing t with
  | nil => exact h
  | cons p pending ih => exact (ih h.2).2.2.2

/-- Only the weight on top of the tree counts for the pending operators. -/
theorem replace (h : Fits weight pending t) (hu : u.Nested weight)
    (htop : ∀ p ∈ pending.head?, ∀ q ∈ u.top?, weight q < weight p.operator) :
    Fits weight pending u := by
  induction pending generalizing t u with
  | nil => exact hu
  | cons p pending ih =>
    obtain ⟨-, hrest⟩ := h
    obtain ⟨hleft, -, hnested, -⟩ := hrest.nested
    have hlight := htop p rfl
    refine ⟨hlight, ih hrest ⟨hleft, hlight, hnested, hu⟩ ?_⟩
    intro next hnext
    cases pending with
    | nil => cases hnext
    | cons p' pending =>
      cases hnext
      exact hrest.1

theorem reduceAll (h : Fits weight pending t) : ((joining weight).reduceAll pending t).Nested weight := by
  induction pending generalizing t with
  | nil => exact h
  | cons p pending ih => exact ih h.2

theorem reduce (limit : Nat) (h : Fits weight pending t) :
    Fits weight ((joining weight).reduce limit pending t).1 ((joining weight).reduce limit pending t).2 := by
  induction pending generalizing t with
  | nil => exact h
  | cons p pending ih =>
    rw [Joining.reduce]
    split
    · exact ih h.2
    · exact h

end Fits

/-- An operator that is left pending is heavier than the limit. -/
theorem lt_of_mem_reduce (limit : Nat) (pending : List (Pending ChainTree)) (t : ChainTree) :
    ∀ p ∈ ((joining weight).reduce limit pending t).1.head?, limit < weight p.operator := by
  induction pending generalizing t with
  | nil => exact fun p hp => by cases hp
  | cons p pending ih =>
    rw [Joining.reduce]
    split
    case isTrue => exact ih ((joining weight).complete p t)
    case isFalse h =>
      intro p' hp'
      cases hp'
      exact Nat.lt_of_not_le h

/-- An operator that has been completed is not. -/
theorem top_reduce_le (limit : Nat) (pending : List (Pending ChainTree)) {t : ChainTree}
    (ht : ∀ q ∈ t.top?, weight q ≤ limit) :
    ∀ q ∈ ((joining weight).reduce limit pending t).2.top?, weight q ≤ limit := by
  induction pending generalizing t with
  | nil => exact ht
  | cons p pending ih =>
    rw [Joining.reduce]
    split
    case isTrue h =>
      apply ih
      intro q hq
      cases hq
      exact h
    case isFalse => exact ht

/-- The next operator is put on the stack, with what has been completed as its left part. -/
theorem Fits.push {weight : Operator → Nat} {pending : List (Pending ChainTree)} {e : Expr} (l : Link)
    (h : Fits weight pending (operand e)) :
    Fits weight (⟨((joining weight).reduce (weight l.operator) pending (operand e)).2, l.position,
        l.operator⟩ :: ((joining weight).reduce (weight l.operator) pending (operand e)).1)
      (operand l.operand) := by
  have hreduced := h.reduce (weight l.operator)
  have hleft := top_reduce_le weight (weight l.operator) pending (t := operand e) fun q hq => by cases hq
  have hlight : ∀ q ∈ (operand l.operand).top?, weight q < weight l.operator := fun q hq => by cases hq
  refine ⟨hlight, hreduced.replace ⟨hleft, hlight, hreduced.nested, trivial⟩ fun p hp q hq => ?_⟩
  cases hq
  exact lt_of_mem_reduce weight _ pending _ p hp

theorem nested_ofLinks {weight : Operator → Nat} {pending : List (Pending ChainTree)} {e : Expr} (links : List Link)
    (h : Fits weight pending (operand e)) : ((joining weight).ofLinks pending (operand e) links).Nested weight := by
  induction links generalizing pending e with
  | nil => exact h.reduceAll
  | cons l links ih => exact ih (h.push l)

theorem nested_ofChain (weight : Operator → Nat) (first : Expr) (links : List Link) :
    (ofChain weight first links).Nested weight := nested_ofLinks links trivial

/-! ## There is no other -/

variable {weight}

/-- No operator of a nested tree is heavier than the one on top. -/
theorem Nested.exists_top {t : ChainTree} (h : t.Nested weight) {i : Position} {o : Operator}
    (ho : .operator i o ∈ t.parts) : ∃ q ∈ t.top?, weight o ≤ weight q := by
  induction t with
  | operand e => simp [parts] at ho
  | node j r left right ihl ihr =>
    obtain ⟨hl, hr, hleft, hright⟩ := h
    refine ⟨r, rfl, ?_⟩
    rw [parts, List.mem_append, List.mem_cons] at ho
    rcases ho with ho | ho | ho
    · obtain ⟨q, hq, hle⟩ := ihl hleft ho
      exact Nat.le_trans hle (hl q hq)
    · cases ho
      exact Nat.le_refl _
    · obtain ⟨q, hq, hle⟩ := ihr hright ho
      exact Nat.le_trans hle (Nat.le_of_lt (hr q hq))

theorem Nested.le_of_mem_left {i j : Position} {o q : Operator} {left right : ChainTree}
    (h : (node i o left right).Nested weight) (hq : .operator j q ∈ left.parts) :
    weight q ≤ weight o := by
  obtain ⟨top, htop, hle⟩ := h.2.2.1.exists_top hq
  exact Nat.le_trans hle (h.1 top htop)

theorem Nested.lt_of_mem_right {i j : Position} {o q : Operator} {left right : ChainTree}
    (h : (node i o left right).Nested weight) (hq : .operator j q ∈ right.parts) :
    weight q < weight o := by
  obtain ⟨top, htop, hle⟩ := h.2.2.2.exists_top hq
  exact Nat.lt_of_le_of_lt hle (h.2.1 top htop)

/-- The top of one of two nested trees of a chain does not stand before that of the other: it would be
heavier, as the other lies to its right, and it would not be, as it lies to the left of the other. -/
theorem Nested.eq_nil_of_parts {i j : Position} {o q : Operator} {l r l' r' : ChainTree}
    (h : (node i o l r).Nested weight) (h' : (node j q l' r').Nested weight) {mid : List ChainPart}
    (hleft : l'.parts = l.parts ++ mid)
    (hright : .operator i o :: r.parts = mid ++ .operator j q :: r'.parts) : mid = [] := by
  cases mid with
  | nil => rfl
  | cons x mid =>
    rw [List.cons_append, List.cons.injEq] at hright
    obtain ⟨rfl, hright⟩ := hright
    have hle : weight o ≤ weight q := h'.le_of_mem_left (j := i) (by simp [hleft])
    have hlt : weight q < weight o := h.lt_of_mem_right (j := j) (by simp [hright])
    exact absurd hle (Nat.not_le_of_lt hlt)

theorem parts_operand_ne (e : Expr) (i : Position) (o : Operator) (l r : ChainTree) :
    (operand e).parts ≠ (node i o l r).parts := by
  intro h
  have hmem : .operator i o ∈ (operand e).parts := by
    rw [h]
    simp [parts]
  simp [parts] at hmem

/-- Nested trees of the same chain are the same. -/
theorem Nested.eq_of_parts {t u : ChainTree} (ht : t.Nested weight) (hu : u.Nested weight)
    (h : t.parts = u.parts) : t = u := by
  induction t generalizing u with
  | operand e =>
    cases u with
    | operand e' =>
      cases h
      rfl
    | node j q l' r' => exact absurd h (parts_operand_ne e j q l' r')
  | node i o l r ihl ihr =>
    cases u with
    | operand e' => exact absurd h.symm (parts_operand_ne e' i o l r)
    | node j q l' r' =>
      -- the chain is split at the same operator
      obtain ⟨hleft, hright⟩ : l.parts = l'.parts ∧
          .operator i o :: r.parts = .operator j q :: r'.parts := by
        rw [parts, parts, List.append_eq_append_iff] at h
        rcases h with ⟨mid, hleft, hright⟩ | ⟨mid, hleft, hright⟩
        · obtain rfl := ht.eq_nil_of_parts hu hleft hright
          exact ⟨by rw [hleft, List.append_nil], hright⟩
        · obtain rfl := hu.eq_nil_of_parts ht hleft hright
          exact ⟨by rw [hleft, List.append_nil], hright.symm⟩
      rw [List.cons.injEq] at hright
      obtain ⟨hop, hright⟩ := hright
      cases hop
      rw [ihl ht.2.2.1 hu.2.2.1 hleft, ihr ht.2.2.2 hu.2.2.2 hright]

end ChainTree

/-- **Chains have one tree.** The expression of a chain is the only tree over its operands that has them
and the operators, each at its place, in the order of the chain, and at whose nodes the operator on top of
the left part is at most as heavy and the one on top of the right part is lighter. -/
theorem Expr.ofChain_nested (first : Expr) (links : List Link) :
    ∃ t : ChainTree, t.toExpr = Expr.ofChain first links ∧ t.parts = chainParts first links ∧
      t.Nested Operator.weight ∧
      ∀ u : ChainTree, u.parts = chainParts first links → u.Nested Operator.weight → u = t := by
  have hnested : (ChainTree.ofChain Operator.weight first links).Nested Operator.weight :=
    ChainTree.nested_ofLinks links trivial
  have hparts : (ChainTree.ofChain Operator.weight first links).parts = chainParts first links :=
    ChainTree.parts_ofLinks Operator.weight [] (.operand first) links
  refine ⟨_, ChainTree.toExpr_ofChain first links, hparts, hnested, fun u hu hnestedu => ?_⟩
  exact hnestedu.eq_of_parts hnested (hu.trans hparts.symm)

end Primer

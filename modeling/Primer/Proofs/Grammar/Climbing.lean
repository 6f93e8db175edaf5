import Primer.Proofs.Grammar.Chain

/-!
Chains joined by climbing. This way from a chain to its expression keeps no stack. One loop takes the
operators into the expression as long as they are not too heavy; before it takes one, another loop hands
the right operand to the lighter operators behind it, by climbing further with a lower limit. The loops
share what is left of the chain. They end, since no round leaves the chain as long as it was, and what they
build is the nested tree of the chain, of which there is only one. Main statement: `Expr.climb_eq_ofChain`.
-/

namespace Primer

/-- An expression that has been joined of the first of the links, and the links that are left. The first
of these, if there is one, weighs at least as much as the bound. -/
structure Climbed (bound : Nat) (links : List Link) where
  expr : Expr
  rest : List Link
  suffix : rest <:+ links
  stops : ∀ l ∈ rest.head?, bound ≤ l.operator.weight

/-- A link that weighs less than the bound has been taken. -/
theorem Climbed.length_lt {bound : Nat} {l : Link} {links : List Link} (c : Climbed bound (l :: links))
    (h : l.operator.weight < bound) : c.rest.length < (l :: links).length := by
  refine Nat.lt_of_le_of_ne c.suffix.length_le fun hlength => ?_
  have hrest : c.rest = l :: links := c.suffix.eq_of_length hlength
  exact Nat.not_le_of_lt h (c.stops l (by rw [hrest]; rfl))

namespace Expr

mutual
/-- Takes the operators that weigh at most `limit` into the expression, one after the other. -/
def climb (left : Expr) (limit : Nat) (links : List Link) : Climbed (limit + 1) links :=
  match links with
  | [] => ⟨left, [], List.suffix_rfl, by simp⟩
  | l :: links =>
    if h : l.operator.weight ≤ limit then
      let right := climbRight l.operand l.operator links
      let whole := climb (.binary l.position l.operator left right.expr) limit right.rest
      ⟨whole.expr, whole.rest, whole.suffix.trans (right.suffix.trans (List.suffix_cons l links)),
        whole.stops⟩
    else ⟨left, l :: links, List.suffix_rfl, by simpa using Nat.succ_le_of_lt (Nat.lt_of_not_le h)⟩
termination_by (links.length, 0)
decreasing_by
  · exact .left _ _ (Nat.lt_succ_self _)
  · exact .left _ _ (Nat.lt_succ_of_le right.suffix.length_le)

/-- Hands the right operand of the operator `o` to the operators behind it that weigh less. -/
def climbRight (right : Expr) (o : Operator) (links : List Link) : Climbed o.weight links :=
  match links with
  | [] => ⟨right, [], List.suffix_rfl, by simp⟩
  | l :: links =>
    if h : l.operator.weight < o.weight then
      let further := climb right (o.weight - 1) (l :: links)
      let whole := climbRight further.expr o further.rest
      ⟨whole.expr, whole.rest, whole.suffix.trans further.suffix, whole.stops⟩
    else ⟨right, l :: links, List.suffix_rfl, by simpa using h⟩
termination_by (links.length, 1)
decreasing_by
  · exact .right _ (Nat.lt_succ_self _)
  · exact .left _ _ (further.length_lt (by omega))
end

end Expr

/-- The expression is that of the tree `u`, which is nested and holds, from left to right, what stood
`before` and the links that have been taken. -/
structure Climbed.Joins {bound : Nat} {links : List Link} (c : Climbed bound links)
    (before : List ChainPart) (u : ChainTree) : Prop where
  expr : u.toExpr = c.expr
  nested : u.Nested Operator.weight
  parts : u.parts ++ c.rest.flatMap Link.parts = before ++ links.flatMap Link.parts

namespace ChainTree

/-- What has been taken to the right of an operator comes behind the operator and the tree to its left. -/
theorem parts_node_append {l : Link} {links : List Link} {t r : ChainTree} {bound : Nat}
    {c : Climbed bound links} (h : c.Joins [.operand l.operand] r) :
    (node l.position l.operator t r).parts ++ c.rest.flatMap Link.parts =
      t.parts ++ (l :: links).flatMap Link.parts := by
  have hparts := h.parts
  simp only [parts, List.append_assoc, List.cons_append]
  rw [hparts]
  simp [Link.parts]

-- A tree grows as long as its top is no heavier than the next operator. On the right of an operator it also
-- stays lighter than that operator.
mutual
theorem exists_climb {t : ChainTree} (ht : t.Nested Operator.weight) (limit : Nat) : ∀ links : List Link,
    (∀ q ∈ t.top?, ∀ l ∈ links.head?, q.weight ≤ l.operator.weight) →
    ∃ u, (t.toExpr.climb limit links).Joins t.parts u ∧ ∀ q ∈ u.top?, q ∈ t.top? ∨ q.weight ≤ limit
  | [], _ => by
    rw [Expr.climb]
    exact ⟨t, ⟨rfl, ht, rfl⟩, fun q hq => .inl hq⟩
  | l :: links, htop => by
    rw [Expr.climb]
    split
    case isTrue h =>
      let right := l.operand.climbRight l.operator links
      obtain ⟨r, hr, hlight⟩ := exists_climbRight (t := operand l.operand) trivial l.operator links
        fun q hq => by cases hq
      have hright : r.toExpr = right.expr := hr.expr
      have hnode : (node l.position l.operator t r).Nested Operator.weight :=
        ⟨fun q hq => htop q hq l rfl, hlight, ht, hr.nested⟩
      obtain ⟨u, hu, hweight⟩ := exists_climb hnode limit right.rest fun q hq l' hl' => by
        cases hq
        exact right.stops l' hl'
      rw [toExpr, hright] at hu
      refine ⟨u, ⟨hu.expr, hu.nested, hu.parts.trans (parts_node_append hr)⟩, fun q hq => .inr ?_⟩
      rcases hweight q hq with hq | hle
      · cases hq
        exact h
      · exact hle
    case isFalse => exact ⟨t, ⟨rfl, ht, rfl⟩, fun q hq => .inl hq⟩
termination_by links => (links.length, 0)
decreasing_by
  · exact .left _ _ (Nat.lt_succ_self _)
  · exact .left _ _ (Nat.lt_succ_of_le right.suffix.length_le)

theorem exists_climbRight {t : ChainTree} (ht : t.Nested Operator.weight) (o : Operator) :
    ∀ links : List Link,
    (∀ q ∈ t.top?, q.weight < o.weight ∧ ∀ l ∈ links.head?, q.weight ≤ l.operator.weight) →
    ∃ u, (t.toExpr.climbRight o links).Joins t.parts u ∧ ∀ q ∈ u.top?, q.weight < o.weight
  | [], htop => by
    rw [Expr.climbRight]
    exact ⟨t, ⟨rfl, ht, rfl⟩, fun q hq => (htop q hq).1⟩
  | l :: links, htop => by
    rw [Expr.climbRight]
    split
    case isTrue h =>
      let further := t.toExpr.climb (o.weight - 1) (l :: links)
      obtain ⟨v, hv, hweight⟩ := exists_climb ht (o.weight - 1) (l :: links) fun q hq => (htop q hq).2
      have hlight : ∀ q ∈ v.top?, q.weight < o.weight := by
        intro q hq
        rcases hweight q hq with hq | hle
        · exact (htop q hq).1
        · omega
      have hnext : ∀ q ∈ v.top?, ∀ l' ∈ further.rest.head?, q.weight ≤ l'.operator.weight := by
        intro q hq l' hl'
        have hq := hlight q hq
        have hl' := further.stops l' hl'
        omega
      obtain ⟨u, hu, hlast⟩ := exists_climbRight hv.nested o further.rest
        fun q hq => ⟨hlight q hq, hnext q hq⟩
      rw [hv.expr] at hu
      exact ⟨u, ⟨hu.expr, hu.nested, hu.parts.trans hv.parts⟩, hlast⟩
    case isFalse => exact ⟨t, ⟨rfl, ht, rfl⟩, fun q hq => (htop q hq).1⟩
termination_by links => (links.length, 1)
decreasing_by
  · exact .right _ (Nat.lt_succ_self _)
  · exact .left _ _ (further.length_lt (by omega))
end

end ChainTree

theorem Operator.weight_le (o : Operator) : o.weight ≤ 255 := by
  cases o <;> decide

/-- **Climbing gives the expression of a chain.** From the greatest weight of eight bits on, no link is left
over, and the expression is the one that the stack of pending operators builds. -/
theorem Expr.climb_eq_ofChain (first : Expr) (links : List Link) :
    (first.climb 255 links).expr = Expr.ofChain first links ∧ (first.climb 255 links).rest = [] := by
  have hrest : (first.climb 255 links).rest = [] := by
    cases h : (first.climb 255 links).rest with
    | nil => rfl
    | cons l rest =>
      have hheavy := (first.climb 255 links).stops l (by rw [h]; rfl)
      exact absurd l.operator.weight_le (Nat.not_le_of_lt hheavy)
  obtain ⟨u, hu, -⟩ := ChainTree.exists_climb (t := .operand first) trivial 255 links
    fun q hq => by cases hq
  have hparts : u.parts = chainParts first links := by
    have hparts := hu.parts
    rwa [ChainTree.toExpr, hrest, List.flatMap_nil, List.append_nil] at hparts
  have htree : u = ChainTree.ofChain Operator.weight first links :=
    hu.nested.eq_of_parts (ChainTree.nested_ofChain _ first links)
      (hparts.trans (ChainTree.parts_ofChain _ first links).symm)
  refine ⟨?_, hrest⟩
  rw [← ChainTree.toExpr_ofChain, ← htree]
  exact hu.expr.symm

end Primer

import Primer.Proofs.Syntax.Nodes
import Primer.Proofs.Typing.Rules

/-!
The rules reach every part of what they allow: an expression with a type contains only expressions with
types, and an allowed instruction only those and allowed instructions.
-/

namespace Primer

namespace Scope

variable {cx : Scope}

mutual
/-- An expression with a type has expressions with types in it only. The four parts follow the recursion of
the syntax, through paths and lists of arguments. -/
theorem HasType.nodes : ∀ {e : Expr} {t : Ty}, cx.HasType e t → ∀ a ∈ e.nodes, ∃ u, cx.HasType a u
  | .literal v, _, h => by
    rw [Expr.nodes, List.forall_mem_singleton]
    exact ⟨_, h⟩
  | .path q, _, .path h => by
    rw [Expr.nodes, List.forall_mem_cons]
    exact ⟨⟨_, .path h⟩, h.nodes⟩
  | .not i e, _, .not h => by
    rw [Expr.nodes, List.forall_mem_cons]
    exact ⟨⟨_, .not h⟩, h.nodes⟩
  | .binary i o l r, _, .binary hl hr ho => by
    rw [Expr.nodes, List.forall_mem_cons, List.forall_mem_append]
    exact ⟨⟨_, .binary hl hr ho⟩, hl.nodes, hr.nodes⟩

theorem Yields.nodes : ∀ {q : Path} {t? : Option Ty}, cx.Yields q t? →
    ∀ a ∈ q.nodes, ∃ u, cx.HasType a u
  | .var x, _, _ => nofun
  | .call f args, _, .call _ _ hargs => hargs.nodes
  | .index base i, _, .index h hi _ => by
    rw [Path.nodes, List.forall_mem_append]
    exact ⟨h.nodes, hi.nodes⟩
  | .member base x, _, .member h _ _ _ => h.nodes
  | .method base x args, _, .method h _ _ hargs _ => by
    rw [Path.nodes, List.forall_mem_append]
    exact ⟨h.nodes, hargs.nodes⟩

/-- Arguments that a routine takes have types, also where the routine may write them. -/
theorem Takes.nodes : ∀ {ps : List Parameter} {es : List Expr}, cx.Takes ps es →
    ∀ a ∈ Expr.nodesAll es, ∃ u, cx.HasType a u
  | [], [], _ => nofun
  | p :: ps, e :: es, .value _ he _ h => by
    rw [Expr.nodesAll, List.forall_mem_append]
    exact ⟨he.nodes, h.nodes⟩
  | p :: ps, .path q :: es, .storage _ _ hq h => by
    rw [Expr.nodesAll, List.forall_mem_append]
    exact ⟨hq.nodes, h.nodes⟩

theorem MethodTakes.nodes {element : Ty} : ∀ {ps : List Method.Param} {es : List Expr},
    cx.MethodTakes element ps es → ∀ a ∈ Expr.nodesAll es, ∃ u, cx.HasType a u
  | [], [], _ => nofun
  | _ :: ps, e :: es, .index he _ h | _ :: ps, e :: es, .element he _ h => by
    rw [Expr.nodesAll, List.forall_mem_append]
    exact ⟨he.nodes, h.nodes⟩
end

mutual
/-- The expressions in an allowed instruction have types, in its blocks too. -/
theorem Allows.nodes : ∀ {i : Instruction}, cx.Allows i → ∀ a ∈ i.nodes, ∃ u, cx.HasType a u
  | .print _ es, .print h => by
    rw [Instruction.nodes, List.forall_mem_flatMap]
    intro e he
    obtain ⟨t, ht, -⟩ := h e he
    exact ht.nodes
  | .read q, .read _ hq _ => hq.nodes
  | .result _ e, .result _ _ he _ => he.nodes
  | .evaluate _, .evaluate _ hq => hq.nodes
  | .assign _ q e, .assign _ hq he _ => by
    rw [Instruction.nodes, List.forall_mem_append]
    exact ⟨hq.nodes, he.nodes⟩
  | .branch _ c body next, .branch hc hbody hnext => by
    rw [Instruction.nodes, List.forall_mem_append, List.forall_mem_append]
    exact ⟨⟨hc.nodes, Allows.nodesAll hbody⟩, hnext.nodes⟩
  | .whileLoop _ c body, .whileLoop hc hbody => by
    rw [Instruction.nodes, List.forall_mem_append]
    exact ⟨hc.nodes, Allows.nodesAll hbody⟩
  | .untilLoop _ body c, .untilLoop hbody hc => by
    rw [Instruction.nodes, List.forall_mem_append]
    exact ⟨Allows.nodesAll hbody, hc.nodes⟩
  | .forLoop _ x first last body, .forLoop _ _ _ hfirst _ hlast _ hbody => by
    rw [Instruction.nodes, List.forall_mem_append, List.forall_mem_append]
    exact ⟨⟨hfirst.nodes, hlast.nodes⟩, Allows.nodesAll hbody⟩
  | .guarded _ c j, .guarded hc h => by
    rw [Instruction.nodes, List.forall_mem_append]
    exact ⟨hc.nodes, h.nodes⟩

theorem AllowsAlternatives.nodes : ∀ {next : Alternatives}, cx.AllowsAlternatives next →
    ∀ a ∈ next.nodes, ∃ u, cx.HasType a u
  | .none, _ => nofun
  | .otherwise body, .otherwise hbody => Allows.nodesAll hbody
  | .elsif _ c body next, .elsif hc hbody hnext => by
    rw [Alternatives.nodes, List.forall_mem_append, List.forall_mem_append]
    exact ⟨⟨hc.nodes, Allows.nodesAll hbody⟩, hnext.nodes⟩

/-- The same for a block, whose instructions are allowed one by one. -/
theorem Allows.nodesAll : ∀ {is : List Instruction}, (∀ i ∈ is, cx.Allows i) →
    ∀ a ∈ Instruction.nodesAll is, ∃ u, cx.HasType a u
  | [], _ => nofun
  | i :: is, h => by
    obtain ⟨hi, his⟩ := List.forall_mem_cons.1 h
    rw [Instruction.nodesAll, List.forall_mem_append]
    exact ⟨hi.nodes, Allows.nodesAll his⟩
end

mutual
/-- The instructions within an allowed one are allowed. -/
theorem Allows.inner : ∀ {i : Instruction}, cx.Allows i → ∀ j ∈ i.inner, cx.Allows j
  | .branch _ c body next, .branch _ hbody hnext => by
    rw [Instruction.inner, List.forall_mem_append]
    exact ⟨Allows.within hbody, hnext.inner⟩
  | .whileLoop _ c body, .whileLoop _ hbody => Allows.within hbody
  | .untilLoop _ body c, .untilLoop hbody _ => Allows.within hbody
  | .forLoop _ x first last body, .forLoop _ _ _ _ _ _ _ hbody => Allows.within hbody
  | .guarded _ c j, .guarded _ h => by
    rw [Instruction.inner, List.forall_mem_cons]
    exact ⟨h, h.inner⟩
  | .print _ _, _ | .read _, _ | .result _ _, _ | .evaluate _, _ | .assign _ _ _, _ => nofun

theorem AllowsAlternatives.inner : ∀ {next : Alternatives}, cx.AllowsAlternatives next →
    ∀ j ∈ next.inner, cx.Allows j
  | .none, _ => nofun
  | .otherwise body, .otherwise hbody => Allows.within hbody
  | .elsif _ c body next, .elsif _ hbody hnext => by
    rw [Alternatives.inner, List.forall_mem_append]
    exact ⟨Allows.within hbody, hnext.inner⟩

/-- The same for a block: its instructions, and those within them. -/
theorem Allows.within : ∀ {is : List Instruction}, (∀ i ∈ is, cx.Allows i) →
    ∀ j ∈ Instruction.within is, cx.Allows j
  | [], _ => nofun
  | i :: is, h => by
    obtain ⟨hi, his⟩ := List.forall_mem_cons.1 h
    rw [Instruction.within, List.forall_mem_append, List.forall_mem_cons]
    exact ⟨⟨hi, hi.inner⟩, Allows.within his⟩
end

end Scope

namespace Program.WellTyped

variable {p : Program} (h : p.WellTyped) {r : Routine} (hr : r ∈ p.routines)
include h hr

/-- Every expression in the body of a routine has a type where it stands. -/
theorem nodes : ∀ e ∈ r.nodes, ∃ t, Scope.HasType ⟨p, some r⟩ e t := by
  rw [Routine.nodes, ← Instruction.nodesAll_eq_flatMap]
  exact Scope.Allows.nodesAll (h.bodies r hr)

/-- Every instruction of a routine is allowed, those within others included. -/
theorem instructions : ∀ i ∈ r.instructions, Scope.Allows ⟨p, some r⟩ i :=
  Scope.Allows.within (h.bodies r hr)

end Program.WellTyped

end Primer

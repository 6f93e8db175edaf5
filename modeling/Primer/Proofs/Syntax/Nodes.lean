import Primer.Program

/-!
The expressions of a program, at any depth: operands, arguments and indices included. The instructions
of a body, at any depth.
-/

namespace Primer

mutual
/-- The expression and all that it contains. -/
def Expr.nodes : Expr → List Expr
  | .literal value => [.literal value]
  | .path p => .path p :: p.nodes
  | .not position e => .not position e :: e.nodes
  | .binary position o left right => .binary position o left right :: (left.nodes ++ right.nodes)

/-- The arguments and indices on a path and all that they contain. -/
def Path.nodes : Path → List Expr
  | .var _ => []
  | .call _ args => Expr.nodesAll args
  | .index base i => base.nodes ++ i.nodes
  | .member base _ => base.nodes
  | .method base _ args => base.nodes ++ Expr.nodesAll args

def Expr.nodesAll : List Expr → List Expr
  | [] => []
  | e :: es => e.nodes ++ Expr.nodesAll es
end

theorem Expr.nodesAll_eq_flatMap (es : List Expr) : Expr.nodesAll es = es.flatMap Expr.nodes := by
  induction es with
  | nil => rfl
  | cons e es ih => rw [Expr.nodesAll, ih, List.flatMap_cons]

theorem Expr.mem_nodes_self (e : Expr) : e ∈ e.nodes := by
  cases e <;> simp [Expr.nodes]

/-- What an expression contains when it stands as an instruction. A path is then run and not
evaluated, so that it is none of its own values. -/
def Expr.nodesRun : Expr → List Expr
  | .path p => p.nodes
  | e => e.nodes

mutual
/-- All expressions that an instruction evaluates. -/
def Instruction.nodes : Instruction → List Expr
  | .print _ es => es.flatMap Expr.nodes
  | .read target => target.nodes
  | .result _ value => value.nodes
  | .evaluate e => e.nodesRun
  | .assign _ target value => target.nodes ++ value.nodes
  | .branch _ condition body otherwise =>
    condition.nodes ++ Instruction.nodesAll body ++ otherwise.nodes
  | .whileLoop _ condition body => condition.nodes ++ Instruction.nodesAll body
  | .untilLoop _ body condition => Instruction.nodesAll body ++ condition.nodes
  | .forLoop _ _ first last body => first.nodes ++ last.nodes ++ Instruction.nodesAll body
  | .guarded _ condition i => condition.nodes ++ i.nodes

def Alternatives.nodes : Alternatives → List Expr
  | .none => []
  | .otherwise body => Instruction.nodesAll body
  | .elsif _ condition body next => condition.nodes ++ Instruction.nodesAll body ++ next.nodes

def Instruction.nodesAll : List Instruction → List Expr
  | [] => []
  | i :: is => i.nodes ++ Instruction.nodesAll is
end

@[simp] theorem Instruction.nodesAll_eq_flatMap (is : List Instruction) :
    Instruction.nodesAll is = is.flatMap Instruction.nodes := by
  induction is with
  | nil => rfl
  | cons i is ih => rw [Instruction.nodesAll, ih, List.flatMap_cons]

mutual
/-- The instructions within an instruction, those within them included. -/
def Instruction.inner : Instruction → List Instruction
  | .branch _ _ body otherwise => Instruction.within body ++ otherwise.inner
  | .whileLoop _ _ body | .untilLoop _ body _ | .forLoop _ _ _ _ body => Instruction.within body
  | .guarded _ _ i => i :: i.inner
  | .print _ _ | .read _ | .result _ _ | .evaluate _ | .assign _ _ _ => []

def Alternatives.inner : Alternatives → List Instruction
  | .none => []
  | .otherwise body => Instruction.within body
  | .elsif _ _ body next => Instruction.within body ++ next.inner

/-- The instructions of a block and those within them. -/
def Instruction.within : List Instruction → List Instruction
  | [] => []
  | i :: is => i :: i.inner ++ Instruction.within is
end

/-- All instructions of a body. -/
def Routine.instructions (r : Routine) : List Instruction := Instruction.within r.body

def Routine.nodes (r : Routine) : List Expr := r.body.flatMap Instruction.nodes

/-- All expressions of a program: those of the constants and those of the bodies. -/
def Program.nodes (p : Program) : List Expr :=
  p.constants.flatMap (·.value.nodes) ++ p.routines.flatMap Routine.nodes

end Primer

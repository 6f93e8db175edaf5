import Primer.Expr

/-!
Instructions of a function or procedure body.
-/

namespace Primer

mutual
inductive Instruction where
  | print (position : Position) (exprs : List Expr)
  | read (target : Path)
  | result (position : Position) (value : Expr)
  /-- An expression evaluated for its effect. -/
  | evaluate (expr : Expr)
  | assign (position : Position) (target : Path) (value : Expr)
  | branch (position : Position) (condition : Expr) (body : List Instruction)
      (otherwise : Alternatives)
  | whileLoop (position : Position) (condition : Expr) (body : List Instruction)
  /-- Runs its body once and repeats it until the condition holds. -/
  | untilLoop (position : Position) (body : List Instruction) (condition : Expr)
  /-- Counts from `first` to `last`, both included. -/
  | forLoop (position : Position) (counter : Ident) (first last : Expr) (body : List Instruction)
  /-- A single instruction under a condition. -/
  | guarded (position : Position) (condition : Expr) (instruction : Instruction)

/-- What is tried when the condition of a branch does not hold. -/
inductive Alternatives where
  | none
  | otherwise (body : List Instruction)
  | elsif (position : Position) (condition : Expr) (body : List Instruction) (next : Alternatives)
end

namespace Alternatives

/-- The conditional alternatives, in order. -/
def conditional : Alternatives → List (Position × Expr × List Instruction)
  | none | otherwise _ => []
  | elsif position condition body next => (position, condition, body) :: next.conditional

/-- The body that runs when no condition holds. -/
def final? : Alternatives → Option (List Instruction)
  | none => Option.none
  | otherwise body => some body
  | elsif _ _ _ next => next.final?

end Alternatives

mutual
/-- Whether two instructions are equal, their places included. -/
def Instruction.beq : Instruction → Instruction → Bool
  | .print i es, .print j fs => i == j && es == fs
  | .read p, .read q => p == q
  | .result i e, .result j f => i == j && e == f
  | .evaluate e, .evaluate f => e == f
  | .assign i p e, .assign j q f => i == j && p == q && e == f
  | .branch i e b a, .branch j f c d =>
    i == j && e == f && Instruction.beqList b c && a.beq d
  | .whileLoop i e b, .whileLoop j f c => i == j && e == f && Instruction.beqList b c
  | .untilLoop i b e, .untilLoop j c f => i == j && Instruction.beqList b c && e == f
  | .forLoop i x e f b, .forLoop j y g h c =>
    i == j && x == y && e == g && f == h && Instruction.beqList b c
  | .guarded i e a, .guarded j f b => i == j && e == f && a.beq b
  | _, _ => false

def Alternatives.beq : Alternatives → Alternatives → Bool
  | .none, .none => true
  | .otherwise b, .otherwise c => Instruction.beqList b c
  | .elsif i e b a, .elsif j f c d => i == j && e == f && Instruction.beqList b c && a.beq d
  | _, _ => false

def Instruction.beqList : List Instruction → List Instruction → Bool
  | [], [] => true
  | a :: as, b :: bs => a.beq b && Instruction.beqList as bs
  | _, _ => false
end

mutual
theorem Instruction.beq_iff_eq : ∀ {a b : Instruction}, a.beq b = true ↔ a = b
  | .print i es, b => by cases b <;> simp [Instruction.beq]
  | .read p, b => by cases b <;> simp [Instruction.beq]
  | .result i e, b => by cases b <;> simp [Instruction.beq]
  | .evaluate e, b => by cases b <;> simp [Instruction.beq]
  | .assign i p e, b => by cases b <;> simp [Instruction.beq, and_assoc]
  | .branch i e is o, b => by
    cases b <;>
      simp [Instruction.beq, Instruction.beqList_iff_eq (a := is), Alternatives.beq_iff_eq (a := o),
        and_assoc]
  | .whileLoop i e is, b => by
    cases b <;> simp [Instruction.beq, Instruction.beqList_iff_eq (a := is), and_assoc]
  | .untilLoop i is e, b => by
    cases b <;> simp [Instruction.beq, Instruction.beqList_iff_eq (a := is), and_assoc]
  | .forLoop i x e f is, b => by
    cases b <;> simp [Instruction.beq, Instruction.beqList_iff_eq (a := is), and_assoc]
  | .guarded i e j, b => by
    cases b <;> simp [Instruction.beq, Instruction.beq_iff_eq (a := j), and_assoc]

theorem Alternatives.beq_iff_eq : ∀ {a b : Alternatives}, a.beq b = true ↔ a = b
  | .none, b => by cases b <;> simp [Alternatives.beq]
  | .otherwise is, b => by
    cases b <;> simp [Alternatives.beq, Instruction.beqList_iff_eq (a := is)]
  | .elsif i e is o, b => by
    cases b <;>
      simp [Alternatives.beq, Instruction.beqList_iff_eq (a := is), Alternatives.beq_iff_eq (a := o),
        and_assoc]

theorem Instruction.beqList_iff_eq :
    ∀ {a b : List Instruction}, Instruction.beqList a b = true ↔ a = b
  | [], bs => by cases bs <;> simp [Instruction.beqList]
  | a :: as, bs => by
    cases bs <;>
      simp [Instruction.beqList, Instruction.beq_iff_eq (a := a), Instruction.beqList_iff_eq (a := as)]
end

instance : DecidableEq Instruction := fun _ _ => decidable_of_iff _ Instruction.beq_iff_eq

instance : DecidableEq Alternatives := fun _ _ => decidable_of_iff _ Alternatives.beq_iff_eq

end Primer

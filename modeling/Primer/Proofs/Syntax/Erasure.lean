import Primer.Program

/-!
Syntax without its places. `erase` puts the same place everywhere, so that two programs with the same
erasure are equal in everything but places.
-/

namespace Primer

def Ident.erase (x : Ident) : Ident := { x with position := default }

theorem Ident.erase_eq_iff {x y : Ident} : x.erase = y.erase ↔ x.name = y.name := by
  cases x; cases y; simp [erase]

mutual
def Expr.erase : Expr → Expr
  | .literal value => .literal value
  | .path p => .path p.erase
  | .not _ e => .not default e.erase
  | .binary _ o left right => .binary default o left.erase right.erase

def Path.erase : Path → Path
  | .var x => .var x.erase
  | .call f args => .call f.erase (Expr.eraseAll args)
  | .index base i => .index base.erase i.erase
  | .member base x => .member base.erase x.erase
  | .method base m args => .method base.erase m.erase (Expr.eraseAll args)

def Expr.eraseAll : List Expr → List Expr
  | [] => []
  | e :: es => e.erase :: Expr.eraseAll es
end

@[simp] theorem Expr.eraseAll_eq_map (es : List Expr) : Expr.eraseAll es = es.map Expr.erase := by
  induction es with
  | nil => rfl
  | cons e es ih => rw [Expr.eraseAll, ih, List.map_cons]

mutual
def Instruction.erase : Instruction → Instruction
  | .print _ es => .print default (es.map Expr.erase)
  | .read target => .read target.erase
  | .result _ value => .result default value.erase
  | .evaluate e => .evaluate e.erase
  | .assign _ target value => .assign default target.erase value.erase
  | .branch _ condition body otherwise =>
    .branch default condition.erase (Instruction.eraseAll body) otherwise.erase
  | .whileLoop _ condition body =>
    .whileLoop default condition.erase (Instruction.eraseAll body)
  | .untilLoop _ body condition =>
    .untilLoop default (Instruction.eraseAll body) condition.erase
  | .forLoop _ counter first last body =>
    .forLoop default counter.erase first.erase last.erase (Instruction.eraseAll body)
  | .guarded _ condition i => .guarded default condition.erase i.erase

def Alternatives.erase : Alternatives → Alternatives
  | .none => .none
  | .otherwise body => .otherwise (Instruction.eraseAll body)
  | .elsif _ condition body next =>
    .elsif default condition.erase (Instruction.eraseAll body) next.erase

def Instruction.eraseAll : List Instruction → List Instruction
  | [] => []
  | i :: is => i.erase :: Instruction.eraseAll is
end

@[simp] theorem Instruction.eraseAll_eq_map (is : List Instruction) :
    Instruction.eraseAll is = is.map Instruction.erase := by
  induction is with
  | nil => rfl
  | cons i is ih => rw [Instruction.eraseAll, ih, List.map_cons]

def Symbol.erase (s : Symbol) : Symbol := { s with ident := s.ident.erase }

def Structure.erase (s : Structure) : Structure :=
  ⟨s.ident.erase, s.members.map Symbol.erase⟩

def Parameter.erase (p : Parameter) : Parameter := { p with symbol := p.symbol.erase }

def Constant.erase (c : Constant) : Constant := ⟨c.symbol.erase, c.value.erase⟩

def Routine.erase (r : Routine) : Routine where
  ident := r.ident.erase
  params := r.params.map Parameter.erase
  locals := r.locals.map Symbol.erase
  body := r.body.map Instruction.erase
  result := r.result

def Declaration.erase : Declaration → Declaration
  | .ofStructure s => .ofStructure s.erase
  | .ofConstant c => .ofConstant c.erase
  | .ofGlobal s => .ofGlobal s.erase
  | .ofRoutine r => .ofRoutine r.erase

def Program.erase (p : Program) : Program where
  ident := p.ident.erase
  structures := p.structures.map Structure.erase
  constants := p.constants.map Constant.erase
  globals := p.globals.map Symbol.erase
  functions := p.functions.map Routine.erase
  procedures := p.procedures.map Routine.erase

end Primer

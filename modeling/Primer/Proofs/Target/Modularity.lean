import Primer.Grammar.Program
import Primer.Proofs.Typing.Check
import Primer.Proofs.Typing.Signatures
import Primer.Target.Program

/-!
Routines are checked and translated one by one. The C++ text of a routine depends on the program only
through the types of expressions, and these, like the problems that checking finds, only through the
signatures of other routines. So a routine fares the same whatever the others declare as locals and do in
their bodies (`Program.revise_modular`).
-/

namespace Primer

/-! ## Scopes that give the same types -/

/-- Names and expressions have the same types in both scopes. -/
structure Scope.SameTypes (cx dx : Scope) : Prop where
  lookup? : ∀ name, cx.lookup? name = dx.lookup? name
  typeOf : ∀ e, cx.typeOf e = dx.typeOf e

theorem Program.SameNames.sameTypes {p q : Program} (h : p.SameNames q) (r : Option Routine) :
    Scope.SameTypes ⟨p, r⟩ ⟨q, r⟩ := ⟨h.lookup?_eq r, h.typeOf_eq r⟩

namespace Scope.SameTypes

variable {cx dx : Scope}

mutual
theorem expr_eq (h : cx.SameTypes dx) : ∀ e : Expr, Target.expr cx e = Target.expr dx e
  | .literal _ => rfl
  | .path target => h.path_eq target
  | .not _ e => by rw [Target.expr, Target.expr, h.expr_eq e]
  | .binary _ _ left right => by
    rw [Target.expr, Target.expr, h.typeOf left, h.typeOf right, h.expr_eq left, h.expr_eq right]

theorem path_eq (h : cx.SameTypes dx) : ∀ target : Path, Target.path cx target = Target.path dx target
  | .var _ => rfl
  | .call _ args => by rw [Target.path, Target.path, h.exprs_eq args]
  | .index base i => by rw [Target.path, Target.path, h.path_eq base, h.expr_eq i]
  | .member base _ => by rw [Target.path, Target.path, h.path_eq base]
  | .method base _ args => by rw [Target.path, Target.path, h.path_eq base, h.exprs_eq args]

theorem exprs_eq (h : cx.SameTypes dx) : ∀ es : List Expr, Target.exprs cx es = Target.exprs dx es
  | [] => rfl
  | e :: es => by rw [Target.exprs, Target.exprs, h.expr_eq e, h.exprs_eq es]
end

theorem operand_eq (h : cx.SameTypes dx) : Target.operand cx = Target.operand dx := by
  funext e
  rw [Target.operand, Target.operand, h.expr_eq]

mutual
theorem instruction_eq (h : cx.SameTypes dx) : ∀ i : Instruction,
    Target.instruction cx i = Target.instruction dx i
  | .print _ _ => by rw [Target.instruction, Target.instruction, h.operand_eq]
  | .read _ => by rw [Target.instruction, Target.instruction, h.path_eq]
  | .result _ _ => by rw [Target.instruction, Target.instruction, h.expr_eq]
  | .evaluate _ => by rw [Target.instruction, Target.instruction, h.expr_eq]
  | .assign _ _ _ => by rw [Target.instruction, Target.instruction, h.path_eq, h.expr_eq]
  | .branch _ _ body otherwise => by
    rw [Target.instruction, Target.instruction, h.expr_eq, h.block_eq body, h.alternatives_eq otherwise]
  | .whileLoop _ _ body => by rw [Target.instruction, Target.instruction, h.expr_eq, h.block_eq body]
  | .untilLoop _ body _ => by rw [Target.instruction, Target.instruction, h.expr_eq, h.block_eq body]
  | .forLoop _ _ first last body => by
    rw [Target.instruction, Target.instruction, h.lookup?, h.typeOf last, h.expr_eq first,
      h.expr_eq last, h.block_eq body]
  | .guarded _ _ i => by rw [Target.instruction, Target.instruction, h.expr_eq, h.instruction_eq i]

theorem alternatives_eq (h : cx.SameTypes dx) : ∀ a : Alternatives,
    Target.alternatives cx a = Target.alternatives dx a
  | .none => rfl
  | .otherwise body => by rw [Target.alternatives, Target.alternatives, h.block_eq body]
  | .elsif _ _ body next => by
    rw [Target.alternatives, Target.alternatives, h.expr_eq, h.block_eq body, h.alternatives_eq next]

theorem block_eq (h : cx.SameTypes dx) : ∀ body : List Instruction,
    Target.block cx body = Target.block dx body
  | [] => rfl
  | i :: body => by rw [Target.block, Target.block, h.instruction_eq i, h.block_eq body]
end

theorem routine_eq (h : cx.SameTypes dx) (r : Routine) : Target.routine cx r = Target.routine dx r := by
  rw [Target.routine, Target.routine, h.block_eq]

end Scope.SameTypes

/-! ## Revised programs -/

/-- A look-up finds a routine of the same signature wherever the signatures are the same. -/
theorem map_signature_find? (routines : List Routine) (name : String) :
    (routines.find? (·.name == name)).map Routine.signature =
      (routines.map Routine.signature).find? (·.1 == name) := by
  rw [List.find?_map]
  rfl

namespace Program

/-- The program in which every routine but the `k`-th has the locals and the body that are given for its
number. The functions are counted first, then the procedures. -/
def revise (p : Program) (k : Nat) (locals : Nat → List Symbol) (bodies : Nat → List Instruction) :
    Program :=
  let revised (n : Nat) (r : Routine) : Routine :=
    if n = k then r else { r with locals := locals n, body := bodies n }
  { p with
    functions := p.functions.mapIdx revised
    procedures := p.procedures.mapIdx fun n => revised (n + p.functions.length) }

variable (p : Program) (k : Nat) (locals : Nat → List Symbol) (bodies : Nat → List Instruction)

theorem routines_revise : (p.revise k locals bodies).routines = p.routines.mapIdx fun n r =>
    if n = k then r else { r with locals := locals n, body := bodies n } := by
  rw [routines, routines, List.mapIdx_append]
  rfl

theorem signatures_revise : (p.revise k locals bodies).routines.map Routine.signature =
    p.routines.map Routine.signature := by
  apply List.ext_getElem?
  intro n
  rw [routines_revise, List.getElem?_map, List.getElem?_map, List.getElem?_mapIdx, Option.map_map]
  congr 1
  funext r
  simp only [Function.comp_apply]
  split <;> rfl

/-- Every name stands for the same, bodies and locals apart. -/
theorem sameNames_revise : p.SameNames (p.revise k locals bodies) where
  structure? _ := rfl
  constant? _ := rfl
  global? _ := rfl
  signature? name := by
    rw [routine?_eq_find?, routine?_eq_find?, map_signature_find?, map_signature_find?,
      signatures_revise]

/-- **A routine stands on its own.** Whatever locals and bodies the other routines are given, the `k`-th
stays where it is, checking finds the same problems in it, expressions and paths have the same types in
its scope and the same paths can be written there, and its C++ text is the same. -/
theorem revise_modular {f : Routine} (hf : p.routines[k]? = some f) :
    (p.revise k locals bodies).routines[k]? = some f ∧
    (p.revise k locals bodies).checkRoutine f = p.checkRoutine f ∧
    (∀ e, Scope.typeOf ⟨p.revise k locals bodies, some f⟩ e = Scope.typeOf ⟨p, some f⟩ e) ∧
    (∀ target, Scope.typeOfPath ⟨p.revise k locals bodies, some f⟩ target =
      Scope.typeOfPath ⟨p, some f⟩ target) ∧
    (∀ target, Scope.isWritable ⟨p.revise k locals bodies, some f⟩ target =
      Scope.isWritable ⟨p, some f⟩ target) ∧
    Target.routine ⟨p.revise k locals bodies, some f⟩ f = Target.routine ⟨p, some f⟩ f := by
  have hnames := p.sameNames_revise k locals bodies
  refine ⟨?_, ?_, fun e => (hnames.typeOf_eq _ e).symm, fun target => (hnames.typeOfPath_eq _ target).symm,
    fun target => (hnames.isWritable_eq _ target).symm, ?_⟩
  · rw [routines_revise, List.getElem?_mapIdx, hf, Option.map_some, if_pos rfl]
  · rw [hnames.checkRoutine_eq]
  · exact ((hnames.sameTypes (some f)).routine_eq f).symm

/-- A function with a wrong call of a procedure, and the procedure. -/
def callerText : String :=
  "program t\nfunction t(in args : vector of string) : integer\nlocal n : integer\nq(n)\nq(1)\n" ++
    "return n + args.size()\nend\nprocedure q(inout x : integer)\nlocal y : integer\ny = x\nend"

/-- The C++ text of the function. -/
def callerTarget : String :=
  "long long t(const std::vector<std::string>& args) \x7b\n  long long n\x7b\x7d;\n  q(n);\n" ++
    "  q(1LL);\n  return n + static_cast<long long>(algo_size(args));\n\x7d\n"

/-- A body that is wrong in itself. -/
def strayBody : List Instruction := [.evaluate (.literal (.boolean true))]

theorem revise_modular_caller : ∃ p f, Program.parse callerText = .ok p ∧ p.routines[0]? = some f ∧
    p.check.map (·.position.toEnd) = [90] ∧
    (p.revise 0 (fun _ => []) fun _ => strayBody).check.map (·.position.toEnd) = [90, 0] ∧
    (p.revise 0 (fun _ => []) fun _ => strayBody).checkRoutine f = p.checkRoutine f ∧
    Step.render (Target.routine ⟨p.revise 0 (fun _ => []) fun _ => strayBody, some f⟩ f) 2 =
      callerTarget := by
  have hany : (Program.parse callerText).toOption.any (fun p => p.routines[0]?.any fun f =>
      p.check.map (·.position.toEnd) = [90] ∧
      (p.revise 0 (fun _ => []) fun _ => strayBody).check.map (·.position.toEnd) = [90, 0] ∧
      Step.render (Target.routine ⟨p, some f⟩ f) 2 = callerTarget) = true := by decide +kernel
  obtain ⟨p, hp, hroutine⟩ := exists_ok_of_any hany
  obtain ⟨f, hf, hfacts⟩ := (Option.any_eq_true _ _).1 hroutine
  rw [decide_eq_true_iff] at hfacts
  obtain ⟨hcheck, hrevised, htext⟩ := hfacts
  obtain ⟨-, hroutine, -, -, -, hsteps⟩ := revise_modular p 0 (fun _ => []) (fun _ => strayBody) hf
  refine ⟨p, f, hp, hf, hcheck, hrevised, hroutine, ?_⟩
  rw [hsteps, htext]

end Program

end Primer

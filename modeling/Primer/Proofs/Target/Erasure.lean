import Primer.Build
import Primer.Proofs.RoundTrip.Program
import Primer.Proofs.Typing.Erasure
import Primer.Proofs.Typing.Scope

/-!
The C++ text does not depend on places: conversions are written by the types of operands, and these are
the same without places. As a program reads back from its canonical text in everything but places, the
program that is read back has the same problems and the same C++ text
(`Program.canonicalText_faithful`).
-/

namespace Primer

namespace Target

/-- Whether an expression stands in parentheses depends on its operator. -/
theorem parenthesize_erase (e : Expr) (text : String) :
    e.erase.parenthesize text = e.parenthesize text := by
  cases e <;> rfl

/-- A conversion is written by the types, which are given. -/
theorem converted_erase (e : Expr) (text : String) (type? common : Option Ty) :
    converted e.erase text type? common = converted e text type? common := by
  rw [converted, converted, parenthesize_erase]

/-! ## Expressions -/

section
variable (cx : Scope)

mutual
/-- Expressions are written alike. The types that decide on conversions do not depend on places. -/
theorem expr_erase : ∀ e : Expr, expr cx.erase e.erase = expr cx e
  | .literal _ => rfl
  | .path q => path_erase q
  | .not i e => by rw [Expr.erase, expr, expr, parenthesize_erase, expr_erase e]
  | .binary i o left right => by
    simp only [Expr.erase, expr, converted_erase, expr_erase left, expr_erase right,
      (cx.agree_typeOf left).toOption_eq, (cx.agree_typeOf right).toOption_eq]

theorem path_erase : ∀ q : Path, path cx.erase q.erase = path cx q
  | .var x => rfl
  | .call f args => by rw [Path.erase, path, path, exprs_erase args, Ident.name_erase]
  | .index base i => by rw [Path.erase, path, path, path_erase base, expr_erase i]
  | .member base x => by rw [Path.erase, path, path, path_erase base, Ident.name_erase]
  | .method base m args => by
    rw [Path.erase, path, path, path_erase base, exprs_erase args, Ident.name_erase]

theorem exprs_erase : ∀ es : List Expr, exprs cx.erase (Expr.eraseAll es) = exprs cx es
  | [] => rfl
  | e :: es => by rw [Expr.eraseAll, exprs, exprs, expr_erase e, exprs_erase es]
end

theorem operand_erase (e : Expr) : operand cx.erase e.erase = operand cx e := by
  rw [operand, operand, parenthesize_erase, expr_erase]

/-! ## Instructions -/

/-- The counter of a loop is declared with the same type, and its last value has the same type. -/
theorem forLoop_erase {body body' : List Instruction} (hbody : block cx.erase body' = block cx body)
    (i j : Position) (x : Ident) (first last : Expr) :
    instruction cx.erase (.forLoop i x.erase first.erase last.erase body') =
      instruction cx (.forLoop j x first last body) := by
  have hcounter : (cx.erase.lookup? x.name).map (·.type) = (cx.lookup? x.name).map (·.type) := by
    rw [cx.lookup?_erase, Option.map_map]
    congr 1
    funext b
    exact b.type_erase
  simp only [instruction, Ident.name_erase, converted_erase, expr_erase, hcounter,
    (cx.agree_typeOf last).toOption_eq, hbody]

mutual
/-- So are instructions, and what they declare. -/
theorem instruction_erase : ∀ i : Instruction, instruction cx.erase i.erase = instruction cx i
  | .print i es => by
    rw [Instruction.erase, instruction, instruction, List.map_map]
    simp only [Function.comp_def, operand_erase]
  | .read q => by rw [Instruction.erase, instruction, instruction, path_erase]
  | .result i e => by rw [Instruction.erase, instruction, instruction, expr_erase]
  | .evaluate e => by rw [Instruction.erase, instruction, instruction, expr_erase]
  | .assign i q e => by rw [Instruction.erase, instruction, instruction, path_erase, expr_erase]
  | .branch i c body next => by
    rw [Instruction.erase, instruction, instruction, expr_erase, block_erase body,
      alternatives_erase next]
  | .whileLoop i c body => by
    rw [Instruction.erase, instruction, instruction, expr_erase, block_erase body]
  | .untilLoop i body c => by
    rw [Instruction.erase, instruction, instruction, expr_erase, block_erase body]
  | .forLoop i x first last body => forLoop_erase cx (block_erase body) _ i x first last
  | .guarded i c j => by
    rw [Instruction.erase, instruction, instruction, expr_erase, instruction_erase j]

theorem alternatives_erase : ∀ a : Alternatives, alternatives cx.erase a.erase = alternatives cx a
  | .none => rfl
  | .otherwise body => by rw [Alternatives.erase, alternatives, alternatives, block_erase body]
  | .elsif i c body next => by
    rw [Alternatives.erase, alternatives, alternatives, expr_erase, block_erase body,
      alternatives_erase next]

theorem block_erase : ∀ is : List Instruction, block cx.erase (Instruction.eraseAll is) = block cx is
  | [] => rfl
  | i :: is => by rw [Instruction.eraseAll, block, block, instruction_erase i, block_erase is]
end

end

/-! ## Programs -/

theorem structureDeclaration_erase (s : Structure) :
    structureDeclaration s.erase = structureDeclaration s := by
  rw [structureDeclaration, structureDeclaration, Structure.erase, List.flatMap_map]
  rfl

theorem signature_erase (r : Routine) : signature r.erase = signature r := by
  rw [signature, signature, Routine.erase, List.map_map]
  rfl

/-- A routine is written in its own scope, which loses its places too. -/
theorem routine_erase (p : Program) (r : Routine) :
    routine ⟨p.erase, some r.erase⟩ r.erase = routine ⟨p, some r⟩ r := by
  have hbody := block_erase ⟨p, some r⟩ r.body
  rw [Instruction.eraseAll_eq_map] at hbody
  have hlocals : r.erase.locals.flatMap variableLine = r.locals.flatMap variableLine := by
    rw [Routine.erase, List.flatMap_map]
    rfl
  rw [routine, routine, signature_erase, hlocals, ← hbody]
  rfl

theorem gap_erase (p : Program) : Canonical.gap p.erase = Canonical.gap p := by
  rw [Canonical.gap, Canonical.gap, Program.erase, List.isEmpty_map, List.isEmpty_map]

/-- The declarations one after the other, each written alike. -/
theorem program_erase (withHelpers : Bool) (p : Program) :
    program withHelpers p.erase = program withHelpers p := by
  have hstructures : p.erase.structures = p.structures.map Structure.erase := rfl
  have hconstants : p.erase.constants = p.constants.map Constant.erase := rfl
  have hglobals : p.erase.globals = p.globals.map Symbol.erase := rfl
  have hvalue (c : Constant) : expr ⟨p.erase, none⟩ c.erase.value = expr ⟨p, none⟩ c.value :=
    expr_erase ⟨p, none⟩ c.value
  rw [program, program, gap_erase, p.routines_erase, hstructures, hconstants, hglobals]
  simp only [List.flatMap_map, structureDeclaration_erase, signature_erase, routine_erase, hvalue,
    List.isEmpty_map]
  rfl

end Target

namespace Program

/-- The text of a program has nothing of its places. -/
theorem targetText_erase (p : Program) (options : TargetOptions) :
    p.erase.targetText options = p.targetText options := by
  rw [targetText, targetText, Target.program_erase]

section
variable {p q : Program} (h : q.erase = p.erase)
include h

/-- Programs that are equal but for places have the same problems. -/
theorem causes_eq_of_erase : q.check.map (·.cause) = p.check.map (·.cause) := by
  rw [← q.causes_erase, h, p.causes_erase]

theorem check_eq_nil_of_erase : q.check = [] ↔ p.check = [] := by
  rw [← List.map_eq_nil_iff, causes_eq_of_erase h, List.map_eq_nil_iff]

theorem targetText_eq_of_erase (options : TargetOptions) :
    q.targetText options = p.targetText options := by
  rw [← q.targetText_erase, h, p.targetText_erase]

end

/-- A text is built if it is read and nothing is wrong with the program. -/
theorem exists_build_iff {text : String} {p : Program} (h : Program.parse text = .ok p) :
    (∃ q, Program.build text = .ok q) ↔ p.check = [] := by
  unfold Program.build
  rw [h]
  by_cases hcheck : p.check = []
  · simp [hcheck]
  · simp [hcheck]

/-- The canonical text of a program that was read, if no real in it is infinite, reads as a program with
the same problems in the same order, which is built exactly if the first one is, and which has the same
C++ text. -/
theorem canonicalText_faithful {s : String} {p : Program} (h : Program.parse s = .ok p)
    (hfin : ∀ x, .literal (.real x) ∈ p.nodes → x.isFinite = true) :
    ∃ q, Program.parse p.canonicalText = .ok q ∧
      q.check.map (·.cause) = p.check.map (·.cause) ∧
      ((∃ r, Program.build p.canonicalText = .ok r) ↔ ∃ r, Program.build s = .ok r) ∧
      ∀ options, q.targetText options = p.targetText options := by
  obtain ⟨q, m, hread, herase⟩ := reads_canonicalText (legal_of_parse h) hfin
  have hq : Program.parse p.canonicalText = .ok q := by
    rw [Program.parse, Parser.read, Cursor.ofString_eq, hread]
  refine ⟨q, hq, causes_eq_of_erase herase, ?_, targetText_eq_of_erase herase⟩
  rw [exists_build_iff hq, exists_build_iff h, check_eq_nil_of_erase herase]

/-- A text without space where none is needed, with numbers of different types and an unknown name. -/
def denseText : String :=
  "program p\nconstant c:real=-0.25//low\nfunction p(in args:vector of string):integer\n" ++
    "print args.size()*c,d\nend"

theorem canonicalText_faithful_dense : ∃ p q, Program.parse denseText = .ok p ∧
    Program.parse p.canonicalText = .ok q ∧ q.check.map (·.cause) = [.undefinedIdentifier "d"] ∧
    (¬ ∃ r, Program.build p.canonicalText = .ok r) ∧
    ∀ options, q.targetText options = p.targetText options := by
  have hany : (Program.parse denseText).toOption.any (fun p => p.nodes.all Expr.isFinite &&
      p.check.map (·.cause) == [.undefinedIdentifier "d"]) = true := by decide +kernel
  obtain ⟨p, hp, hcheck⟩ := exists_ok_of_any hany
  rw [Bool.and_eq_true, List.all_eq_true, beq_iff_eq] at hcheck
  obtain ⟨hfin, hcauses⟩ := hcheck
  obtain ⟨q, hq, hsame, hbuild, htext⟩ := canonicalText_faithful hp fun x hx => hfin _ hx
  refine ⟨p, q, hp, hq, hsame.trans hcauses, ?_, htext⟩
  rw [hbuild, exists_build_iff hp]
  intro hnone
  rw [hnone] at hcauses
  cases hcauses

end Program

end Primer

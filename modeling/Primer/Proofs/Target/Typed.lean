import Primer.Proofs.Typing.Check
import Primer.Proofs.Typing.Nodes
import Primer.Target.Program

/-!
In a program without problems, the C++ text of no expression depends on a missing type. Where an operand
has no type, or a counter no binding, the text leaves conversions out; the equations here are those of the
other case, in which both types are at hand.
-/

namespace Primer

namespace Target

variable {cx : Scope}

/-- The text of an operation on operands of the types `l` and `r`, each converted to the type that the
operation works on. -/
def operation (cx : Scope) (o : Operator) (left right : Expr) (l r : Ty) : String :=
  converted left (expr cx left) (some l) (o.operandType? l r) ++ " " ++ operator o ++ " " ++
    converted right (expr cx right) (some r) (o.operandType? l r)

/-- The first line of a loop whose counter and last value have the types `l` and `r`. -/
def loopHead (cx : Scope) (counter : Ident) (first last : Expr) (l r : Ty) : String :=
  let x := name counter.name
  let common := Operator.lessOrEqual.operandType? l r
  let test := ((conversion? (some l) common).map (cast · x)).getD x
  "for (" ++ x ++ " = " ++ expr cx first ++ "; " ++ test ++ " <= " ++
    converted last (expr cx last) (some r) common ++ "; ++" ++ x ++ ") \x7b"

theorem expr_binary {i : Position} {o : Operator} {left right : Expr} {l r : Ty}
    (hl : cx.typeOf left = .ok l) (hr : cx.typeOf right = .ok r) :
    expr cx (.binary i o left right) = operation cx o left right l r := by
  rw [expr, hl, hr]
  rfl

theorem instruction_forLoop {i : Position} {x : Ident} {first last : Expr}
    {body : List Instruction} {b : Binding} {t : Ty} (hx : cx.lookup? x.name = some b)
    (hlast : cx.typeOf last = .ok t) : instruction cx (.forLoop i x first last body) =
      Step.line (loopHead cx x first last b.type t) ++ [.indented (block cx body)] ++
        Step.line "\x7d" := by
  rw [instruction, hx, hlast]
  rfl

/-- The expressions have types in the scope, and the operations among them are written with the types
of their operands. -/
structure Typed (cx : Scope) (nodes : List Expr) : Prop where
  types : ∀ e ∈ nodes, ∃ t, cx.typeOf e = .ok t
  operations : ∀ i o left right, .binary i o left right ∈ nodes →
    ∃ l r, cx.typeOf left = .ok l ∧ cx.typeOf right = .ok r ∧
      expr cx (.binary i o left right) = operation cx o left right l r

theorem Typed.of_hasType (hcx : cx.Distinct) {nodes : List Expr}
    (h : ∀ e ∈ nodes, ∃ t, cx.HasType e t) : Typed cx nodes where
  types e he := by
    obtain ⟨t, ht⟩ := h e he
    exact ⟨t, (Scope.typeOf_iff hcx).2 ht⟩
  operations i o left right he := by
    obtain ⟨t, ht⟩ := h _ he
    cases ht with
    | binary hl hr ho =>
      have hl := (Scope.typeOf_iff hcx).2 hl
      have hr := (Scope.typeOf_iff hcx).2 hr
      exact ⟨_, _, hl, hr, expr_binary hl hr⟩

/-! ## The scopes of a program's parts -/

section
variable (withHelpers : Bool) {p : Program}

theorem infix_flatMap {a : α} {l : List α} (h : a ∈ l) (f : α → List β) : f a <:+: l.flatMap f := by
  rw [List.flatMap_def]
  exact List.infix_of_mem_flatten (List.mem_map_of_mem h)

/-- The value of a constant is written outside of all routines. -/
theorem constant_infix {c : Constant} (hc : c ∈ p.constants) :
    Step.line ("const " ++ declaration c.symbol ++ " = " ++ expr ⟨p, none⟩ c.value ++ ";") <:+:
      program withHelpers p := by
  refine (infix_flatMap hc fun c => Step.line
    ("const " ++ declaration c.symbol ++ " = " ++ expr ⟨p, none⟩ c.value ++ ";")).trans ?_
  simp only [program, List.append_assoc]
  iterate 6 refine List.infix_append_of_infix_right ?_
  exact List.infix_append_of_infix_left List.infix_rfl

/-- A routine is written in its own scope. -/
theorem routine_infix {r : Routine} (hr : r ∈ p.routines) :
    routine ⟨p, some r⟩ r <:+: program withHelpers p := by
  have hline : routine ⟨p, some r⟩ r <:+: .newline :: routine ⟨p, some r⟩ r :=
    (List.suffix_cons _ _).isInfix
  refine hline.trans ((infix_flatMap hr fun r => .newline :: routine ⟨p, some r⟩ r).trans ?_)
  exact List.infix_append _ _ _

end

end Target

namespace Program

variable {p : Program}

theorem WellTyped.constant_nodes (h : p.WellTyped) {c : Constant} (hc : c ∈ p.constants) :
    ∀ e ∈ c.value.nodes, ∃ t, Scope.HasType ⟨p, none⟩ e t := by
  obtain ⟨before, after, hsplit⟩ := List.append_of_mem hc
  obtain ⟨-, t, ht, -⟩ := h.constants before c after hsplit
  exact ht.nodes

/-- In a program without problems, every expression has a type in the scope in which its C++ text is
written, the path of an instruction has one or gives no value, and every counter is bound. So no
conversion is left out of the text for lack of a type. -/
theorem target_typed (h : p.check = []) (withHelpers : Bool) :
    (∀ c ∈ p.constants,
      Step.line ("const " ++ Target.declaration c.symbol ++ " = " ++
        Target.expr ⟨p, none⟩ c.value ++ ";") <:+: Target.program withHelpers p ∧
      Target.Typed ⟨p, none⟩ c.value.nodes) ∧
    ∀ r ∈ p.routines,
      Target.routine ⟨p, some r⟩ r <:+: Target.program withHelpers p ∧
      Target.Typed ⟨p, some r⟩ r.nodes ∧
      (∀ e, .evaluate e ∈ r.instructions →
        ∃ q t?, e = .path q ∧ Scope.typeOfPath ⟨p, some r⟩ q = .ok t?) ∧
      ∀ i x first last body, .forLoop i x first last body ∈ r.instructions →
        ∃ b t, Scope.lookup? ⟨p, some r⟩ x.name = some b ∧ Scope.typeOf ⟨p, some r⟩ last = .ok t ∧
          Target.instruction ⟨p, some r⟩ (.forLoop i x first last body) =
            Step.line (Target.loopHead ⟨p, some r⟩ x first last b.type t) ++
              [.indented (Target.block ⟨p, some r⟩ body)] ++ Step.line "\x7d" := by
  have hp := WellTyped.of_check h
  refine ⟨fun c hc => ⟨Target.constant_infix withHelpers hc, ?_⟩, fun r hr => ?_⟩
  · exact .of_hasType hp.distinct.scope_none (hp.constant_nodes hc)
  have hcx := hp.distinct.scope_some hr
  refine ⟨Target.routine_infix withHelpers hr, .of_hasType hcx (hp.nodes hr), fun e he => ?_,
    fun i x first last body hi => ?_⟩
  · cases hp.instructions hr _ he with
    | evaluate _ hq => exact ⟨_, _, rfl, (Scope.typeOfPath_iff hcx).2 hq⟩
  · cases hp.instructions hr _ hi with
    | forLoop hx _ _ _ _ hlast =>
      have hx := (Scope.lookup?_iff_binds hcx).2 hx
      have hlast := (Scope.typeOf_iff hcx).2 hlast
      exact ⟨_, _, hx, hlast, Target.instruction_forLoop hx hlast⟩

/-- A program with operations on numbers of different types: in the value of a constant, in what a loop
prints, and between the counter of the loop, an integer, and its last value, a natural number. -/
def mixedProgram : Program :=
  let ident (name : String) : Ident := ⟨default, name⟩
  let n : Expr := .path (.var (ident "n"))
  let size : Expr := .path (.method (.var (ident "args")) (ident "size") [])
  { ident := ident "count"
    structures := []
    constants := [⟨⟨ident "least", .real⟩,
      .binary default .divide (.literal (.integer 1)) (.literal (.natural greatestNatural))⟩]
    globals := []
    functions := [{
      ident := ident "count"
      params := [⟨.input, ident "args", .vector .string⟩]
      locals := [⟨ident "n", .integer⟩]
      body := [
        .forLoop default (ident "n") (.literal (.integer 1)) size
          [.print default [.binary default .multiply (.binary default .add n size) n]],
        .evaluate size,
        .result default n]
      result := some .integer }]
    procedures := [] }

theorem target_typed_mixed : mixedProgram.check = [] ∧
    (∀ c ∈ mixedProgram.constants, Target.Typed ⟨mixedProgram, none⟩ c.value.nodes) ∧
    ∀ r ∈ mixedProgram.routines, Target.Typed ⟨mixedProgram, some r⟩ r.nodes := by
  have hcheck : mixedProgram.check = [] := by decide +kernel
  obtain ⟨hconstants, hroutines⟩ := target_typed hcheck true
  exact ⟨hcheck, fun c hc => (hconstants c hc).2, fun r hr => (hroutines r hr).2.1⟩

end Program

end Primer

import Primer.Proofs.Syntax.Erasure
import Primer.Typing.Check

/-!
Checking does not depend on places. A program without its places is checked as the program itself is,
step by step: names stand for the same declarations, expressions have the same types, and each check
that fails does so for the same cause, at some other place. Main statement: `Program.causes_erase`.
-/

namespace Primer

/-! ## Checks that end alike -/

/-- Both checks succeed, with values that `R` relates, or both fail for the same cause. -/
inductive Agree (R : α → β → Prop) : Except Diagnostic α → Except Diagnostic β → Prop where
  | ok (h : R a b) : Agree R (.ok a) (.ok b)
  | error (h : d.cause = e.cause) : Agree R (.error d) (.error e)

namespace Agree

variable {R : α → β → Prop} {S : γ → δ → Prop} {x : Except Diagnostic α} {y : Except Diagnostic β}

theorem pure {a : α} {b : β} (h : R a b) : Agree R (pure a) (pure b) := .ok h

/-- Checks that agree so far and go on alike agree. -/
theorem bind {f : α → Except Diagnostic γ} {g : β → Except Diagnostic δ} (h : Agree R x y)
    (hf : ∀ a b, R a b → Agree S (f a) (g b)) : Agree S (x >>= f) (y >>= g) := by
  cases h with
  | ok h => exact hf _ _ h
  | error h => exact .error h

/-- The same where the values are equal and not only related, as types are. -/
theorem bind_eq {x y : Except Diagnostic α} {f : α → Except Diagnostic γ}
    {g : α → Except Diagnostic δ} (h : Agree Eq x y) (hf : ∀ a, Agree S (f a) (g a)) :
    Agree S (x >>= f) (y >>= g) :=
  h.bind fun a _ hab => hab ▸ hf a

/-- What is looked up without its place was looked up with one. -/
theorem demand_map {f : α → β} {a? : Option α} {b? : Option β} {i j : Position}
    {cause : Diagnostic.Cause} (h : b? = a?.map f) :
    Agree (fun b a => b = f a) (demand b? i cause) (demand a? j cause) := by
  subst h
  cases a? with
  | some a => exact .ok rfl
  | none => exact .error rfl

theorem demand_self {a? : Option α} {i j : Position} {cause : Diagnostic.Cause} :
    Agree Eq (demand a? i cause) (demand a? j cause) := by
  cases a? with
  | some a => exact .ok rfl
  | none => exact .error rfl

/-- A condition that does not depend on places is checked with the same outcome at any two. -/
theorem require {c : Bool} {i j : Position} {cause : Diagnostic.Cause} :
    Agree Eq (require c i cause) (require c j cause) := by
  cases c with
  | true => exact .ok rfl
  | false => exact .error rfl

/-- What was found may be related only; once it is dropped, the checks agree outright. -/
theorem discard (h : Agree R x y) : Agree Eq (discard x) (discard y) :=
  h.bind fun _ _ _ => .ok rfl

/-- Agreement, as it shows in the list of problems. -/
theorem causes_reported {x y : Except Diagnostic α} (h : Agree Eq x y) :
    (reported x).map (·.cause) = (reported y).map (·.cause) := by
  cases h with
  | ok h => rfl
  | error h => exact congrArg (fun cause => [cause]) h

theorem toOption_eq {x y : Except Diagnostic α} (h : Agree Eq x y) : x.toOption = y.toOption := by
  cases h with
  | ok h => exact congrArg some h
  | error h => rfl

end Agree

/-! ## Names -/

@[simp] theorem Ident.name_erase (x : Ident) : x.erase.name = x.name := rfl

@[simp] theorem Symbol.name_erase (s : Symbol) : s.erase.name = s.name := rfl

@[simp] theorem Parameter.name_erase (p : Parameter) : p.erase.name = p.name := rfl

@[simp] theorem Constant.name_erase (c : Constant) : c.erase.name = c.name := rfl

@[simp] theorem Structure.name_erase (s : Structure) : s.erase.name = s.name := rfl

@[simp] theorem Routine.name_erase (r : Routine) : r.erase.name = r.name := rfl

@[simp] theorem Program.name_erase (p : Program) : p.erase.name = p.name := rfl

/-- The first item of a name is found at the same index. -/
theorem find?_map_erase {l : List α} {erase : α → α} {key : α → String}
    (h : ∀ a, key (erase a) = key a) (name : String) :
    (l.map erase).find? (key · == name) = (l.find? (key · == name)).map erase := by
  rw [List.find?_map]
  congr 2
  funext a
  rw [Function.comp_apply, h]

theorem Structure.member?_erase (s : Structure) (name : String) :
    s.erase.member? name = (s.member? name).map Symbol.erase :=
  find?_map_erase Symbol.name_erase name

namespace Program

variable (p : Program) (name : String)

/-- The look-ups of a program find what they found before, without its places. So it is for each of the
collections. -/
theorem structure?_erase : p.erase.structure? name = (p.structure? name).map Structure.erase :=
  find?_map_erase Structure.name_erase name

theorem constant?_erase : p.erase.constant? name = (p.constant? name).map Constant.erase :=
  find?_map_erase Constant.name_erase name

theorem global?_erase : p.erase.global? name = (p.global? name).map Symbol.erase :=
  find?_map_erase Symbol.name_erase name

theorem function?_erase : p.erase.function? name = (p.function? name).map Routine.erase :=
  find?_map_erase Routine.name_erase name

theorem procedure?_erase : p.erase.procedure? name = (p.procedure? name).map Routine.erase :=
  find?_map_erase Routine.name_erase name

/-- Procedures are searched only where no function is found, which does not depend on places. -/
theorem routine?_erase : p.erase.routine? name = (p.routine? name).map Routine.erase := by
  rw [routine?, routine?, function?_erase, procedure?_erase]
  cases p.function? name <;> rfl

theorem routines_erase : p.erase.routines = p.routines.map Routine.erase := List.map_append.symm

end Program

/-- What a name stands for, without its places. -/
def Binding.erase : Binding → Binding
  | .ofParameter p => .ofParameter p.erase
  | .ofLocal s => .ofLocal s.erase
  | .ofGlobal s => .ofGlobal s.erase
  | .ofConstant c => .ofConstant c.erase

@[simp] theorem Binding.type_erase (b : Binding) : b.erase.type = b.type := by
  cases b <;> rfl

@[simp] theorem Binding.isWritable_erase (b : Binding) : b.erase.isWritable = b.isWritable := by
  cases b <;> rfl

namespace Path

@[simp] theorem root_erase (q : Path) : q.erase.root = q.root.erase := by
  fun_induction Path.root q with
  | case1 x => rfl
  | case2 x args => rfl
  | case3 base i ih => exact ih
  | case4 base x ih => exact ih
  | case5 base m args ih => exact ih

@[simp] theorem last_erase (q : Path) : q.erase.last = q.last.erase := by
  fun_induction Path.last q with
  | case5 base i ih => exact ih
  | _ => rfl

/-- Whether a path denotes storage can be seen from its form. -/
@[simp] theorem isStorage_erase (q : Path) : q.erase.isStorage = q.isStorage := by
  fun_induction Path.isStorage q with
  | case4 base i ih => exact ih
  | case5 base x ih => exact ih
  | _ => rfl

@[simp] theorem endsInCall_erase (q : Path) : q.erase.endsInCall = q.endsInCall := by
  cases q <;> rfl

end Path

namespace Scope

/-- The program and the routine without their places. -/
def erase (cx : Scope) : Scope := ⟨cx.program.erase, cx.routine.map Routine.erase⟩

variable (cx : Scope)

/-- A name stands for the same declaration in a scope without places. -/
theorem lookup?_erase (name : String) :
    cx.erase.lookup? name = (cx.lookup? name).map Binding.erase := by
  have hparam : cx.erase.routine.bind (·.param? name) =
      (cx.routine.bind (·.param? name)).map Parameter.erase := by
    cases hr : cx.routine with
    | none => rw [erase, hr]; rfl
    | some r => rw [erase, hr]; exact find?_map_erase Parameter.name_erase name
  have hlocal : cx.erase.routine.bind (·.local? name) =
      (cx.routine.bind (·.local? name)).map Symbol.erase := by
    cases hr : cx.routine with
    | none => rw [erase, hr]; rfl
    | some r => rw [erase, hr]; exact find?_map_erase Symbol.name_erase name
  have hglobal := cx.program.global?_erase name
  have hconstant := cx.program.constant?_erase name
  rw [lookup?, lookup?, hparam, hlocal]
  change (_ <|> _ <|> (cx.program.erase.global? name).map _ <|>
    (cx.program.erase.constant? name).map _) = _
  rw [hglobal, hconstant]
  -- the first of the four that is found is found in both
  cases cx.routine.bind (·.param? name) <;> cases cx.routine.bind (·.local? name) <;>
    cases cx.program.global? name <;> cases cx.program.constant? name <;> rfl

/-- Whether a path may be written depends on its form and on what its root stands for. -/
theorem isWritable_erase (q : Path) : cx.erase.isWritable q.erase = cx.isWritable q := by
  rw [isWritable, isWritable, Path.isStorage_erase, Path.root_erase, Ident.name_erase,
    lookup?_erase, Option.map_map]
  congr 3
  funext b
  exact b.isWritable_erase

/-! ## Types -/

/-- Three look-ups in a row: each finds the same or fails for the same cause. -/
theorem agree_memberType (t : Ty) (x : Ident) :
    Agree Eq (cx.erase.memberType t x.erase) (cx.memberType t x) := by
  refine Agree.demand_self.bind_eq fun name => ?_
  refine (Agree.demand_map (cx.program.structure?_erase name)).bind ?_
  rintro _ s rfl
  refine (Agree.demand_map (s.member?_erase x.name)).bind ?_
  rintro _ m rfl
  exact .pure rfl

mutual
/-- Types do not depend on places. Each case goes through the steps of the check in their order, because
the first that fails decides on the cause. -/
theorem agree_typeOf : ∀ e : Expr, Agree Eq (cx.erase.typeOf e.erase) (cx.typeOf e)
  | .literal (.string _) => .pure rfl
  | .literal (.real _) => .pure rfl
  | .literal (.integer _) => .pure rfl
  | .literal (.natural _) => .pure rfl
  | .literal (.boolean _) => .pure rfl
  | .path q => by
    rw [Expr.erase, typeOf, typeOf, Path.root_erase]
    refine (agree_typeOfPath q).bind_eq fun t? => ?_
    exact .demand_self
  | .not i e => by
    rw [Expr.erase, typeOf, typeOf]
    refine (agree_typeOf e).bind_eq fun t => ?_
    exact .demand_self
  | .binary i o left right => by
    rw [Expr.erase, typeOf, typeOf]
    refine (agree_typeOf left).bind_eq fun l => ?_
    refine (agree_typeOf right).bind_eq fun r => ?_
    exact .demand_self

theorem agree_typeOfPath : ∀ q : Path, Agree Eq (cx.erase.typeOfPath q.erase) (cx.typeOfPath q)
  | .var x => by
    rw [Path.erase, typeOfPath, typeOfPath]
    refine (Agree.demand_map (cx.lookup?_erase x.name)).bind ?_
    rintro _ b rfl
    exact .pure (by rw [b.type_erase])
  | .call f args => by
    rw [Path.erase, typeOfPath, typeOfPath]
    refine (Agree.demand_map (cx.program.routine?_erase f.name)).bind ?_
    rintro _ r rfl
    have hparams : r.erase.params = r.params.map Parameter.erase := rfl
    rw [hparams, List.length_map, Expr.eraseAll_eq_map, List.length_map, r.name_erase]
    refine Agree.require.bind_eq fun _ => ?_
    exact (agree_checkArguments f r.params args).bind_eq fun _ => .pure rfl
  | .index base i => by
    rw [Path.erase, typeOfPath, typeOfPath, Path.last_erase]
    refine (agree_typeOfPath base).bind_eq fun t? => ?_
    refine Agree.demand_self.bind_eq fun t => ?_
    refine Agree.demand_self.bind_eq fun element => ?_
    refine (agree_typeOf i).bind_eq fun k => ?_
    exact Agree.require.bind_eq fun _ => .pure rfl
  | .member base x => by
    rw [Path.erase, typeOfPath, typeOfPath, Path.last_erase]
    refine (agree_typeOfPath base).bind_eq fun t? => ?_
    refine Agree.demand_self.bind_eq fun t => ?_
    refine (cx.agree_memberType t x).bind_eq fun m => ?_
    exact .pure rfl
  | .method base m args => by
    rw [Path.erase, typeOfPath, typeOfPath, Path.last_erase, Expr.eraseAll_eq_map, List.length_map,
      isWritable_erase]
    refine (agree_typeOfPath base).bind_eq fun t? => ?_
    refine Agree.demand_self.bind_eq fun t => ?_
    refine Agree.demand_self.bind_eq fun element => ?_
    refine Agree.demand_self.bind_eq fun method => ?_
    refine Agree.require.bind_eq fun _ => ?_
    refine (agree_checkMethodArguments m element method.params args).bind_eq fun _ => ?_
    exact Agree.require.bind_eq fun _ => .pure rfl

/-- Surplus parameters and arguments are not looked at; their number was checked before. -/
theorem agree_checkArguments (f : Ident) : ∀ (ps : List Parameter) (args : List Expr),
    Agree Eq (cx.erase.checkArguments f.erase (ps.map Parameter.erase) (args.map Expr.erase))
      (cx.checkArguments f ps args)
  | p :: ps, arg :: args => by
    have hrest := agree_checkArguments f ps args
    have hmode : p.erase.mode.isWritable = p.mode.isWritable := rfl
    rw [List.map_cons, List.map_cons]
    -- the equations of the function ask for the form of the argument before the mode
    unfold checkArguments
    dsimp only
    rw [hmode]
    split
    · cases arg with
      | path target =>
        rw [Expr.erase]
        dsimp only
        rw [isWritable_erase, Path.root_erase]
        refine Agree.require.bind_eq fun _ => (agree_typeOfPath target).bind_eq fun t? => ?_
        refine Agree.demand_self.bind_eq fun t => ?_
        exact Agree.require.bind_eq fun _ => hrest
      | literal | not | binary => exact Agree.require.bind_eq fun _ => hrest
    · refine (agree_typeOf arg).bind_eq fun t => ?_
      exact Agree.require.bind_eq fun _ => hrest
  | [], _ | _ :: _, [] => by
    unfold checkArguments
    exact .ok rfl

theorem agree_checkMethodArguments (m : Ident) (element : Ty) :
    ∀ (ps : List Method.Param) (args : List Expr),
    Agree Eq (cx.erase.checkMethodArguments m.erase element ps (args.map Expr.erase))
      (cx.checkMethodArguments m element ps args)
  | p :: ps, arg :: args => by
    have hrest := agree_checkMethodArguments m element ps args
    rw [List.map_cons]
    unfold checkMethodArguments
    refine (agree_typeOf arg).bind_eq fun t => ?_
    cases p with
    | index | element => exact Agree.require.bind_eq fun _ => hrest
  | [], _ | _ :: _, [] => by
    unfold checkMethodArguments
    exact .ok rfl
end

theorem agree_expectType (e : Expr) (t : Ty) (i j : Position) :
    Agree Eq (cx.erase.expectType e.erase t i) (cx.expectType e t j) := by
  refine (cx.agree_typeOf e).bind_eq fun given => ?_
  exact Agree.require.bind_eq fun _ => .pure rfl

/-- The target of an assignment, or of what is read. -/
theorem agree_writableType (q : Path) :
    Agree Eq (cx.erase.writableType q.erase) (cx.writableType q) := by
  rw [writableType, writableType, isWritable_erase, Path.root_erase]
  refine (cx.agree_typeOfPath q).bind_eq fun t? => ?_
  refine Agree.demand_self.bind_eq fun t => ?_
  exact Agree.require.bind_eq fun _ => .pure rfl

/-! ## Instructions -/

/-- The position for a condition without one of its own is passed from outside and may differ. -/
theorem causes_checkCondition (c : Expr) (i j : Position) :
    (cx.erase.checkCondition c.erase i).map (·.cause) = (cx.checkCondition c j).map (·.cause) := by
  refine ((cx.agree_typeOf c).bind_eq fun t => ?_).causes_reported
  exact .require

theorem causes_checkBound (e : Expr) (i j : Position) :
    (cx.erase.checkBound e.erase i).map (·.cause) = (cx.checkBound e j).map (·.cause) := by
  refine ((cx.agree_typeOf e).bind_eq fun t => ?_).causes_reported
  exact .require

/-- The counter of a loop is looked up by its name alone. -/
theorem causes_checkCounter (x : Ident) :
    (cx.erase.checkCounter x.erase).map (·.cause) = (cx.checkCounter x).map (·.cause) := by
  rw [checkCounter, checkCounter, Ident.name_erase, lookup?_erase]
  cases cx.lookup? x.name with
  | none => rfl
  | some b =>
    rw [Option.map_some]
    dsimp only
    rw [b.isWritable_erase, b.type_erase]
    split <;> rfl

theorem causes_print (es : List Expr) (i j : Position) :
    (cx.erase.checkInstruction (.print i (es.map Expr.erase))).map (·.cause) =
      (cx.checkInstruction (.print j es)).map (·.cause) := by
  rw [checkInstruction, checkInstruction, List.flatMap_map, List.map_flatMap, List.map_flatMap]
  congr 1
  funext e
  refine ((cx.agree_typeOf e).bind_eq fun t => ?_).causes_reported
  exact .require

/-- The type and the name of the routine do not depend on places. -/
theorem causes_result (e : Expr) (i j : Position) :
    (cx.erase.checkInstruction (.result i e.erase)).map (·.cause) =
      (cx.checkInstruction (.result j e)).map (·.cause) := by
  have hresult : cx.erase.routine.bind (·.result) = cx.routine.bind (·.result) := by
    rw [erase]
    cases cx.routine <;> rfl
  have hname : (cx.erase.routine.map (·.name)).getD "" = (cx.routine.map (·.name)).getD "" := by
    rw [erase]
    cases cx.routine <;> rfl
  rw [checkInstruction, checkInstruction, hresult, hname]
  cases cx.routine.bind (·.result) with
  | none => exact Agree.require.causes_reported
  | some t => exact (cx.agree_expectType e t i j).discard.causes_reported

theorem causes_evaluate (e : Expr) :
    (cx.erase.checkInstruction (.evaluate e.erase)).map (·.cause) =
      (cx.checkInstruction (.evaluate e)).map (·.cause) := by
  rw [checkInstruction, checkInstruction]
  apply Agree.causes_reported
  cases e with
  | path q =>
    simp only [Expr.erase, Expr.path?, Path.endsInCall_erase]
    split
    · exact (cx.agree_typeOfPath q).discard
    · exact .require
  | literal | not | binary => exact .require

mutual
/-- By recursion on the instruction. The parts of an instruction are checked independently of each other,
so their causes are put together in order. -/
theorem causes_checkInstruction : ∀ i : Instruction,
    (cx.erase.checkInstruction i.erase).map (·.cause) = (cx.checkInstruction i).map (·.cause)
  | .print i es => cx.causes_print es _ i
  | .read q => by
    rw [Instruction.erase, checkInstruction, checkInstruction]
    refine ((cx.agree_writableType q).bind_eq fun t => ?_).causes_reported
    exact .require
  | .result i e => cx.causes_result e _ i
  | .evaluate e => cx.causes_evaluate e
  | .assign i q e => by
    rw [Instruction.erase, checkInstruction, checkInstruction]
    refine ((cx.agree_writableType q).bind_eq fun t => ?_).causes_reported
    exact cx.agree_expectType e t _ i
  | .branch i c body next => by
    simp only [Instruction.erase, checkInstruction, List.map_append,
      cx.causes_checkCondition c default i, causes_checkBlock body, causes_checkAlternatives next]
  | .whileLoop i c body => by
    simp only [Instruction.erase, checkInstruction, List.map_append,
      cx.causes_checkCondition c default i, causes_checkBlock body]
  | .untilLoop i body c => by
    simp only [Instruction.erase, checkInstruction, List.map_append,
      cx.causes_checkCondition c default i, causes_checkBlock body]
  | .forLoop i x first last body => by
    simp only [Instruction.erase, checkInstruction, List.map_append, causes_checkCounter,
      cx.causes_checkBound first default i, cx.causes_checkBound last default i,
      causes_checkBlock body]
  | .guarded i c j => by
    simp only [Instruction.erase, checkInstruction, List.map_append,
      cx.causes_checkCondition c default i, causes_checkInstruction j]

theorem causes_checkAlternatives : ∀ a : Alternatives,
    (cx.erase.checkAlternatives a.erase).map (·.cause) = (cx.checkAlternatives a).map (·.cause)
  | .none => rfl
  | .otherwise body => causes_checkBlock body
  | .elsif i c body next => by
    simp only [Alternatives.erase, checkAlternatives, List.map_append,
      cx.causes_checkCondition c default i, causes_checkBlock body, causes_checkAlternatives next]

theorem causes_checkBlock : ∀ is : List Instruction,
    (cx.erase.checkBlock (Instruction.eraseAll is)).map (·.cause) = (cx.checkBlock is).map (·.cause)
  | [] => rfl
  | i :: is => by
    simp only [Instruction.eraseAll, checkBlock, List.map_append, causes_checkInstruction i,
      causes_checkBlock is]
end

end Scope

/-! ## Programs -/

/-- Names count as repeated by their text. -/
theorem repeated_map_erase (seen : List String) (xs : List Ident) :
    repeated seen (xs.map Ident.erase) = (repeated seen xs).map Ident.erase := by
  induction xs generalizing seen with
  | nil => rfl
  | cons x xs ih =>
    rw [List.map_cons, repeated, repeated, Ident.name_erase]
    split
    · rw [ih, List.map_cons]
    · exact ih _

/-- Each repetition is reported, at the later name. -/
theorem causes_checkUnique (xs : List Ident) :
    (checkUnique (xs.map Ident.erase)).map (·.cause) = (checkUnique xs).map (·.cause) := by
  rw [checkUnique, checkUnique, repeated_map_erase, List.map_map, List.map_map, List.map_map]
  rfl

/-- Of all paths only the name of an earlier constant passes. -/
theorem agree_checkConstantExpr_path (earlier : List Constant) (q : Path) :
    Agree Eq (checkConstantExpr (earlier.map Constant.erase) (.path q.erase))
      (checkConstantExpr earlier (.path q)) := by
  have hroot := congrArg Ident.name q.root_erase
  cases q with
  | var x =>
    have hany : (earlier.map Constant.erase).any (·.name == x.erase.name) =
        earlier.any (·.name == x.name) := List.any_map
    rw [Path.erase, checkConstantExpr, checkConstantExpr, hany]
    exact .require
  | call | index | member | method =>
    simp only [Path.erase, checkConstantExpr] at hroot ⊢
    rw [hroot]
    exact .require

/-- The value of a constant is checked from left to right up to the first problem. -/
theorem agree_checkConstantExpr (earlier : List Constant) : ∀ e : Expr,
    Agree Eq (checkConstantExpr (earlier.map Constant.erase) e.erase) (checkConstantExpr earlier e)
  | .literal _ => .ok rfl
  | .path q => agree_checkConstantExpr_path earlier q
  | .not _ e => agree_checkConstantExpr earlier e
  | .binary _ _ left right =>
    (agree_checkConstantExpr earlier left).bind_eq fun _ => agree_checkConstantExpr earlier right

namespace Program

variable (p : Program)

/-- A type stands nowhere; its problem is reported at the name that it is given to. -/
theorem causes_checkType (i j : Position) (t : Ty) :
    (p.erase.checkType i t).map (·.cause) = (p.checkType j t).map (·.cause) := by
  induction t with
  | vector element ih => exact ih
  | named name =>
    rw [checkType, checkType, structure?_erase, Option.isSome_map]
    split <;> rfl
  | boolean | integer | natural | real | char | string => rfl

theorem causes_checkSymbol (s : Symbol) :
    (p.erase.checkSymbol s.erase).map (·.cause) = (p.checkSymbol s).map (·.cause) :=
  p.causes_checkType _ _ s.type

theorem causes_checkStructure (s : Structure) :
    (p.erase.checkStructure s.erase).map (·.cause) = (p.checkStructure s).map (·.cause) := by
  have hidents : s.erase.members.map (·.ident) = (s.members.map (·.ident)).map Ident.erase := by
    rw [Structure.erase, List.map_map, List.map_map]
    rfl
  rw [checkStructure, checkStructure, hidents, List.map_append, List.map_append,
    causes_checkUnique, Structure.erase, List.flatMap_map, List.map_flatMap, List.map_flatMap]
  simp only [causes_checkSymbol]

/-- By induction on the constants that are left, for any earlier ones. -/
theorem causes_checkConstants (earlier cs : List Constant) :
    (p.erase.checkConstants (earlier.map Constant.erase) (cs.map Constant.erase)).map (·.cause) =
      (p.checkConstants earlier cs).map (·.cause) := by
  induction cs generalizing earlier with
  | nil => rfl
  | cons c cs ih =>
    have hvalue := ((agree_checkConstantExpr earlier c.value).bind_eq fun _ =>
      Scope.agree_expectType ⟨p, none⟩ c.value c.symbol.type default
        c.symbol.ident.position).causes_reported
    have hnext := ih (earlier ++ [c])
    rw [List.map_append, List.map_cons, List.map_nil] at hnext
    rw [List.map_cons, checkConstants, checkConstants, List.map_append, List.map_append,
      List.map_append, List.map_append, ← p.causes_checkSymbol c.symbol, ← hvalue, ← hnext]
    rfl

theorem causes_checkShadowing (s : Symbol) :
    (p.erase.checkShadowing s.erase).map (·.cause) = (p.checkShadowing s).map (·.cause) := by
  simp only [checkShadowing, structure?_erase, function?_erase, procedure?_erase, Option.isSome_map,
    Symbol.name_erase]
  split <;> rfl

/-- The checks of a routine one after the other: its names, their types, its result and its body. -/
theorem causes_checkRoutine (r : Routine) :
    (p.erase.checkRoutine r.erase).map (·.cause) = (p.checkRoutine r).map (·.cause) := by
  have hsymbols : r.erase.params.map (·.symbol) ++ r.erase.locals =
      (r.params.map (·.symbol) ++ r.locals).map Symbol.erase := by
    rw [List.map_append, Routine.erase, List.map_map, List.map_map]
    rfl
  have hidents (l : List Symbol) :
      (l.map Symbol.erase).map (·.ident) = (l.map (·.ident)).map Ident.erase := by
    rw [List.map_map, List.map_map]
    rfl
  have hbody := Scope.causes_checkBlock ⟨p, some r⟩ r.body
  rw [Instruction.eraseAll_eq_map] at hbody
  have hresult : ((r.erase.result.map (p.erase.checkType r.erase.ident.position)).getD []).map
      (·.cause) = ((r.result.map (p.checkType r.ident.position)).getD []).map (·.cause) := by
    rw [Routine.erase]
    cases r.result with
    | none => rfl
    | some t => exact p.causes_checkType _ _ t
  simp only [checkRoutine, hsymbols]
  generalize r.params.map (·.symbol) ++ r.locals = symbols
  simp only [hidents, List.map_append, List.map_flatMap, List.flatMap_map, causes_checkUnique,
    causes_checkShadowing, causes_checkSymbol, hresult]
  exact congrArg _ hbody

/-- Whether a function may be the entry is seen from its signature. -/
theorem isEntry_erase (r : Routine) : isEntry r.erase = isEntry r := by
  rw [isEntry, isEntry, Routine.erase]
  congr 1
  rcases r.params with _ | ⟨x, _ | ⟨y, xs⟩⟩ <;> rfl

theorem causes_checkEntry : p.erase.checkEntry.map (·.cause) = p.checkEntry.map (·.cause) := by
  have hentry : p.erase.entry? = p.entry?.map Routine.erase := p.function?_erase p.name
  rw [checkEntry, checkEntry, hentry]
  cases p.entry? with
  | none => rfl
  | some r =>
    rw [Option.map_some]
    dsimp only
    rw [isEntry_erase]
    split <;> rfl

theorem causes_checkName : p.erase.checkName.map (·.cause) = p.checkName.map (·.cause) := by
  rw [checkName, checkName, name_erase]
  split <;> rfl

/-- The names that have to be distinct are those of the program itself, in the same order. -/
theorem declaredIdents_erase : p.erase.declaredIdents = p.declaredIdents.map Ident.erase := by
  simp only [declaredIdents, erase, List.map_append, List.map_map]
  rfl

/-- A program without its places has the same problems, in the same order. -/
theorem causes_erase : p.erase.check.map (·.cause) = p.check.map (·.cause) := by
  have hconstants := p.causes_checkConstants [] p.constants
  have hstructures : p.erase.structures = p.structures.map Structure.erase := rfl
  have hglobals : p.erase.globals = p.globals.map Symbol.erase := rfl
  rw [check, check, declaredIdents_erase, routines_erase, hstructures, hglobals]
  simp only [List.map_append, List.map_flatMap, List.flatMap_map, causes_checkName,
    causes_checkUnique, causes_checkStructure, causes_checkSymbol, causes_checkRoutine,
    causes_checkEntry]
  rw [← hconstants]
  rfl

end Program

end Primer
